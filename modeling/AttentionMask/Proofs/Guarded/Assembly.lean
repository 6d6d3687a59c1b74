import AttentionMask.Proofs.Guarded.Rows
import AttentionMask.Proofs.RunTable.Assembly

/-! Assembly with checked indices, for every schedule that gives each row its task and every
content of the buffers. A count goes to a place of the array of starts, each running sum is
exact because the runs of all rows can be counted in a word, and the slots of a row end where
the next row starts. -/

namespace AttentionMask.RunTable

open RowRule

variable {workers : Nat} {Out : Type} {rule : RowRule}

/-- Load a row into its worker's buffer and hand the buffer on. -/
def perform? (rule : RowRule) (use : UInt64 → Array KeyRun → Out → Option Out)
    (state : Buffers workers × Out) (task : Task workers) : Option (Buffers workers × Out) := do
  let worker := task.worker
  have inside := worker.isLt
  let buffer ← rule.load? task.row state.1[worker]
  let row ← Guarded.index task.row
  let out ← use row buffer state.2
  some (state.1.set worker.val buffer inside, out)

def note? (i : UInt64) (buffer : Array KeyRun) (counts : Array UInt64) : Option (Array UInt64) := do
  let place ← Guarded.sum i 1
  let count ← Guarded.count buffer
  Guarded.write counts place.toNat count

/-- Add the sum before row `i` to the number of its runs. -/
def sumStep? (sums : Array UInt64) (i : UInt64) : Option (Array UInt64) := do
  let place ← Guarded.sum i 1
  let own ← Guarded.read sums place.toNat
  let before ← Guarded.read sums i.toNat
  let total ← Guarded.sum own before
  Guarded.write sums place.toNat total

def accumulate? (n : UInt64) (counts : Array UInt64) : Option (Array UInt64) :=
  (Walk.below n).foldlM sumStep? counts

/-- Copy the runs of row `i` to the slots from its start on. -/
def place? (starts : Array UInt64) (i : UInt64) (buffer : Array KeyRun) (runs : Array KeyRun) :
    Option (Array KeyRun) := do
  let first ← Guarded.read starts i.toNat
  Guarded.writes runs ((List.range' first.toNat buffer.size).zip buffer.toList)

def assemble? (rule : RowRule) (schedule : Schedule workers) (buffers : Buffers workers) :
    Option RunTable := do
  let n ← Guarded.index rule.length
  let size ← Guarded.sum n 1
  let counted ← schedule.counting.foldlM (perform? rule note?)
    (buffers, Array.replicate size.toNat 0)
  let starts ← accumulate? n counted.2
  let total ← Guarded.read starts n.toNat
  let placed ← schedule.placing.foldlM (perform? rule (place? starts))
    (counted.1, Array.replicate total.toNat ⟨0, 0⟩)
  some ⟨starts, placed.2⟩

/-- The length of a row fits in a word where the runs of all rows can be counted in one. -/
theorem size_runs_lt (h : rule.Sound) (room : rule.runRows.flatten.length < 2 ^ 64) {i : Int64}
    (row : rule.HasRow i) : (rule.runs i).length < 2 ^ 64 := by
  have inside := row.lt_length_runRows h
  have stop := runsBefore_succ rule.runRows inside
  have total := runsBefore_le rule.runRows (i.toInt.toNat + 1)
  rw [getElem_runRows h row inside] at stop
  omega

/-- A pass over the rows is guarded where what it does with a loaded row is. -/
theorem foldlM_perform? {use? : UInt64 → Array KeyRun → Out → Option Out}
    {use : UInt64 → Array KeyRun → Out → Out} (Inv : Out → Prop) (h : rule.Sound)
    (few : rule.capacity < 2 ^ 64) {tasks : List (Task workers)}
    (rows : ∀ task ∈ tasks, rule.HasRow task.row)
    (each : ∀ out, Inv out → ∀ i, rule.HasRow i →
      use? i.toUInt64 (rule.runs i).toArray out = some (use i.toUInt64 (rule.runs i).toArray out))
    (keep : ∀ out, Inv out → ∀ i, rule.HasRow i → Inv (use i.toUInt64 (rule.runs i).toArray out))
    (state : Buffers workers × Out) (start : Inv state.2) :
    tasks.foldlM (perform? rule use?) state = some (tasks.foldl (perform rule use) state) := by
  refine Guarded.foldlM_eq_some (fun state => Inv state.2) ?_ ?_ state start
  · intro state inv task listed
    have row := rows task listed
    have loaded := load?_eq h row few state.1[task.worker]
    have done := each state.2 inv task.row row
    rw [← rule.load_eq task.row state.1[task.worker]] at done
    simp only [perform?, loaded, Guarded.index_eq row.nonneg, done, Option.bind_eq_bind,
      Option.bind_some, perform]
  · intro state inv task listed
    have kept := keep state.2 inv task.row (rows task listed)
    rwa [← rule.load_eq task.row state.1[task.worker]] at kept

theorem note?_eq (h : rule.Sound) (room : rule.runRows.flatten.length < 2 ^ 64) {i : Int64}
    (row : rule.HasRow i) {counts : Array UInt64}
    (size : counts.size = rule.length.toUInt64.toNat + 1) :
    note? i.toUInt64 (rule.runs i).toArray counts =
      some (note i.toUInt64 (rule.runs i).toArray counts) := by
  have few : (rule.runs i).toArray.size < 2 ^ 64 := by
    rw [List.size_toArray]
    exact size_runs_lt h room row
  have count := Guarded.count_eq few
  have bound := h.length_le
  have length := toNat_length h
  have value := row.toNat_eq
  obtain ⟨low, high⟩ := row
  have next := Guarded.next_eq (a := i.toUInt64) (by omega)
  have place := Words.toNat_add_one (a := i.toUInt64) (by omega)
  simp only [note?, next, count, Option.bind_eq_bind, Option.bind_some]
  exact Guarded.write_eq (by omega) _

section

variable {counts : Array UInt64} {rows : List (List KeyRun)}
  (short : rows.length + 1 < 2 ^ 64) (room : rows.flatten.length < 2 ^ 64)
  (size : counts.size = rows.length + 1) (zero : counts[0]? = some 0)
  (lengths : ∀ k (h : k < rows.length), counts[k + 1]? = some (UInt64.ofNat rows[k].length))
include short room size zero lengths

theorem foldlM_sumStep? {m : Nat} (inside : m ≤ rows.length) :
    ((List.range m).map UInt64.ofNat).foldlM sumStep? counts =
      some (((List.range m).map UInt64.ofNat).foldl sumStep counts) := by
  induction m with
  | zero => rfl
  | succ m ih =>
      have row : m < rows.length := inside
      have done := getElem?_foldl_sumStep short size zero lengths (Nat.le_of_lt row)
      have bound := size_foldl_sumStep ((List.range m).map UInt64.ofNat) counts
      rw [List.range_succ, List.map_append, List.foldlM_append, List.foldl_append,
        ih (Nat.le_of_lt row), List.map_singleton, List.foldl_cons, List.foldl_nil]
      generalize ((List.range m).map UInt64.ofNat).foldl sumStep counts = sums at done bound
      have place : (UInt64.ofNat m).toNat = m := Words.toNat_ofNat (by omega)
      have next : (UInt64.ofNat m + 1).toNat = m + 1 := by
        rw [Words.toNat_add_one (by omega), place]
      have own : sums.getD (m + 1) 0 = UInt64.ofNat rows[m].length := by
        rw [Array.getD_eq_getD_getElem?, done, if_neg (by omega), lengths m row, Option.getD_some]
      have before : sums.getD m 0 = UInt64.ofNat (runsBefore rows m) := by
        rw [Array.getD_eq_getD_getElem?, done, if_pos (Nat.le_refl m), Option.getD_some]
      -- The new sum counts the runs of the first rows, and all runs can be counted in a word.
      have small : (sums.getD (m + 1) 0).toNat + (sums.getD m 0).toNat < 2 ^ 64 := by
        have stop := runsBefore_succ rows row
        have total := runsBefore_le rows (m + 1)
        rw [own, before, Words.toNat_ofNat (by omega), Words.toNat_ofNat (by omega)]
        omega
      have after := Guarded.next_eq (a := UInt64.ofNat m) (by omega)
      have step : sumStep? sums (UInt64.ofNat m) = some (sumStep sums (UInt64.ofNat m)) := by
        simp only [sumStep?, sumStep, after, next, place, Guarded.sum_eq small,
          Guarded.read_eq (show m + 1 < sums.size by omega) 0,
          Guarded.read_eq (show m < sums.size by omega) 0, Option.bind_eq_bind, Option.bind_some]
        exact Guarded.write_eq (by omega) _
      simp only [List.foldlM_cons, List.foldlM_nil, step, Option.bind_eq_bind, Option.bind_some]
      rfl

theorem accumulate?_eq {n : UInt64} (count : n.toNat = rows.length) :
    accumulate? n counts = some (accumulate n counts) := by
  have all := foldlM_sumStep? short room size zero lengths (Nat.le_refl _)
  rwa [← count] at all

end

theorem place?_eq (h : rule.Sound) (room : rule.runRows.flatten.length < 2 ^ 64) {i : Int64}
    (row : rule.HasRow i) {runs : Array KeyRun} (size : runs.size = rule.runRows.flatten.length) :
    place? (ofRows rule.runRows).starts i.toUInt64 (rule.runs i).toArray runs =
      some (place (ofRows rule.runRows).starts i.toUInt64 (rule.runs i).toArray runs) := by
  have inside := row.lt_length_runRows h
  have held : i.toUInt64.toNat < (ofRows rule.runRows).starts.size := by
    rw [size_starts_ofRows, row.toNat_eq]
    omega
  have same : List.range' ((ofRows rule.runRows).starts.getD i.toUInt64.toNat 0).toNat
      (rule.runs i).toArray.size =
        slots (ofRows rule.runRows).starts i.toUInt64 (rule.runs i).toArray := by
    rw [List.range'_eq_map_range]
    rfl
  simp only [place?, Guarded.read_eq held 0, Option.bind_eq_bind, Option.bind_some, same]
  refine Guarded.writes_eq fun entry listed => ?_
  obtain ⟨a, ha, k, hk, place, _⟩ := (mem_flatMap_runEntries h (fun _ => Iff.rfl) room).mp
    (List.mem_flatMap.mpr ⟨i, (mem_rows h).mpr row, listed⟩)
  have stop := runsBefore_succ rule.runRows ha
  have total := runsBefore_le rule.runRows (a + 1)
  omega

/-- Assembly wraps no index and stays inside its arrays. -/
theorem assemble?_eq {schedule : Schedule workers} (h : rule.Sound)
    (complete : schedule.Complete rule) (few : rule.capacity < 2 ^ 64)
    (room : rule.runRows.flatten.length < 2 ^ 64) (buffers : Buffers workers) :
    assemble? rule schedule buffers = some (assemble rule schedule buffers) := by
  have bound := h.length_le
  have positive := h.one_le_length
  have length := toNat_length h
  have rows := length_runRows h
  have counting (task : Task workers) (listed : task ∈ schedule.counting) : rule.HasRow task.row :=
    (mem_rows h).mp ((complete.counting _).mp (List.mem_map_of_mem listed))
  have placing (task : Task workers) (listed : task ∈ schedule.placing) : rule.HasRow task.row :=
    (mem_rows h).mp ((complete.placing _).mp (List.mem_map_of_mem listed))
  have n := Guarded.index_eq (a := rule.length) (by omega)
  have next := Guarded.next_eq (a := rule.length.toUInt64) (by omega)
  have size := Words.toNat_add_one (a := rule.length.toUInt64) (by omega)
  have counted := foldlM_perform? (fun counts => counts.size = rule.length.toUInt64.toNat + 1) h few
    counting (fun counts own i row => note?_eq h room row own)
    (fun counts own i _ => (Array.size_setIfInBounds).trans own)
    (buffers, Array.replicate (rule.length.toUInt64.toNat + 1) 0) Array.size_replicate
  have summed := accumulate_counts h complete.counting
  have sums := accumulate?_eq (show rule.runRows.length + 1 < 2 ^ 64 by omega) room
    (by rw [Writes.size_apply, Array.size_replicate, length, rows])
    (getElem?_counts_zero h complete.counting)
    (fun k inside => getElem?_counts_succ h complete.counting inside) (length.trans rows.symm)
  have held : rule.length.toUInt64.toNat < (ofRows rule.runRows).starts.size := by
    rw [size_starts_ofRows, rows]
    omega
  have total := toNat_final_start h room
  simp only [assemble?, n, next, size, counted, foldl_note, sums, summed,
    Guarded.read_eq held 0, total, assemble, Option.bind_eq_bind, Option.bind_some]
  rw [foldlM_perform? (fun runs => runs.size = rule.runRows.flatten.length) h few placing
    (fun runs own i row => place?_eq h room row own)
    (fun runs own i _ => by rw [place_eq, Writes.size_apply, own]) _ Array.size_replicate]
  rfl

end AttentionMask.RunTable
