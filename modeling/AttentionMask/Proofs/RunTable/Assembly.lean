import AttentionMask.RunTable.Assembly
import AttentionMask.Proofs.RowRule.Runs
import AttentionMask.Proofs.RunTable.Relation
import AttentionMask.Proofs.Writes

/-! Assembly in two passes lays out the rows of the rule one after another, for every order of the
rows in either pass, every sharing of them among workers and every content that the buffers start
with: a buffer is loaded afresh for each row, and each pass writes to places of that row alone. -/

namespace AttentionMask

namespace RowRule

variable {r : RowRule} {i : Int64}

theorem load_eq (r : RowRule) (i : Int64) (buffer : Array KeyRun) :
    r.load i buffer = (r.runs i).toArray :=
  Array.ext' (r.load_toList i buffer)

theorem rows_eq (h : r.Sound) :
    r.rows = (List.range r.length.toInt.toNat).map Int64.ofNat := by
  rw [rows, Walk.upTo_zero, toInt_length_sub_one h, Int.sub_add_cancel]

theorem mem_rows (h : r.Sound) : i ∈ r.rows ↔ r.HasRow i := by
  rw [rows, Walk.mem_upTo, Int64.le_iff_toInt_le, Int64.le_iff_toInt_le, toInt_length_sub_one h]
  exact ⟨fun ⟨low, high⟩ => ⟨low, by omega⟩, fun ⟨low, high⟩ => ⟨low, by omega⟩⟩

theorem toNat_length (h : r.Sound) : r.length.toUInt64.toNat = r.length.toInt.toNat :=
  Words.toNat_toUInt64 (Int.le_trans (by decide) h.one_le_length)

theorem HasRow.toNat_eq (row : r.HasRow i) : i.toUInt64.toNat = i.toInt.toNat :=
  Words.toNat_toUInt64 row.nonneg

theorem HasRow.ofNat_toNat (row : r.HasRow i) : Int64.ofNat i.toInt.toNat = i := by
  refine Int64.toInt_inj.mp ?_
  have top := i.toInt_lt
  have low := row.nonneg
  rw [Int64.toInt_ofNat_of_lt (by omega)]
  omega

theorem hasRow_ofNat (h : r.Sound) {k : Nat} (inside : k < r.length.toInt.toNat) :
    r.HasRow (Int64.ofNat k) ∧ (Int64.ofNat k).toInt = k := by
  have bound := h.length_le
  have value : (Int64.ofNat k).toInt = k := Int64.toInt_ofNat_of_lt (by omega)
  exact ⟨⟨by omega, by omega⟩, value⟩

def runRows (r : RowRule) : List (List KeyRun) :=
  r.rows.map r.runs

theorem length_runRows (h : r.Sound) : r.runRows.length = r.length.toInt.toNat := by
  rw [runRows, rows_eq h, List.length_map, List.length_map, List.length_range]

theorem HasRow.lt_length_runRows (row : r.HasRow i) (h : r.Sound) :
    i.toInt.toNat < r.runRows.length := by
  obtain ⟨low, high⟩ := row
  rw [length_runRows h]
  omega

theorem getElem_runRows (h : r.Sound) (row : r.HasRow i)
    (inside : i.toInt.toNat < r.runRows.length) :
    r.runRows[i.toInt.toNat] = r.runs i := by
  simp only [runRows, rows_eq h, List.getElem_map, List.getElem_range, row.ofNat_toNat]

/-- Every laid out row is the row of a position. -/
theorem exists_row (h : r.Sound) {k : Nat} (inside : k < r.runRows.length) :
    ∃ i, r.HasRow i ∧ i.toInt.toNat = k ∧ r.runRows[k] = r.runs i := by
  obtain ⟨row, value⟩ := hasRow_ofNat h (length_runRows h ▸ inside)
  refine ⟨Int64.ofNat k, row, by rw [value, Int.toNat_natCast], ?_⟩
  simp only [runRows, rows_eq h, List.getElem_map, List.getElem_range]

end RowRule

namespace RunTable

open RowRule

variable {workers : Nat} {Out : Type} {rule : RowRule}

/-- In both passes every row of the rule has its task, and no other row has one. -/
structure Schedule.Complete (schedule : Schedule workers) (rule : RowRule) : Prop where
  counting : ∀ i, i ∈ schedule.counting.map Task.row ↔ i ∈ rule.rows
  placing : ∀ i, i ∈ schedule.placing.map Task.row ↔ i ∈ rule.rows

/-- What a pass leaves does not depend on the buffers or on who takes which row. -/
theorem foldl_perform (use : UInt64 → Array KeyRun → Out → Out) (tasks : List (Task workers))
    (state : Buffers workers × Out) :
    (tasks.foldl (perform rule use) state).2 =
      (tasks.map Task.row).foldl (fun out i => use i.toUInt64 (rule.runs i).toArray out)
        state.2 := by
  induction tasks generalizing state with
  | nil => rfl
  | cons task rest ih =>
      rw [List.foldl_cons, ih, List.map_cons, List.foldl_cons, perform, rule.load_eq]

def countEntries (rule : RowRule) (i : Int64) : List (Nat × UInt64) :=
  [((i.toUInt64 + 1).toNat, UInt64.ofNat (rule.runs i).length)]

theorem note_eq (rule : RowRule) (i : Int64) (counts : Array UInt64) :
    note i.toUInt64 (rule.runs i).toArray counts = Writes.apply counts (countEntries rule i) := by
  rw [note, List.size_toArray]
  rfl

def runEntries (rule : RowRule) (starts : Array UInt64) (i : Int64) : List (Nat × KeyRun) :=
  (slots starts i.toUInt64 (rule.runs i).toArray).zip (rule.runs i)

theorem place_eq (rule : RowRule) (starts : Array UInt64) (i : Int64) (runs : Array KeyRun) :
    place starts i.toUInt64 (rule.runs i).toArray runs =
      Writes.apply runs (runEntries rule starts i) :=
  rfl

theorem mem_runEntries {starts : Array UInt64} {i : Int64} {slot : Nat} {run : KeyRun} :
    (slot, run) ∈ runEntries rule starts i ↔
      ∃ k, ∃ h : k < (rule.runs i).length,
        slot = (starts.getD i.toUInt64.toNat 0).toNat + k ∧ run = (rule.runs i)[k] := by
  simp only [runEntries, slots, List.mem_iff_getElem, List.getElem_zip, List.getElem_map,
    List.getElem_range, Prod.mk.injEq, List.length_zip, List.length_map, List.length_range,
    List.size_toArray, Nat.min_self]
  exact ⟨fun ⟨k, h, place, value⟩ => ⟨k, h, place.symm, value.symm⟩,
    fun ⟨k, h, place, value⟩ => ⟨k, h, place.symm, value.symm⟩⟩

def sumStep (sums : Array UInt64) (i : UInt64) : Array UInt64 :=
  sums.setIfInBounds (i + 1).toNat (sums.getD (i + 1).toNat 0 + sums.getD i.toNat 0)

theorem accumulate_eq (n : UInt64) (counts : Array UInt64) :
    accumulate n counts = ((List.range n.toNat).map UInt64.ofNat).foldl sumStep counts :=
  rfl

theorem size_foldl_sumStep (order : List UInt64) (sums : Array UInt64) :
    (order.foldl sumStep sums).size = sums.size := by
  induction order generalizing sums with
  | nil => rfl
  | cons i rest ih => exact (ih _).trans Array.size_setIfInBounds

section

variable {counts : Array UInt64} {rows : List (List KeyRun)}
  (short : rows.length + 1 < 2 ^ 64) (size : counts.size = rows.length + 1)
  (zero : counts[0]? = some 0)
  (lengths : ∀ k (h : k < rows.length), counts[k + 1]? = some (UInt64.ofNat rows[k].length))
include short size zero lengths

/-- After `m` steps the first sums are done and the other entries are untouched. -/
theorem getElem?_foldl_sumStep {m : Nat} (inside : m ≤ rows.length) (k : Nat) :
    (((List.range m).map UInt64.ofNat).foldl sumStep counts)[k]? =
      if k ≤ m then some (UInt64.ofNat (runsBefore rows k)) else counts[k]? := by
  -- Step `m` adds entry `m`, which is already a sum, to entry `m + 1`, which is still a count.
  induction m generalizing k with
  | zero =>
      by_cases first : k = 0
      · subst first
        exact zero
      · simp [first]
  | succ m ih =>
      have row : m < rows.length := inside
      have done := ih (Nat.le_of_lt row)
      have bound := size_foldl_sumStep ((List.range m).map UInt64.ofNat) counts
      rw [List.range_succ, List.map_append, List.foldl_append, List.map_singleton]
      generalize ((List.range m).map UInt64.ofNat).foldl sumStep counts = sums at done bound
      have place : (UInt64.ofNat m).toNat = m := Words.toNat_ofNat (by omega)
      have next : (UInt64.ofNat m + 1).toNat = m + 1 := by
        rw [Words.toNat_add_one (by omega), place]
      have own : sums.getD (m + 1) 0 = UInt64.ofNat rows[m].length := by
        rw [Array.getD_eq_getD_getElem?, done, if_neg (by omega), lengths m row, Option.getD_some]
      have before : sums.getD m 0 = UInt64.ofNat (runsBefore rows m) := by
        rw [Array.getD_eq_getD_getElem?, done, if_pos (Nat.le_refl m), Option.getD_some]
      rw [List.foldl_cons, List.foldl_nil, sumStep, place, next, own, before,
        Array.getElem?_setIfInBounds, done]
      by_cases last : m + 1 = k
      · subst last
        rw [if_pos rfl, if_pos (by omega), if_pos (Nat.le_refl _), runsBefore_succ rows row,
          UInt64.ofNat_add, UInt64.add_comm]
      · rw [if_neg last]
        exact if_congr (by omega) rfl rfl

theorem accumulate_eq_starts {n : UInt64} (count : n.toNat = rows.length) :
    accumulate n counts = (ofRows rows).starts := by
  refine Array.ext_getElem? fun k => ?_
  rw [accumulate_eq, count, getElem?_foldl_sumStep short size zero lengths (Nat.le_refl _)]
  by_cases inside : k ≤ rows.length
  · rw [if_pos inside, starts_ofRows rows inside]
  · have past : rows.length + 1 ≤ k := Nat.not_le.mp inside
    rw [if_neg inside, Array.getElem?_eq_none (by omega),
      Array.getElem?_eq_none (by rw [size_starts_ofRows]; exact past)]

end

section

variable {order : List Int64} (h : rule.Sound) (all : ∀ i, i ∈ order ↔ i ∈ rule.rows)
include h all

/-- The writes of the first pass: after each row the number of its runs. -/
theorem mem_flatMap_countEntries {place : Nat} {count : UInt64} :
    (place, count) ∈ order.flatMap (countEntries rule) ↔
      ∃ i, rule.HasRow i ∧ place = i.toInt.toNat + 1 ∧
        count = UInt64.ofNat (rule.runs i).length := by
  have bound := h.length_le
  have next (i : Int64) (row : rule.HasRow i) : (i.toUInt64 + 1).toNat = i.toInt.toNat + 1 := by
    have inside := row.lt_length
    have low := row.nonneg
    rw [Words.toNat_add_one (by rw [row.toNat_eq]; omega), row.toNat_eq]
  simp only [List.mem_flatMap, all, mem_rows h, countEntries, List.mem_singleton, Prod.mk.injEq]
  refine exists_congr fun i => and_congr_right fun row => ?_
  rw [next i row]

theorem getElem?_counts_zero :
    (Writes.apply (Array.replicate (rule.length.toUInt64.toNat + 1) 0)
      (order.flatMap (countEntries rule)))[0]? = some 0 := by
  refine (Writes.getElem?_apply_of_notMem (fun count listed => ?_) _).trans (by simp)
  obtain ⟨i, _, place, _⟩ := (mem_flatMap_countEntries h all).mp listed
  exact Nat.succ_ne_zero _ place.symm

theorem getElem?_counts_succ {k : Nat} (inside : k < rule.runRows.length) :
    (Writes.apply (Array.replicate (rule.length.toUInt64.toNat + 1) 0)
      (order.flatMap (countEntries rule)))[k + 1]? =
        some (UInt64.ofNat rule.runRows[k].length) := by
  obtain ⟨i, row, place, own⟩ := exists_row h inside
  refine Writes.getElem?_apply_of_mem ?_ (fun count listed => ?_) ?_
  · exact (mem_flatMap_countEntries h all).mpr ⟨i, row, by rw [place], by rw [own]⟩
  · obtain ⟨i', row', place', value⟩ := (mem_flatMap_countEntries h all).mp listed
    have low := row.nonneg
    have low' := row'.nonneg
    have same : i' = i := Int64.toInt_inj.mp (by omega)
    rw [value, own, same]
  · rw [length_runRows h] at inside
    rw [Array.size_replicate, toNat_length h]
    omega

theorem accumulate_counts :
    accumulate rule.length.toUInt64 (Writes.apply
      (Array.replicate (rule.length.toUInt64.toNat + 1) 0) (order.flatMap (countEntries rule))) =
        (ofRows rule.runRows).starts := by
  have bound := h.length_le
  have count := length_runRows h
  refine accumulate_eq_starts (by omega) ?_ (getElem?_counts_zero h all)
    (fun k inside => getElem?_counts_succ h all inside) ?_
  · rw [Writes.size_apply, Array.size_replicate, toNat_length h, count]
  · rw [toNat_length h, count]

variable (room : rule.runRows.flatten.length < 2 ^ 64)
include room

/-- The writes of the second pass: every slot gets the run that the rows have there. -/
theorem mem_flatMap_runEntries {slot : Nat} {run : KeyRun} :
    (slot, run) ∈ order.flatMap (runEntries rule (ofRows rule.runRows).starts) ↔
      ∃ a, ∃ ha : a < rule.runRows.length, ∃ k, ∃ hk : k < rule.runRows[a].length,
        slot = runsBefore rule.runRows a + k ∧ run = rule.runRows[a][k] := by
  have start (i : Int64) (row : rule.HasRow i) :
      ((ofRows rule.runRows).starts.getD i.toUInt64.toNat 0).toNat =
        runsBefore rule.runRows i.toInt.toNat := by
    have inside := row.lt_length_runRows h
    have place := toNat_start_ofRows (i := i.toUInt64) room (by rw [row.toNat_eq]; omega)
    rwa [row.toNat_eq] at place
  simp only [List.mem_flatMap, all, mem_rows h, mem_runEntries]
  refine ⟨?_, ?_⟩
  · intro ⟨i, row, k, hk, place, value⟩
    have ha := row.lt_length_runRows h
    have own := getElem_runRows h row ha
    rw [start i row] at place
    exact ⟨i.toInt.toNat, ha, k, own ▸ hk, place, by simpa only [own] using value⟩
  · intro ⟨a, ha, k, hk, place, value⟩
    obtain ⟨i, row, rfl, own⟩ := exists_row h ha
    exact ⟨i, row, k, own ▸ hk, by rw [start i row, place], by simpa only [own] using value⟩

theorem apply_runEntries {blank : Array KeyRun} (size : blank.size = rule.runRows.flatten.length) :
    Writes.apply blank (order.flatMap (runEntries rule (ofRows rule.runRows).starts)) =
      rule.runRows.flatten.toArray := by
  refine Array.ext_getElem? fun slot => ?_
  -- The row that owns the slot writes it, and no other row comes there.
  by_cases inside : slot < rule.runRows.flatten.length
  · obtain ⟨a, ha, k, hk, place⟩ := exists_runsBefore inside
    have value : rule.runRows.flatten.toArray[slot]? = some rule.runRows[a][k] := by
      rw [← getElem?_flatten ha hk, place]
      exact List.getElem?_toArray
    rw [value]
    refine Writes.getElem?_apply_of_mem
      ((mem_flatMap_runEntries h all room).mpr ⟨a, ha, k, hk, place, rfl⟩) ?_ (size ▸ inside)
    intro run listed
    obtain ⟨b, hb, l, hl, place', value⟩ := (mem_flatMap_runEntries h all room).mp listed
    obtain ⟨rfl, rfl⟩ := slot_unique ha hb hk hl (place ▸ place')
    exact value
  · rw [Array.getElem?_eq_none (by rw [Writes.size_apply]; omega),
      Array.getElem?_eq_none (by rw [List.size_toArray]; omega)]

end

/-- The first pass writes the number of runs of each row after the row. -/
theorem foldl_note (tasks : List (Task workers)) (buffers : Buffers workers)
    (counts : Array UInt64) : (tasks.foldl (perform rule note) (buffers, counts)).2 =
      Writes.apply counts ((tasks.map Task.row).flatMap (countEntries rule)) := by
  have notes : (fun out i => note i.toUInt64 (rule.runs i).toArray out) =
      fun out i => Writes.apply out (countEntries rule i) := by
    funext out i
    exact note_eq rule i out
  rw [foldl_perform, notes, Writes.foldl_apply]

/-- The second pass writes the runs of each row from its start on. -/
theorem foldl_place (starts : Array UInt64) (tasks : List (Task workers))
    (buffers : Buffers workers) (runs : Array KeyRun) :
    (tasks.foldl (perform rule (place starts)) (buffers, runs)).2 =
      Writes.apply runs ((tasks.map Task.row).flatMap (runEntries rule starts)) := by
  have places : (fun out i => place starts i.toUInt64 (rule.runs i).toArray out) =
      fun out i => Writes.apply out (runEntries rule starts i) := by
    funext out i
    exact place_eq rule starts i out
  rw [foldl_perform, places, Writes.foldl_apply]

theorem toNat_final_start (h : rule.Sound) (room : rule.runRows.flatten.length < 2 ^ 64) :
    ((ofRows rule.runRows).starts.getD rule.length.toUInt64.toNat 0).toNat =
      rule.runRows.flatten.length := by
  have last := toNat_start_ofRows (i := rule.length.toUInt64) room
    (by rw [toNat_length h, length_runRows h])
  rw [start, toNat_length h, ← length_runRows h, runsBefore_length] at last
  rw [toNat_length h, ← length_runRows h, last]

/-- Every complete schedule, with whatever the buffers hold, lays out the rows of the rule. -/
theorem assemble_eq {schedule : Schedule workers} (h : rule.Sound)
    (complete : schedule.Complete rule) (room : rule.runRows.flatten.length < 2 ^ 64)
    (buffers : Buffers workers) : assemble rule schedule buffers = ofRows rule.runRows := by
  have counted : accumulate rule.length.toUInt64 (schedule.counting.foldl (perform rule note)
      (buffers, Array.replicate (rule.length.toUInt64.toNat + 1) 0)).2 =
        (ofRows rule.runRows).starts := by
    rw [foldl_note]
    exact accumulate_counts h complete.counting
  rw [assemble]
  simp only [counted]
  rw [foldl_place, apply_runEntries h complete.placing room
    (by rw [Array.size_replicate, toNat_final_start h room]), ← runs_ofRows]

/-- The length of an assembled table does not depend on whether its starts wrap. -/
theorem length_assemble (rule : RowRule) (schedule : Schedule workers) (buffers : Buffers workers) :
    (assemble rule schedule buffers).length = rule.length.toUInt64 := by
  have size : (assemble rule schedule buffers).starts.size = rule.length.toUInt64.toNat + 1 := by
    simp only [assemble, accumulate_eq, size_foldl_sumStep, foldl_note, Writes.size_apply,
      Array.size_replicate]
  rw [length, size, UInt64.ofNat_add, UInt64.ofNat_toNat]
  exact UInt64.add_sub_cancel _ 1

theorem complete_sequential (rule : RowRule) : (sequential rule).Complete rule := by
  have tasks : (rule.rows.map fun i => (⟨i, 0⟩ : Task 1)).map Task.row = rule.rows := by
    rw [List.map_map]
    exact List.map_id _
  refine ⟨fun i => ?_, fun i => ?_⟩
  · rw [sequential, tasks]
  · rw [sequential, tasks]

end RunTable
end AttentionMask
