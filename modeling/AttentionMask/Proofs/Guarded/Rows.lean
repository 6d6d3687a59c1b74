import AttentionMask.Proofs.Guarded
import AttentionMask.Proofs.RowRule.Runs

/-! Loading a row with checked indices. The ranges of the row go into a cleared buffer and are
united there: the sweep writes the runs it closes over the part of the buffer that it has read
already. The buffer ends up as the plain union, and every index on the way is exact and inside. -/

namespace AttentionMask

namespace KeyRun

/-- Sweep a buffer in place. The open run is at `out`; `left` runs from `next` on are still to be
read. The result is the buffer with the position of its last run. -/
def sweep? (runs : Array KeyRun) (out next : UInt64) : (left : Nat) →
    Option (Array KeyRun × UInt64)
  | 0 => some (runs, out)
  | left + 1 => do
    let current ← Guarded.read runs out.toNat
    let run ← Guarded.read runs next.toNat
    let reach ← Guarded.sum current.last 1
    let following ← Guarded.sum next 1
    if run.first ≤ reach then
      let runs ← Guarded.write runs out.toNat (current.extend run)
      sweep? runs out following left
    else
      let place ← Guarded.sum out 1
      let runs ← Guarded.write runs place.toNat run
      sweep? runs place following left

/-- Sweep sorted runs in place and cut the buffer down to the runs that are left. -/
def sweepAll? (sorted : Array KeyRun) : Option (Array KeyRun) :=
  if sorted.size < 2 then some sorted else do
    let (swept, last) ← sweep? sorted 0 1 (sorted.size - 1)
    let kept ← Guarded.sum last 1
    Guarded.slice swept 0 kept

def union? (runs : Array KeyRun) : Option (Array KeyRun) :=
  sweepAll? (runs.toList.mergeSort startsBefore).toArray

/-- The buffer holds the closed runs, the open one, what is read already and the rest. The sweep
leaves the closed runs and those that the rest still gives. -/
theorem sweep?_eq {closed gone rest : List KeyRun} {current : KeyRun} {out next : UInt64}
    (place : out.toNat = closed.length) (front : next.toNat = closed.length + 1 + gone.length)
    (room : closed.length + 1 + gone.length + rest.length < 2 ^ 64)
    (proper : ∀ run ∈ current :: rest, Proper run) :
    ∃ tail last, sweep? (closed ++ current :: (gone ++ rest)).toArray out next rest.length =
        some ((closed ++ coalesce current rest ++ tail).toArray, last) ∧
      last.toNat + 1 = (closed ++ coalesce current rest).length := by
  induction rest generalizing closed gone current out next with
  | nil => exact ⟨gone, out, by simp [sweep?, coalesce], by simp [coalesce, place]⟩
  | cons run rest ih =>
      obtain ⟨own, later, others⟩ :=
        (List.forall_mem_cons.mp proper).imp_right List.forall_mem_cons.mp
      rw [List.length_cons] at room
      have standing := Guarded.read_append closed current (gone ++ run :: rest) place
      have ahead : Guarded.read (closed ++ current :: (gone ++ run :: rest)).toArray next.toNat =
          some run := by
        have front' : next.toNat = (closed ++ current :: gone).length := by simp; omega
        simpa using Guarded.read_append (closed ++ current :: gone) run rest front'
      have following := Words.toNat_add_one (a := next) (by omega)
      have reach := Guarded.next_eq own.last_lt
      have step := Guarded.next_eq (a := next) (by omega)
      unfold coalesce
      simp only [List.length_cons, sweep?, standing, ahead, reach, step, Option.bind_eq_bind,
        Option.bind_some, touches, decide_eq_true_eq]
      split
      · -- The joined run takes the place of the open one.
        rw [Guarded.write_append closed current _ place, Option.bind_some,
          List.append_cons gone run rest]
        exact ih place (by simp; omega) (by simp; omega)
          (List.forall_mem_cons.mpr ⟨own.extend later, others⟩)
      · -- The next run opens at the place after, which holds it or a run that is read already.
        have after := Words.toNat_add_one (a := out) (by omega)
        obtain ⟨first, gone', split, same⟩ : ∃ first gone',
            gone ++ run :: rest = first :: (gone' ++ rest) ∧ gone'.length = gone.length := by
          cases gone with
          | nil => exact ⟨run, [], rfl, rfl⟩
          | cons first gone => exact ⟨first, gone ++ [run], by simp, by simp⟩
        have shift : closed ++ current :: (gone ++ run :: rest) =
            (closed ++ [current]) ++ first :: (gone' ++ rest) := by simp [split]
        rw [Guarded.next_eq (by omega), Option.bind_some, shift,
          Guarded.write_append _ _ _ (by simp; omega), Option.bind_some]
        obtain ⟨tail, last, done, size⟩ := @ih (closed ++ [current]) gone' run (out + 1) (next + 1)
          (by simp; omega) (by simp; omega) (by simp; omega)
          (List.forall_mem_cons.mpr ⟨later, others⟩)
        exact ⟨tail, last, by rw [done]; simp, by rw [size]; simp⟩

theorem sweepAll?_eq {sorted : Array KeyRun} (room : sorted.size < 2 ^ 64)
    (proper : ∀ run ∈ sorted.toList, Proper run) :
    sweepAll? sorted = some (sweep sorted.toList).toArray := by
  obtain ⟨sorted⟩ := sorted
  rw [List.size_toArray] at room
  unfold sweepAll?
  match sorted with
  | [] => simp [sweep]
  | [run] => simp [sweep, coalesce]
  | run :: next :: rest =>
      obtain ⟨tail, last, done, count⟩ :=
        @sweep?_eq [] [] (next :: rest) run 0 1 rfl rfl (by simpa [Nat.add_comm] using room) proper
      simp only [List.nil_append, List.length_cons] at done count room
      have few := length_coalesce_le run (next :: rest)
      rw [List.length_cons] at few
      have kept := Guarded.next_eq (a := last) (by omega)
      have total : (last + 1).toNat = (coalesce run (next :: rest)).length := by
        rw [Words.toNat_add_one (by omega), count]
      have several : ¬rest.length + 1 + 1 < 2 := by omega
      simp only [List.size_toArray, List.length_cons, several, if_false, Nat.add_sub_cancel, done,
        kept, Option.bind_eq_bind, Option.bind_some, sweep]
      rw [Guarded.slice_eq (by simp [total]; omega) (by simp [total])]
      simp [total]

theorem union?_eq {runs : Array KeyRun} (room : runs.size < 2 ^ 64)
    (proper : ∀ run ∈ runs.toList, Proper run) :
    union? runs = some (union runs.toList).toArray := by
  refine sweepAll?_eq ?_ fun run listed => proper run (List.mem_mergeSort.mp listed)
  rwa [List.size_toArray, List.length_mergeSort, Array.length_toList]

end KeyRun

namespace RowRule

/-- Add the range around the centre of one offset to the ranges of row `i`, unless it is empty. -/
def addRange? (r : RowRule) (i ceiling : Int64) (ranges : Array KeyRun) (o : Int64) :
    Option (Array KeyRun) := do
  let centre ← Guarded.minus i o
  let low ← Guarded.minus centre r.band
  let high ← Guarded.plus centre r.band
  if max 0 low ≤ min ceiling high then
    let first ← Guarded.index (max 0 low)
    let last ← Guarded.index (min ceiling high)
    some (ranges.push ⟨first, last⟩)
  else some ranges

/-- The ranges of row `i` in a buffer that may hold another row. -/
def ranges? (r : RowRule) (i : Int64) (buffer : Array KeyRun) : Option (Array KeyRun) := do
  let start ← Guarded.minus i r.window
  let first ← Guarded.index (max 0 start)
  let last ← Guarded.index i
  let final ← Guarded.minus r.length 1
  let ceiling := match r.causality with
    | .unclamped => final
    | .clamped => i
  r.offsets.foldlM (r.addRange? i ceiling) ((buffer.shrink 0).push ⟨first, last⟩)

def load? (r : RowRule) (i : Int64) (buffer : Array KeyRun) : Option (Array KeyRun) := do
  let ranges ← r.ranges? i buffer
  KeyRun.union? ranges

variable {r : RowRule} {i o : Int64}

theorem addRange?_eq (h : r.Sound) (row : r.HasRow i) (listed : o ∈ r.offsets)
    (ranges : Array KeyRun) :
    r.addRange? i (r.ceiling i) ranges o = some (ranges ++ (r.bandRun? i o).toList) := by
  have centre := toInt_centre h row listed
  have fits := bandHolds h row listed
  have middle := Guarded.minus_eq fits.centre
  have below := Guarded.minus_eq (a := i - o) (b := r.band) (centre ▸ fits.first)
  have above := Guarded.plus_eq (a := i - o) (b := r.band) (centre ▸ fits.last)
  simp only [addRange?, middle, below, above, Option.bind_eq_bind, Option.bind_some, bandRun?]
  split
  · rename_i order
    rw [Int64.le_iff_toInt_le, Words.toInt_max, Int64.toInt_zero] at order
    have last := Guarded.index_eq (Int.le_trans (Int.le_max_left _ _) order)
    simp [Guarded.index_max, last]
  · simp

theorem toList_foldl_bandRun? (offsets : List Int64) (ranges : Array KeyRun) :
    (offsets.foldl (fun (ranges : Array KeyRun) o => ranges ++ (r.bandRun? i o).toList)
      ranges).toList = ranges.toList ++ offsets.filterMap (r.bandRun? i) := by
  have lists : offsets.foldl (fun ranges o => ranges ++ (r.bandRun? i o).toList) ranges.toList =
      (offsets.foldl (fun (ranges : Array KeyRun) o => ranges ++ (r.bandRun? i o).toList)
        ranges).toList :=
    List.foldl_hom Array.toList fun _ _ => Array.toList_appendList.symm
  rw [← lists, List.foldl_append_eq_append, ← List.flatMap_def,
    ← List.filterMap_eq_flatMap_toList]

theorem ranges?_eq (h : r.Sound) (row : r.HasRow i) (buffer : Array KeyRun) :
    r.ranges? i buffer = some (r.ranges i).toArray := by
  have start := Guarded.minus_eq (holds_windowFirst h row)
  have final := Guarded.minus_eq (a := r.length) (b := 1) (holds_length_sub_one h)
  have cleared : (buffer.shrink 0).push (r.windowRun i) = #[r.windowRun i] := by simp
  have pushed := Guarded.foldlM_eq_some_of_forall
    (fun ranges o listed => addRange?_eq h row listed ranges)
    ((buffer.shrink 0).push (r.windowRun i))
  simp only [ranges?, start, Guarded.index_max, Guarded.index_eq row.nonneg, final,
    Option.bind_eq_bind, Option.bind_some]
  refine pushed.trans (congrArg some (Array.ext' ?_))
  rw [toList_foldl_bandRun?, cleared, ranges]
  rfl

/-- Loading a row wraps no index and stays inside the buffer. -/
theorem load?_eq (h : r.Sound) (row : r.HasRow i) (room : r.capacity < 2 ^ 64)
    (buffer : Array KeyRun) : r.load? i buffer = some (r.load i buffer) := by
  have few : (r.ranges i).toArray.size < 2 ^ 64 := by
    refine Nat.lt_of_le_of_lt ?_ room
    simpa [ranges, capacity] using List.length_filterMap_le (r.bandRun? i) r.offsets
  rw [load?, ranges?_eq h row, Option.bind_eq_bind, Option.bind_some,
    KeyRun.union?_eq few (proper_of_mem_ranges h row)]
  exact congrArg some (Array.ext' (r.load_toList i buffer).symm)

end RowRule
end AttentionMask
