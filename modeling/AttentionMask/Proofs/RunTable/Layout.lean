import AttentionMask.RunTable
import AttentionMask.Proofs.Words
import Mathlib.Data.List.Infix

/-! Tables laid out row after row. The starts of such a table are the running sums of its row
lengths, so its rows determine it, and closing rows one by one makes every such table. -/

namespace AttentionMask.RunTable

/-- The starts are one more than the rows; they go from zero to the number of runs
and never fall. -/
structure Laid (t : RunTable) : Prop where
  size_starts : t.starts.size = t.length.toNat + 1
  start_zero : t.start 0 = 0
  start_le : ∀ i < t.length, t.start i ≤ t.start (i + 1)
  start_length : (t.start t.length).toNat = t.runs.size

theorem laid_iff {t : RunTable} : t.Laid ↔ t.starts.size = t.length.toNat + 1 ∧ t.start 0 = 0 ∧
    (Walk.below t.length).all (fun i => t.start i ≤ t.start (i + 1)) = true ∧
      (t.start t.length).toNat = t.runs.size := by
  simp only [List.all_eq_true, Walk.mem_below, decide_eq_true_eq]
  exact ⟨fun h => ⟨h.size_starts, h.start_zero, h.start_le, h.start_length⟩,
    fun ⟨size, zero, order, last⟩ => ⟨size, zero, order, last⟩⟩

instance (t : RunTable) : Decidable t.Laid :=
  decidable_of_iff' _ laid_iff

def ofRows (rows : List (List KeyRun)) : RunTable :=
  rows.foldl addRow ⟨#[0], #[]⟩

/-- The number of runs in the first `k` rows. -/
def runsBefore (rows : List (List KeyRun)) (k : Nat) : Nat :=
  (rows.take k).flatten.length

@[simp] theorem runsBefore_zero (rows : List (List KeyRun)) : runsBefore rows 0 = 0 :=
  rfl

theorem runsBefore_succ (rows : List (List KeyRun)) {k : Nat} (h : k < rows.length) :
    runsBefore rows (k + 1) = runsBefore rows k + rows[k].length := by
  rw [runsBefore, List.take_succ_eq_append_getElem h, List.flatten_concat, List.length_append]
  rfl

theorem runsBefore_length (rows : List (List KeyRun)) :
    runsBefore rows rows.length = rows.flatten.length := by
  rw [runsBefore, List.take_length]

theorem runsBefore_append (rows after : List (List KeyRun)) {k : Nat} (h : k ≤ rows.length) :
    runsBefore (rows ++ after) k = runsBefore rows k := by
  rw [runsBefore, List.take_append_of_le_length h]
  rfl

theorem runsBefore_le (rows : List (List KeyRun)) (k : Nat) :
    runsBefore rows k ≤ rows.flatten.length := by
  have split := congrArg (fun rows => rows.flatten.length) (List.take_append_drop k rows)
  rw [List.flatten_append, List.length_append] at split
  exact Nat.le.intro split

theorem runsBefore_cons (row : List KeyRun) (rows : List (List KeyRun)) (k : Nat) :
    runsBefore (row :: rows) (k + 1) = row.length + runsBefore rows k := by
  rw [runsBefore, List.take_succ_cons, List.flatten_cons, List.length_append]
  rfl

theorem runsBefore_mono (rows : List (List KeyRun)) {a b : Nat} (order : a ≤ b) :
    runsBefore rows a ≤ runsBefore rows b := by
  have shorter := runsBefore_le (rows.take b) a
  rwa [runsBefore, List.take_take, Nat.min_eq_left order] at shorter

theorem exists_runsBefore {rows : List (List KeyRun)} {slot : Nat}
    (inside : slot < rows.flatten.length) :
    ∃ a, ∃ h : a < rows.length, ∃ k < rows[a].length, slot = runsBefore rows a + k := by
  induction rows generalizing slot with
  | nil => cases inside
  | cons row rows ih =>
      rw [List.flatten_cons, List.length_append] at inside
      by_cases own : slot < row.length
      · exact ⟨0, Nat.zero_lt_succ _, slot, own, (Nat.zero_add slot).symm⟩
      · have later : slot - row.length < rows.flatten.length := by omega
        obtain ⟨a, h, k, short, place⟩ := ih later
        exact ⟨a + 1, Nat.succ_lt_succ h, k, short, by rw [runsBefore_cons]; omega⟩

theorem slot_unique {rows : List (List KeyRun)} {a b k l : Nat} (ha : a < rows.length)
    (hb : b < rows.length) (hk : k < rows[a].length) (hl : l < rows[b].length)
    (same : runsBefore rows a + k = runsBefore rows b + l) : a = b ∧ k = l := by
  have stopA := runsBefore_succ rows ha
  have stopB := runsBefore_succ rows hb
  rcases Nat.lt_trichotomy a b with less | rfl | more
  · have order := runsBefore_mono rows (show a + 1 ≤ b from less)
    omega
  · exact ⟨rfl, Nat.add_left_cancel same⟩
  · have order := runsBefore_mono rows (show b + 1 ≤ a from more)
    omega

theorem getElem?_flatten {rows : List (List KeyRun)} {a k : Nat} (ha : a < rows.length)
    (hk : k < rows[a].length) : rows.flatten[runsBefore rows a + k]? = some rows[a][k] := by
  induction rows generalizing a with
  | nil => cases ha
  | cons row rows ih =>
      cases a with
      | zero =>
          rw [List.getElem_cons_zero] at hk
          rw [runsBefore_zero, Nat.zero_add, List.flatten_cons, List.getElem?_append_left hk]
          exact List.getElem?_eq_getElem hk
      | succ a =>
          rw [runsBefore_cons, Nat.add_assoc, List.flatten_cons,
            List.getElem?_append_right (Nat.le_add_right _ _), Nat.add_sub_cancel_left]
          exact ih (Nat.lt_of_succ_lt_succ ha) hk

theorem append_toList (before after : Array KeyRun) : before ++ after.toList = before ++ after :=
  Array.ext' (by simp)

theorem ofRows_concat (rows : List (List KeyRun)) (row : List KeyRun) :
    ofRows (rows ++ [row]) = (ofRows rows).addRow row :=
  List.foldl_append

theorem runs_ofRows (rows : List (List KeyRun)) : (ofRows rows).runs = rows.flatten.toArray := by
  induction rows using List.reverseRecOn with
  | nil => rfl
  | append_singleton rows row ih =>
      rw [ofRows_concat, addRow, ih]
      simp

theorem size_starts_ofRows (rows : List (List KeyRun)) :
    (ofRows rows).starts.size = rows.length + 1 := by
  induction rows using List.reverseRecOn with
  | nil => rfl
  | append_singleton rows row ih =>
      rw [ofRows_concat, addRow, Array.size_push, ih, List.length_append, List.length_singleton]

theorem starts_ofRows (rows : List (List KeyRun)) {k : Nat} (h : k ≤ rows.length) :
    (ofRows rows).starts[k]? = some (UInt64.ofNat (runsBefore rows k)) := by
  induction rows using List.reverseRecOn with
  | nil =>
      rw [Nat.le_zero.mp h]
      rfl
  | append_singleton rows row ih =>
      have size := size_starts_ofRows rows
      rw [List.length_append, List.length_singleton] at h
      rw [ofRows_concat, addRow]
      by_cases last : k = rows.length + 1
      · have total : runsBefore (rows ++ [row]) k = (rows ++ [row]).flatten.length := by
          rw [last, ← runsBefore_length, List.length_append, List.length_singleton]
        rw [total, last, ← size, Array.getElem?_push_size, runs_ofRows]
        simp
      · have inside : k ≤ rows.length := by omega
        rw [Array.getElem?_push_lt (by omega), ← Array.getElem?_eq_getElem, ih inside,
          runsBefore_append rows [row] inside]

theorem length_ofRows (rows : List (List KeyRun)) :
    (ofRows rows).length = UInt64.ofNat rows.length := by
  rw [length, size_starts_ofRows, UInt64.ofNat_add]
  exact UInt64.add_sub_cancel _ 1

theorem start_ofRows (rows : List (List KeyRun)) {i : UInt64} (h : i.toNat ≤ rows.length) :
    (ofRows rows).start i = UInt64.ofNat (runsBefore rows i.toNat) := by
  rw [start, Array.getD_eq_getD_getElem?, starts_ofRows rows h, Option.getD_some]

section

variable {rows : List (List KeyRun)} (short : rows.length + 1 < 2 ^ 64)
  (room : rows.flatten.length < 2 ^ 64)
include room

theorem toNat_start_ofRows {i : UInt64} (h : i.toNat ≤ rows.length) :
    ((ofRows rows).start i).toNat = runsBefore rows i.toNat := by
  rw [start_ofRows rows h]
  exact Words.toNat_ofNat (Nat.lt_of_le_of_lt (runsBefore_le rows i.toNat) room)

include short

theorem laid_ofRows : (ofRows rows).Laid := by
  have count : (ofRows rows).length.toNat = rows.length := by
    rw [length_ofRows]
    exact Words.toNat_ofNat (by omega)
  refine ⟨?_, ?_, fun i inside => ?_, ?_⟩
  · rw [size_starts_ofRows, count]
  · rw [start_ofRows rows (Nat.zero_le _)]
    rfl
  · rw [UInt64.lt_iff_toNat_lt, count] at inside
    have next := Words.toNat_add_one (a := i) (by omega)
    rw [UInt64.le_iff_toNat_le, toNat_start_ofRows room (by omega),
      toNat_start_ofRows room (by omega), next, runsBefore_succ rows inside]
    exact Nat.le_add_right _ _
  · rw [toNat_start_ofRows room (by omega), count, runsBefore_length, runs_ofRows,
      List.size_toArray]

theorem row_ofRows {i : UInt64} (h : i.toNat < rows.length) :
    ((ofRows rows).row i).toList = rows[i.toNat] := by
  have next := Words.toNat_add_one (a := i) (by omega)
  have first := toNat_start_ofRows room (Nat.le_of_lt h)
  have stop := toNat_start_ofRows (i := i + 1) room (by omega)
  have size : ((ofRows rows).rowSize i).toNat = rows[i.toNat].length := by
    rw [next, runsBefore_succ rows h] at stop
    rw [rowSize, UInt64.toNat_sub_of_le _ _ (UInt64.le_iff_toNat_le.mpr (by omega)), stop, first]
    omega
  have initial : rows.flatten.take (runsBefore rows (i.toNat + 1)) =
      (rows.take i.toNat).flatten ++ rows[i.toNat] := by
    rw [← List.flatten_concat, ← List.take_succ_eq_append_getElem h]
    exact (List.prefix_iff_eq_take.mp (List.take_prefix _ rows).flatten).symm
  rw [row, Array.toList_extract, runs_ofRows, first, size, ← runsBefore_succ rows h,
    List.extract_eq_take_drop, ← List.drop_take, initial, runsBefore, List.drop_left]

end

def rows (t : RunTable) : List (List KeyRun) :=
  (Walk.below t.length).map fun i => (t.row i).toList

theorem getElem_starts {t : RunTable} {k : Nat} (inside : k < t.starts.size) (short : k < 2 ^ 64) :
    t.starts[k] = t.start (UInt64.ofNat k) := by
  rw [start, Words.toNat_ofNat short, Array.getD_eq_getD_getElem?,
    Array.getElem?_eq_getElem inside, Option.getD_some]

namespace Laid

variable {t : RunTable}

theorem start_mono (h : t.Laid) {a b : Nat} (order : a ≤ b) (inside : b ≤ t.length.toNat) :
    (t.start (UInt64.ofNat a)).toNat ≤ (t.start (UInt64.ofNat b)).toNat := by
  have top := t.length.toNat_lt
  induction b with
  | zero => rw [Nat.le_zero.mp order]
  | succ b ih =>
      rcases Nat.lt_or_eq_of_le order with less | rfl
      · have place := Words.toNat_ofNat (k := b) (by omega)
        have step := h.start_le (UInt64.ofNat b) (UInt64.lt_iff_toNat_lt.mpr (by omega))
        rw [UInt64.le_iff_toNat_le, ← UInt64.ofNat_one, ← UInt64.ofNat_add] at step
        exact Nat.le_trans (ih (Nat.le_of_lt_succ less) (by omega)) step
      · exact Nat.le_refl _

theorem start_le_size (h : t.Laid) {k : Nat} (inside : k ≤ t.length.toNat) :
    (t.start (UInt64.ofNat k)).toNat ≤ t.runs.size := by
  have last := h.start_mono inside (Nat.le_refl _)
  rwa [UInt64.ofNat_toNat, h.start_length] at last

theorem row_eq (h : t.Laid) {i : UInt64} (inside : i < t.length) :
    t.row i = t.runs.extract (t.start i).toNat (t.start (i + 1)).toNat := by
  have step := h.start_le i inside
  have size : (t.rowSize i).toNat = (t.start (i + 1)).toNat - (t.start i).toNat :=
    UInt64.toNat_sub_of_le _ _ step
  rw [UInt64.le_iff_toNat_le] at step
  rw [row, size, Nat.add_sub_cancel' step]

theorem ofRows_range (h : t.Laid) {m : Nat} (inside : m ≤ t.length.toNat) :
    ofRows ((List.range m).map fun k => (t.row (UInt64.ofNat k)).toList) =
      ⟨t.starts.extract 0 (m + 1), t.runs.extract 0 (t.start (UInt64.ofNat m)).toNat⟩ := by
  have size := h.size_starts
  have top := t.length.toNat_lt
  -- Induction on the rows closed so far: each brings one start and the runs up to it.
  induction m with
  | zero =>
      have first : t.starts[0] = 0 := (getElem_starts (by omega) (by omega)).trans h.start_zero
      have empty : t.start (UInt64.ofNat 0) = 0 := h.start_zero
      rw [Array.extract_succ_right (by omega) (by omega), first, empty]
      simp [ofRows]
  | succ m ih =>
      have place := Words.toNat_ofNat (k := m) (by omega)
      have bound := h.start_le_size inside
      have order := h.start_mono (Nat.le_succ m) inside
      have next : UInt64.ofNat m + 1 = UInt64.ofNat (m + 1) := (UInt64.ofNat_add m 1).symm
      have row := h.row_eq (i := UInt64.ofNat m) (UInt64.lt_iff_toNat_lt.mpr (by omega))
      have runs : t.runs.extract 0 (t.start (UInt64.ofNat m)).toNat ++
          (t.row (UInt64.ofNat m)).toList =
            t.runs.extract 0 (t.start (UInt64.ofNat (m + 1))).toNat := by
        rw [row, next, append_toList, Array.extract_append_extract,
          Nat.min_eq_left (Nat.zero_le _), Nat.max_eq_right order]
      have last : t.starts[m + 1] = t.start (UInt64.ofNat (m + 1)) :=
        getElem_starts (by omega) (by omega)
      rw [List.range_succ, List.map_append, List.map_singleton, ofRows_concat, ih (by omega),
        addRow, runs, Array.size_extract, Nat.min_eq_left bound, Nat.sub_zero, UInt64.ofNat_toNat,
        Array.extract_succ_right (j := m + 1) (by omega) (by omega), last]

theorem ofRows_rows (h : t.Laid) : ofRows t.rows = t := by
  have all := h.ofRows_range (Nat.le_refl _)
  rw [UInt64.ofNat_toNat, h.start_length, ← h.size_starts, Array.extract_size,
    Array.extract_size] at all
  rw [rows, Walk.below, List.map_map]
  exact all

/-- The rows of a laid out table, one after another, are all its runs. -/
theorem toList_runs (h : t.Laid) : t.runs.toList = t.rows.flatten := by
  rw [← congrArg RunTable.runs h.ofRows_rows, runs_ofRows]

theorem ext {t' : RunTable} (h : t.Laid) (h' : t'.Laid) (length : t.length = t'.length)
    (same : ∀ i < t.length, (t.row i).toList = (t'.row i).toList) : t = t' := by
  have rows : t.rows = t'.rows := by
    rw [RunTable.rows, RunTable.rows, ← length]
    exact List.map_congr_left fun i listed => same i (Walk.mem_below.mp listed)
  rw [← h.ofRows_rows, rows, h'.ofRows_rows]

end Laid
end AttentionMask.RunTable
