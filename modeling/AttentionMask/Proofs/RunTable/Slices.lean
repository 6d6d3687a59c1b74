import AttentionMask.Proofs.RunTable.Assembly

/-! The slices that the rows take up in the flat list of runs. Laid end to end they are its
positions, each once. The second pass writes in the slice of each row the runs of that row, so its
writes go to every position once, and may come in any order. -/

namespace AttentionMask.RunTable

/-- The positions of the runs of row `i`. -/
def slice (t : RunTable) (i : UInt64) : List Nat :=
  (List.range (t.rowSize i).toNat).map fun k => (t.start i).toNat + k

namespace Laid

variable {t : RunTable}

theorem toNat_rowSize (h : t.Laid) {i : UInt64} (row : i < t.length) :
    (t.rowSize i).toNat = (t.start (i + 1)).toNat - (t.start i).toNat :=
  UInt64.toNat_sub_of_le _ _ (h.start_le i row)

theorem size_row (h : t.Laid) {i : UInt64} (row : i < t.length) :
    (t.row i).size = (t.rowSize i).toNat := by
  have top := t.length.toNat_lt
  have inside := UInt64.lt_iff_toNat_lt.mp row
  have next := Words.toNat_add_one (a := i) (by omega)
  have stop := h.start_le_size (k := (i + 1).toNat) (by omega)
  rw [UInt64.ofNat_toNat] at stop
  rw [h.row_eq row, Array.size_extract, h.toNat_rowSize row, Nat.min_eq_left stop]

theorem flatMap_slice_range (h : t.Laid) {m : Nat} (inside : m ≤ t.length.toNat) :
    (List.range m).flatMap (fun k => t.slice (UInt64.ofNat k)) =
      List.range (t.start (UInt64.ofNat m)).toNat := by
  induction m with
  | zero =>
      have first : t.start (UInt64.ofNat 0) = 0 := h.start_zero
      rw [first]
      rfl
  | succ m ih =>
      have row : UInt64.ofNat m < t.length := Words.ofNat_lt inside
      have next : UInt64.ofNat m + 1 = UInt64.ofNat (m + 1) := (UInt64.ofNat_add m 1).symm
      have size := h.toNat_rowSize row
      have order := h.start_mono (show m ≤ m + 1 from Nat.le_succ m) inside
      rw [next] at size
      have sum : (t.start (UInt64.ofNat (m + 1))).toNat =
          (t.start (UInt64.ofNat m)).toNat + (t.rowSize (UInt64.ofNat m)).toNat := by omega
      rw [List.range_succ, List.flatMap_append, ih (by omega), List.flatMap_singleton, slice, sum,
        List.range_add]

/-- The slices, one after another, are the positions of the flat list. -/
theorem flatMap_slice (h : t.Laid) :
    (Walk.below t.length).flatMap t.slice = List.range t.runs.size := by
  have all := h.flatMap_slice_range (Nat.le_refl _)
  rwa [UInt64.ofNat_toNat, h.start_length, ← List.flatMap_map] at all

theorem disjoint_slices (h : t.Laid) :
    ((Walk.below t.length).map t.slice).Pairwise List.Disjoint := by
  have once : ((Walk.below t.length).map t.slice).flatten.Nodup := by
    rw [← List.flatMap_def, h.flatMap_slice]
    exact List.nodup_range
  exact (List.nodup_flatten.mp once).2

end Laid

section

variable {workers : Nat} {rule : RowRule}

/-- Each pass takes every row of the rule once. -/
structure Schedule.Exact (schedule : Schedule workers) (rule : RowRule) : Prop where
  counting : (schedule.counting.map Task.row).Perm rule.rows
  placing : (schedule.placing.map Task.row).Perm rule.rows

theorem Schedule.Exact.complete {schedule : Schedule workers} (h : schedule.Exact rule) :
    schedule.Complete rule :=
  ⟨fun _ => h.counting.mem_iff, fun _ => h.placing.mem_iff⟩

/-- The second pass with its writes noted down: each position and the run written there. -/
def placements (rule : RowRule) (starts : Array UInt64) (tasks : List (Task workers))
    (buffers : Buffers workers) : List (Nat × KeyRun) :=
  (tasks.foldl (perform rule fun i buffer writes =>
    writes ++ (slots starts i buffer).zip buffer.toList) (buffers, [])).2

theorem placements_eq (starts : Array UInt64) (tasks : List (Task workers))
    (buffers : Buffers workers) :
    placements rule starts tasks buffers =
      (tasks.map Task.row).flatMap (runEntries rule starts) := by
  rw [placements, foldl_perform]
  exact (List.flatMap_eq_foldl ..).symm

/-- The writes noted down are the ones that the pass carries out. -/
theorem apply_placements (starts : Array UInt64) (tasks : List (Task workers))
    (buffers : Buffers workers) (runs : Array KeyRun) :
    Writes.apply runs (placements rule starts tasks buffers) =
      (tasks.foldl (perform rule (place starts)) (buffers, runs)).2 := by
  rw [placements_eq, foldl_place]

theorem map_fst_runEntries (starts : Array UInt64) (i : Int64) :
    (runEntries rule starts i).map Prod.fst = slots starts i.toUInt64 (rule.runs i).toArray := by
  rw [runEntries, List.map_fst_zip]
  simp [slots]

/-- A loaded row goes into the slice of its row. -/
theorem slots_eq_slice (h : rule.Sound) (room : rule.runRows.flatten.length < 2 ^ 64) {i : Int64}
    (row : rule.HasRow i) :
    slots (ofRows rule.runRows).starts i.toUInt64 (rule.runs i).toArray =
      (ofRows rule.runRows).slice i.toUInt64 := by
  have bound := h.length_le
  have count := RowRule.length_runRows h
  have inside := row.lt_length_runRows h
  have laid : (ofRows rule.runRows).Laid := laid_ofRows (by omega) room
  have below : i.toUInt64 < (ofRows rule.runRows).length := by
    rw [UInt64.lt_iff_toNat_lt, length_ofRows, row.toNat_eq, Words.toNat_ofNat (by omega)]
    exact inside
  have size : ((ofRows rule.runRows).rowSize i.toUInt64).toNat = (rule.runs i).length := by
    have own := row_ofRows (i := i.toUInt64) (by omega) room (by rw [row.toNat_eq]; exact inside)
    rw [← laid.size_row below, ← Array.length_toList, own]
    simp only [row.toNat_eq, RowRule.getElem_runRows h row]
  rw [slots, slice, size, List.size_toArray]
  rfl

theorem map_rows_toUInt64 (h : rule.Sound) :
    rule.rows.map Int64.toUInt64 = Walk.below rule.length.toUInt64 := by
  rw [RowRule.rows_eq h, Walk.below, RowRule.toNat_length h, List.map_map]
  rfl

/-- In whatever order the rows come, every position of the flat list is written once. -/
theorem placements_perm_range (h : rule.Sound) (room : rule.runRows.flatten.length < 2 ^ 64)
    {tasks : List (Task workers)} (once : (tasks.map Task.row).Perm rule.rows)
    (buffers : Buffers workers) :
    ((placements rule (ofRows rule.runRows).starts tasks buffers).map Prod.fst).Perm
      (List.range (ofRows rule.runRows).runs.size) := by
  have bound := h.length_le
  have count := RowRule.length_runRows h
  have laid : (ofRows rule.runRows).Laid := laid_ofRows (by omega) room
  have length : (ofRows rule.runRows).length = rule.length.toUInt64 := by
    rw [length_ofRows, count, ← RowRule.toNat_length h, UInt64.ofNat_toNat]
  have slices : (tasks.map Task.row).flatMap (fun i =>
      (runEntries rule (ofRows rule.runRows).starts i).map Prod.fst) =
        (tasks.map Task.row).flatMap fun i => (ofRows rule.runRows).slice i.toUInt64 := by
    refine List.flatMap_congr fun i listed => ?_
    have row := (RowRule.mem_rows h).mp (once.mem_iff.mp listed)
    rw [map_fst_runEntries, slots_eq_slice h room row]
  have whole : rule.rows.flatMap (fun i => (ofRows rule.runRows).slice i.toUInt64) =
      List.range (ofRows rule.runRows).runs.size := by
    rw [← laid.flatMap_slice, length, ← map_rows_toUInt64 h, List.flatMap_map]
  rw [placements_eq, List.map_flatMap, slices, ← whole]
  exact once.flatMap_right _

/-- The writes of the second pass leave the runs of the table also when those of different
rows are interleaved. -/
theorem apply_of_perm_placements (h : rule.Sound) (room : rule.runRows.flatten.length < 2 ^ 64)
    {tasks : List (Task workers)} (once : (tasks.map Task.row).Perm rule.rows)
    (buffers : Buffers workers) {writes : List (Nat × KeyRun)}
    (interleaved : writes.Perm (placements rule (ofRows rule.runRows).starts tasks buffers))
    {blank : Array KeyRun} (size : blank.size = (ofRows rule.runRows).runs.size) :
    Writes.apply blank writes = (ofRows rule.runRows).runs := by
  have places := placements_perm_range h room once buffers
  have single := List.inj_on_of_nodup_map (places.nodup_iff.mpr List.nodup_range)
  have agree (place : Nat) (run run' : KeyRun)
      (listed : (place, run) ∈ placements rule (ofRows rule.runRows).starts tasks buffers)
      (listed' : (place, run') ∈ placements rule (ofRows rule.runRows).starts tasks buffers) :
      run = run' :=
    congrArg Prod.snd (single listed listed' rfl)
  have all (i : Int64) : i ∈ tasks.map Task.row ↔ i ∈ rule.rows := once.mem_iff
  rw [Writes.apply_congr agree (fun entry => interleaved.mem_iff), placements_eq, runs_ofRows]
  rw [runs_ofRows, List.size_toArray] at size
  exact apply_runEntries h all room size

end
end AttentionMask.RunTable
