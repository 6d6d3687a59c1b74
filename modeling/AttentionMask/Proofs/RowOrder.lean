import AttentionMask.Proofs.Grid.Build
import AttentionMask.Proofs.RunTable.Slices

/-! Builds do not depend on the order in which rows are worked on, nor on who works on which row
with what left in the buffer. A table gets the runs of each row in a slice of its own, a matrix the
keys of each row in a stretch of bytes of its own, and what a row writes depends on the rule and the
row only. -/

namespace AttentionMask

variable {p : Pattern}

namespace RunTable

/-- The table comes out of every order of the rows. Its slices tile the flat list of runs, and the
second pass fills the slice of a row with the runs of that row. What that pass does is the writes
noted down for it, and these go to every position once. -/
structure OrderFree (t : RunTable) (p : Pattern) : Prop where
  assembled : ∀ (workers : Nat) (schedule : Schedule workers) (buffers : Buffers workers),
    schedule.Exact p.rule → assemble p.rule schedule buffers = t
  noted : ∀ (workers : Nat) (tasks : List (Task workers)) (buffers : Buffers workers)
    (runs : Array KeyRun),
      (tasks.foldl (perform p.rule (place t.starts)) (buffers, runs)).2 =
        Writes.apply runs (placements p.rule t.starts tasks buffers)
  written_once : ∀ (workers : Nat) (schedule : Schedule workers) (buffers : Buffers workers),
    schedule.Exact p.rule →
      ((placements p.rule t.starts schedule.placing buffers).map Prod.fst).Perm
        (List.range t.runs.size)
  interleaved : ∀ (workers : Nat) (schedule : Schedule workers) (buffers : Buffers workers),
    schedule.Exact p.rule →
      ∀ writes, writes.Perm (placements p.rule t.starts schedule.placing buffers) →
        Writes.apply (Array.replicate t.runs.size ⟨0, 0⟩) writes = t.runs
  own_slice : ∀ i ∈ p.rule.rows, ∀ leftover,
    slots t.starts i.toUInt64 (p.rule.load i leftover) = t.slice i.toUInt64
  disjoint : ((Walk.below t.length).map t.slice).Pairwise List.Disjoint
  tiled : (Walk.below t.length).flatMap t.slice = List.range t.runs.size

theorem orderFree_runRows (ok : p.Accepted) (room : p.rule.runRows.flatten.length < 2 ^ 64) :
    (ofRows p.rule.runRows).OrderFree p := by
  have sound := ok.sound
  have bound := sound.length_le
  have count := RowRule.length_runRows sound
  have laid : (ofRows p.rule.runRows).Laid := laid_ofRows (by omega) room
  refine ⟨fun workers schedule buffers each => ?_,
    fun workers tasks buffers runs => (apply_placements _ tasks buffers runs).symm,
    fun workers schedule buffers each => ?_,
    fun workers schedule buffers each writes mixed => ?_, fun i listed leftover => ?_,
    laid.disjoint_slices, laid.flatMap_slice⟩
  · exact assemble_eq sound each.complete room buffers
  · exact placements_perm_range sound room each.placing buffers
  · exact apply_of_perm_placements sound room each.placing buffers mixed Array.size_replicate
  · rw [p.rule.load_eq, slots_eq_slice sound room ((RowRule.mem_rows sound).mp listed)]

end RunTable

/-- A painted row leaves all bytes outside its live stretch as they were. -/
theorem RowRule.getElem?_paint_of_outside {r : RowRule} {i : Int64} (h : r.Sound)
    (short : r.length.toUInt64.toNat < 2 ^ 32) (row : r.HasRow i) (image : Array UInt8) {slot : Nat}
    (outside : slot < i.toUInt64.toNat * (Storage.stride r.length.toUInt64).toNat ∨
      i.toUInt64.toNat * (Storage.stride r.length.toUInt64).toNat + r.length.toUInt64.toNat ≤
        slot) :
    (r.paint i (i.toUInt64 * Storage.stride r.length.toUInt64) image)[slot]? = image[slot]? := by
  rw [paint_eq_apply]
  refine Writes.getElem?_ones_of_notMem (fun listed => ?_) image
  obtain ⟨j, inside, _, place⟩ := (mem_rowPlaces h short row).mp listed
  rw [row.toNat_eq] at outside
  omega

namespace Grid

/-- The matrix comes out of every order of the rows: row `i` writes in the bytes from `i * stride`
to `i * stride + length` only, and no two rows share a byte. -/
structure OrderFree (g : Grid) (p : Pattern) : Prop where
  painted : ∀ order : List Int64, order.Perm p.rule.rows →
    ∀ total, Storage.imageBytes p.length.toUInt64 = .ok total → painted p.rule order total = g
  interleaved : ∀ order : List Int64, order.Perm p.rule.rows →
    ∀ places, places.Perm (order.flatMap p.rule.rowPlaces) →
      Writes.apply (Array.replicate g.bytes.size 0) (Writes.ones places) = g.bytes
  own_stretch : ∀ i ∈ p.rule.rows, ∀ (image : Array UInt8) (slot : Nat),
    slot < i.toUInt64.toNat * g.stride.toNat ∨
      i.toUInt64.toNat * g.stride.toNat + g.length.toNat ≤ slot →
    (p.rule.paint i (i.toUInt64 * g.stride) image)[slot]? = image[slot]?
  disjoint : ∀ i j : Nat, i < j → i * g.stride.toNat + g.length.toNat ≤ j * g.stride.toNat

theorem exists_orderFree (ok : p.Accepted) (short : p.length.toInt < 2 ^ 32) :
    ∃ g, build p = .ok g ∧ g.OrderFree p := by
  have sound := ok.sound
  have count := ok.toNat_length
  have few : p.length.toUInt64.toNat < 2 ^ 32 := by omega
  obtain ⟨total, done, size⟩ := Storage.imageBytes_of_short few
  have paints (order : List Int64) (once : order.Perm p.rule.rows) :
      Grid.painted p.rule order total = Grid.painted p.rule p.rule.rows total :=
    (represents_painted sound few (fun _ => once.mem_iff) size).unique
      (represents_painted sound few (fun _ => Iff.rfl) size) rfl
  refine ⟨Grid.painted p.rule p.rule.rows total, ?_, fun order once total' done' => ?_,
    fun order once places mixed => ?_, fun i listed image slot outside => ?_,
    fun i j less => Storage.stretch_le few less⟩
  · rw [build, Pattern.check_eq_ok_iff.mpr ok, done]
  · obtain rfl := Except.ok.inj (done.symm.trans done')
    exact paints order once
  · rw [← paints order once, bytes_painted, Writes.size_apply, Array.size_replicate]
    refine Writes.apply_congr (fun place v v' listed listed' => ?_) (fun entry => ?_) _
    · rw [(Writes.mem_ones.mp listed).2, (Writes.mem_ones.mp listed').2]
    · rw [Writes.mem_ones, Writes.mem_ones, mixed.mem_iff]
  · exact RowRule.getElem?_paint_of_outside sound few ((RowRule.mem_rows sound).mp listed) image
      outside

end Grid

/-- Both builders give one result for all orders of the rows, all sharings of them among workers and
all contents of the workers' buffers. -/
theorem builds_ignore_row_order (ok : p.check = .ok ()) :
    (Mask.Fits p → ∃ t, RunTable.build p = .ok t ∧ t.OrderFree p) ∧
      (p.length.toInt < 2 ^ 32 → ∃ g, Grid.build p = .ok g ∧ g.OrderFree p) := by
  have accepted := Pattern.check_eq_ok_iff.mp ok
  refine ⟨fun fits => ?_, Grid.exists_orderFree accepted⟩
  have room := accepted.room_of_fits fits
  exact ⟨_, RunTable.build_eq accepted room, RunTable.orderFree_runRows accepted room⟩

/-- Two workers, one with a run left over, take three rows in another order in each pass. -/
theorem builds_ignore_row_order_shared :
    (∃ t, RunTable.build ⟨3, 1, some [2, 1], 1, .unclamped⟩ = .ok t ∧
      @RunTable.assemble 2 (Pattern.rule ⟨3, 1, some [2, 1], 1, .unclamped⟩)
        ⟨[⟨2, 1⟩, ⟨0, 0⟩, ⟨1, 1⟩], [⟨1, 0⟩, ⟨2, 0⟩, ⟨0, 1⟩]⟩ #v[#[], #[⟨7, 9⟩]] = t) ∧
    ∃ g, Grid.build ⟨3, 1, some [2, 1], 1, .unclamped⟩ = .ok g ∧
      Grid.painted (Pattern.rule ⟨3, 1, some [2, 1], 1, .unclamped⟩) [2, 0, 1] 192 = g := by
  have both := builds_ignore_row_order (p := ⟨3, 1, some [2, 1], 1, .unclamped⟩) (by decide)
  obtain ⟨t, done, table⟩ := both.1 (by unfold Mask.Fits; decide)
  obtain ⟨g, done', image⟩ := both.2 (by decide)
  refine ⟨⟨t, done, table.assembled 2 _ _ ⟨?_, ?_⟩⟩, g, done', image.painted _ ?_ _ ?_⟩
  · decide
  · decide
  · decide
  · rfl

end AttentionMask
