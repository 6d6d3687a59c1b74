import AttentionMask.Proofs.Grid.Relation
import AttentionMask.Proofs.RowRule.Marks
import AttentionMask.Proofs.RunTable.Build

/-! Painted matrices. Rows painted in any order, also more than once, leave ones on the pairs that
the rule sees; parameters accepted for fewer than `2 ^ 32` positions build such a matrix. -/

namespace AttentionMask

namespace RowRule

def rowPlaces (r : RowRule) (i : Int64) : List Nat :=
  (r.marks i).map fun j =>
    (i.toUInt64 * Storage.stride r.length.toUInt64 + j.toUInt64).toNat

theorem paint_eq_apply (r : RowRule) (i : Int64) (image : Array UInt8) :
    r.paint i (i.toUInt64 * Storage.stride r.length.toUInt64) image =
      Writes.apply image (Writes.ones (r.rowPlaces i)) :=
  r.paint_eq_writes i _ image

variable {r : RowRule} {i : Int64}

theorem mem_rowPlaces (h : r.Sound) (short : r.length.toUInt64.toNat < 2 ^ 32) (row : r.HasRow i)
    {slot : Nat} : slot ∈ r.rowPlaces i ↔ ∃ j < r.length.toUInt64.toNat, r.Sees i.toInt j ∧
      slot = i.toInt.toNat * (Storage.stride r.length.toUInt64).toNat + j := by
  have count := toNat_length h
  have wide := Storage.le_stride (n := r.length.toUInt64) (by omega)
  have place (j : Int64) (key : r.HasRow j) :
      (i.toUInt64 * Storage.stride r.length.toUInt64 + j.toUInt64).toNat =
        i.toInt.toNat * (Storage.stride r.length.toUInt64).toNat + j.toInt.toNat := by
    obtain ⟨low, high⟩ := row
    obtain ⟨low', high'⟩ := key
    have row' := Words.toNat_toUInt64 low
    have key' := Words.toNat_toUInt64 low'
    rw [Storage.toNat_cell short (by omega) (by omega), row', key']
  simp only [rowPlaces, List.mem_map, mem_marks h row]
  refine ⟨?_, ?_⟩
  · intro ⟨j, seen, same⟩
    have key : r.HasRow j := ⟨seen.1, seen.2.1⟩
    obtain ⟨low, high⟩ := id key
    have cast : ((j.toInt.toNat : Nat) : Int) = j.toInt := Int.toNat_of_nonneg low
    exact ⟨j.toInt.toNat, by omega, by rwa [cast], by rw [← same, place j key]⟩
  · intro ⟨j, inside, seen, same⟩
    obtain ⟨key, value⟩ := hasRow_ofNat h (k := j) (by omega)
    refine ⟨Int64.ofNat j, by rwa [value], ?_⟩
    rw [place _ key, value, Int.toNat_natCast, same]

end RowRule

namespace Grid

open RowRule

theorem bytes_painted (rule : RowRule) (order : List Int64) (total : UInt64) :
    (painted rule order total).bytes = Writes.apply (Array.replicate total.toNat 0)
      (Writes.ones (order.flatMap rule.rowPlaces)) := by
  have paints : (fun image i =>
      rule.paint i (i.toUInt64 * Storage.stride rule.length.toUInt64) image) =
        fun image i => Writes.apply image (Writes.ones (rule.rowPlaces i)) := by
    funext image i
    exact rule.paint_eq_apply i image
  rw [painted, paints, Writes.foldl_apply, Writes.ones, List.map_flatMap]
  rfl

theorem represents_painted {rule : RowRule} {order : List Int64} {total : UInt64} (h : rule.Sound)
    (short : rule.length.toUInt64.toNat < 2 ^ 32) (all : ∀ i, i ∈ order ↔ i ∈ rule.rows)
    (size : total.toNat =
      rule.length.toUInt64.toNat * (Storage.stride rule.length.toUInt64).toNat) :
    (painted rule order total).Represents fun i j => rule.Sees i j := by
  have count := toNat_length h
  have made : painted rule order total = ⟨rule.length.toUInt64, Writes.apply
      (Array.replicate total.toNat 0) (Writes.ones (order.flatMap rule.rowPlaces))⟩ :=
    congrArg (Grid.mk _) (bytes_painted rule order total)
  rw [made]
  refine represents_ones short size fun slot => ?_
  simp only [List.mem_flatMap, all, mem_rows h]
  refine ⟨?_, ?_⟩
  · intro ⟨i, row, member⟩
    obtain ⟨j, inside, seen, same⟩ := (mem_rowPlaces h short row).mp member
    obtain ⟨low, high⟩ := row
    have cast : ((i.toInt.toNat : Nat) : Int) = i.toInt := Int.toNat_of_nonneg low
    exact ⟨i.toInt.toNat, by omega, j, inside, by rwa [cast], same⟩
  · intro ⟨i, inside, j, inside', seen, same⟩
    obtain ⟨row, value⟩ := hasRow_ofNat h (k := i) (by omega)
    refine ⟨Int64.ofNat i, row, (mem_rowPlaces h short row).mpr ⟨j, inside', ?_⟩⟩
    rw [value, Int.toNat_natCast]
    exact ⟨seen, same⟩

variable {p : Pattern}

theorem exists_build (ok : p.Accepted) (short : p.length.toInt < 2 ^ 32) :
    ∃ g, build p = .ok g ∧ g.length = p.length.toUInt64 ∧ g.Represents p.Permits := by
  have count := ok.toNat_length
  obtain ⟨total, done, size⟩ := Storage.imageBytes_of_short (n := p.length.toUInt64) (by omega)
  have painted := represents_painted ok.sound (by change p.length.toUInt64.toNat < 2 ^ 32; omega)
    (fun i => Iff.rfl) size
  refine ⟨_, by rw [build, Pattern.check_eq_ok_iff.mpr ok, done], rfl, painted.framed, ?_, ?_⟩
  · intro i row j key permitted
    exact painted.one i row j key ((Pattern.rule_sees_iff ok permitted.1).mpr permitted)
  · intro i row j key denied
    change i < p.length.toUInt64.toNat at row
    exact painted.zero i row j key fun seen =>
      denied ((Pattern.rule_sees_iff ok (by omega)).mp seen)

theorem accepted_of_build {g : Grid} (done : build p = .ok g) :
    p.Accepted ∧ p.length.toInt < 2 ^ 32 := by
  unfold build at done
  split at done
  · cases done
  · rename_i accepted
    have ok := Pattern.check_eq_ok_iff.mp accepted
    have room := ok.toNat_length_le
    have count := ok.toNat_length
    split at done
    · cases done
    · rename_i total fit
      have short := Storage.short_of_imageBytes (by omega) fit
      exact ⟨ok, by omega⟩

end Grid
end AttentionMask
