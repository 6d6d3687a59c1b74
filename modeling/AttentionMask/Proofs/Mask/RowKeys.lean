import AttentionMask.Proofs.Mask.Image

/-! The keys of a row are the permitted ones in ascending order, in either form: the set bytes of a
row from left to right, or the keys of its runs one run after another. -/

namespace AttentionMask

open KeyRun

variable {R : Nat → Nat → Prop}

namespace Walk

theorem pairwise_below (n : UInt64) : (below n).Pairwise (· < ·) := by
  have top := n.toNat_lt
  refine List.pairwise_map.mpr (List.Pairwise.imp_of_mem ?_ List.pairwise_lt_range)
  intro a b ha hb less
  rw [List.mem_range] at ha hb
  rw [UInt64.lt_iff_toNat_lt, Words.toNat_ofNat (by omega), Words.toNat_ofNat (by omega)]
  exact less

theorem pairwise_keys (first last : UInt64) : (keys first last).Pairwise (· < ·) := by
  have top := last.toNat_lt
  have step (k : Nat) (inside : k < last.toNat + 1 - first.toNat) :
      (first + UInt64.ofNat k).toNat = first.toNat + k := by
    have value := Words.toNat_ofNat (k := k) (by omega)
    rw [Words.toNat_add (by omega), value]
  refine List.pairwise_map.mpr (List.Pairwise.imp_of_mem ?_ List.pairwise_lt_range)
  intro a b ha hb less
  rw [List.mem_range] at ha hb
  rw [UInt64.lt_iff_toNat_lt, step a ha, step b hb]
  omega

end Walk

theorem KeyRun.Canonical.pairwise_keys {runs : List KeyRun} (h : Canonical runs) :
    (runs.flatMap KeyRun.keys).Pairwise (· < ·) := by
  refine List.pairwise_flatMap.mpr ⟨fun run _ => Walk.pairwise_keys run.first run.last, ?_⟩
  refine h.separated.imp fun gap key held key' held' => ?_
  rw [KeyRun.mem_keys, mem_iff_toNat] at held held'
  rw [UInt64.lt_iff_toNat_lt]
  omega

theorem ByteRow.keys_map_range (n : Nat) (byte : Nat → UInt8) :
    keys ((List.range n).map byte).toArray =
      ((List.range n).filter fun k => byte k != 0).map UInt64.ofNat := by
  have indexed : ((List.range n).map byte).zipIdx = (List.range n).map fun k => (byte k, k) :=
    List.ext_getElem (by simp) fun k _ _ => by simp
  rw [keys, indexed, List.filter_map, List.map_map]
  rfl

namespace Mask

variable {m : Mask}

theorem Represents.rowKeys_eq_filter (h : m.Represents R) {i : UInt64} (row : i < m.length) :
    m.rowKeys i = (Walk.below m.length).filter (m.allows i) := by
  unfold rowKeys
  rw [if_neg (UInt64.not_le.mpr row)]
  cases m with
  | grid g =>
      have bytes : g.row i = ((List.range g.length.toNat).map fun k =>
          if g.allows i (UInt64.ofNat k) then (1 : UInt8) else 0).toArray := by
        rw [Grid.Represents.row_eq h row, imageRow, Walk.below, List.map_map]
        rfl
      have set (k : Nat) : ((if g.allows i (UInt64.ofNat k) then (1 : UInt8) else 0) != 0) =
          g.allows i (UInt64.ofNat k) := by
        cases g.allows i (UInt64.ofNat k) <;> rfl
      change ByteRow.keys (g.row i) = (Walk.below g.length).filter (g.allows i)
      rw [bytes, ByteRow.keys_map_range, Walk.below, List.filter_map]
      simp only [set]
      rfl
  | runs t =>
      have table : t.Represents R := h
      change (t.row i).toList.flatMap KeyRun.keys = (Walk.below t.length).filter (t.allows i)
      have ascending := (table.canonical i row).pairwise_keys
      have ascending' := (Walk.pairwise_below t.length).filter (t.allows i)
      refine List.Perm.eq_of_pairwise (fun a b _ _ less more => ?_) ascending ascending' ?_
      · exact absurd less (UInt64.lt_asymm more)
      · refine (List.perm_ext_iff_of_nodup (ascending.imp UInt64.ne_of_lt)
          (ascending'.imp UInt64.ne_of_lt)).mpr fun key => ?_
        rw [ByteRow.mem_flatMap_keys, congrFun (table.covers_eq_allows row) key, List.mem_filter,
          Walk.mem_below, table.allows_iff]
        exact ⟨fun held => ⟨held.2.1, held⟩, fun held => held.2⟩

end Mask
end AttentionMask
