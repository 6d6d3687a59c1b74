import AttentionMask.Proofs.KeyRun.Search
import AttentionMask.Proofs.RunTable.Layout
import Mathlib.Algebra.Order.BigOperators.Group.List

/-! What a table of runs says. A table represents a relation when it is laid out row after row and
each row is the normal form of the keys related to it; one relation has one such table. -/

namespace AttentionMask.RunTable

open KeyRun

variable {R : Nat → Nat → Prop}

structure Represents (t : RunTable) (R : Nat → Nat → Prop) : Prop where
  laid : t.Laid
  canonical : ∀ i < t.length, Canonical (t.row i).toList
  covers : ∀ i < t.length, ∀ j : UInt64,
    Covers (t.row i).toList j ↔ j < t.length ∧ R i.toNat j.toNat

theorem Represents.congr {t : RunTable} {R' : Nat → Nat → Prop} (h : t.Represents R)
    (same : ∀ i < t.length.toNat, ∀ j < t.length.toNat, (R i j ↔ R' i j)) : t.Represents R' := by
  refine ⟨h.laid, h.canonical, fun i inside j => (h.covers i inside j).trans ?_⟩
  refine and_congr_right fun key => same _ ?_ _ ?_
  · exact UInt64.lt_iff_toNat_lt.mp inside
  · exact UInt64.lt_iff_toNat_lt.mp key

theorem Represents.unique {t t' : RunTable} (h : t.Represents R) (h' : t'.Represents R)
    (length : t.length = t'.length) : t = t' := by
  refine h.laid.ext h'.laid length fun i inside => ?_
  have inside' : i < t'.length := length ▸ inside
  refine (h.canonical i inside).eq_of_covers (h'.canonical i inside') fun j => ?_
  rw [h.covers i inside, h'.covers i inside', length]

/-- Laid out rows in normal form whose runs stay inside the sequence. -/
structure Normal (t : RunTable) : Prop where
  laid : t.Laid
  canonical : ∀ i < t.length, Canonical (t.row i).toList
  inside : ∀ i < t.length, ∀ run ∈ (t.row i).toList, run.last < t.length

theorem normal_iff {t : RunTable} : t.Normal ↔ t.Laid ∧ (Walk.below t.length).all (fun i =>
    Canonical (t.row i).toList ∧ ∀ run ∈ (t.row i).toList, run.last < t.length) = true := by
  simp only [List.all_eq_true, Walk.mem_below, decide_eq_true_eq]
  exact ⟨fun h => ⟨h.laid, fun i row => ⟨h.canonical i row, h.inside i row⟩⟩,
    fun ⟨laid, rows⟩ => ⟨laid, fun i row => (rows i row).1, fun i row => (rows i row).2⟩⟩

instance (t : RunTable) : Decidable t.Normal :=
  decidable_of_iff' _ normal_iff

theorem Normal.represents {t : RunTable} (h : t.Normal) : t.Represents fun i j =>
    Covers (t.row (UInt64.ofNat i)).toList (UInt64.ofNat j) := by
  refine ⟨h.laid, h.canonical, fun i row j => ?_⟩
  rw [UInt64.ofNat_toNat, UInt64.ofNat_toNat]
  refine ⟨fun held => ⟨?_, held⟩, fun held => held.2⟩
  obtain ⟨run, listed, member⟩ := held
  exact UInt64.lt_of_le_of_lt member.2 (h.inside i row run listed)

theorem Represents.normal {t : RunTable} (h : t.Represents R) : t.Normal :=
  ⟨h.laid, h.canonical, fun i row run listed =>
    ((h.covers i row run.last).mp ((h.canonical i row).covers_last listed)).1⟩

/-- The search in a row answers for the relation, and for nothing outside the sequence. -/
theorem Represents.allows_iff {t : RunTable} (h : t.Represents R) {i j : UInt64} :
    t.allows i j = true ↔ i < t.length ∧ j < t.length ∧ R i.toNat j.toNat := by
  unfold allows
  by_cases outside : t.length ≤ i ∨ t.length ≤ j
  · simp only [outside, if_true, Bool.false_eq_true, false_iff]
    intro ⟨row, key, _⟩
    exact outside.elim (UInt64.not_le.mpr row) (UInt64.not_le.mpr key)
  · obtain ⟨row, key⟩ := not_or.mp outside
    rw [UInt64.not_le] at row key
    have normal := h.canonical i row
    rw [if_neg outside, found_iff_covers normal.startSorted normal.endSorted, h.covers i row]
    exact ⟨fun related => ⟨row, related⟩, fun related => related.2⟩

theorem Represents.covers_eq_allows {t : RunTable} (h : t.Represents R) {i : UInt64}
    (row : i < t.length) : Covers (t.row i).toList = fun j => t.allows i j = true := by
  funext j
  refine propext ((h.covers i row j).trans ?_)
  rw [h.allows_iff]
  exact (and_iff_right row).symm

theorem represents_ofRows {rows : List (List KeyRun)} (short : rows.length + 1 < 2 ^ 64)
    (room : rows.flatten.length < 2 ^ 64)
    (canonical : ∀ k (h : k < rows.length), Canonical rows[k])
    (covers : ∀ k (h : k < rows.length), ∀ j : UInt64,
      Covers rows[k] j ↔ j.toNat < rows.length ∧ R k j.toNat) : (ofRows rows).Represents R := by
  have count : (ofRows rows).length.toNat = rows.length := by
    rw [length_ofRows]
    exact Words.toNat_ofNat (by omega)
  have inside (i : UInt64) (row : i < (ofRows rows).length) : i.toNat < rows.length := by
    rwa [UInt64.lt_iff_toNat_lt, count] at row
  refine ⟨laid_ofRows short room, fun i row => ?_, fun i row j => ?_⟩
  · rw [row_ofRows short room (inside i row)]
    exact canonical _ _
  · rw [row_ofRows short room (inside i row), covers _ (inside i row), UInt64.lt_iff_toNat_lt,
      count]

theorem length_flatten_le {rows : List (List KeyRun)} {bound : Nat}
    (each : ∀ row ∈ rows, row.length ≤ bound) : rows.flatten.length ≤ rows.length * bound := by
  rw [List.length_flatten]
  simpa using List.sum_le_card_nsmul (rows.map List.length) bound (by simpa using each)

/-- A row in normal form has no more runs than there are keys below its bound. -/
theorem length_le_of_canonical {runs : List KeyRun} (h : Canonical runs) {bound : Nat}
    (below : ∀ run ∈ runs, run.first.toNat < bound) : runs.length ≤ bound := by
  have distinct : (runs.map fun run => run.first.toNat).Nodup := by
    refine List.pairwise_map.mpr (List.Pairwise.imp_of_mem ?_ h.separated)
    intro a b listed _ gap
    have ordered := h.toNat_first_le listed
    omega
  have within : (runs.map fun run => run.first.toNat) ⊆ List.range bound := by
    intro first listed
    obtain ⟨run, own, rfl⟩ := List.mem_map.mp listed
    exact List.mem_range.mpr (below run own)
  simpa using (distinct.subperm within).length_le

/-- The runs of fewer than `2 ^ 32` normal rows can be counted in a word. -/
theorem length_flatten_lt {rows : List (List KeyRun)} (short : rows.length < 2 ^ 32)
    (canonical : ∀ row ∈ rows, Canonical row)
    (below : ∀ row ∈ rows, ∀ key, Covers row key → key.toNat < rows.length) :
    rows.flatten.length < 2 ^ 64 := by
  have total := length_flatten_le fun row listed =>
    length_le_of_canonical (canonical row listed) fun run own =>
      below row listed run.first ((canonical row listed).covers_first own)
  have few : rows.length ≤ 2 ^ 32 - 1 := by omega
  calc rows.flatten.length ≤ rows.length * rows.length := total
    _ ≤ (2 ^ 32 - 1) * (2 ^ 32 - 1) := Nat.mul_le_mul few few
    _ < 2 ^ 64 := by decide

end AttentionMask.RunTable
