import AttentionMask.RowRule
import AttentionMask.Proofs.Words
import Mathlib.Data.Finset.Card
import Mathlib.Data.List.Sort

/-! Reduced parameters: the offsets kept are those listed inside the sequence, each once and in
order, and the band is at most twice the length. Neither changes which keys a row sees, since no
centre is farther than that from a key of the sequence. -/

namespace AttentionMask

namespace RowRule

/-- Bounds under which all positions and steps of a row stay in signed words. -/
structure Sound (r : RowRule) : Prop where
  one_le_length : 1 ≤ r.length.toInt
  length_le : r.length.toInt ≤ 1099511627776
  window_nonneg : 0 ≤ r.window.toInt
  band_nonneg : 0 ≤ r.band.toInt
  band_le : r.band.toInt ≤ 2 * r.length.toInt
  inside : ∀ o ∈ r.offsets, 1 ≤ o.toInt ∧ o.toInt < r.length.toInt

/-- Row `i` sees key `j`, over unbounded integers. -/
def Sees (r : RowRule) (i j : Int) : Prop :=
  0 ≤ j ∧ j < r.length.toInt ∧
    (i - r.window.toInt ≤ j ∧ j ≤ i ∨
      ∃ o ∈ r.offsets, i - o.toInt - r.band.toInt ≤ j ∧ j ≤ i - o.toInt + r.band.toInt ∧
        (r.causality = .clamped → j ≤ i))

@[simp] theorem mem_distinct {offsets : List Int64} {o : Int64} :
    o ∈ distinct offsets ↔ o ∈ offsets := by
  fun_induction distinct offsets with
  | case1 a rest ih => rw [ih]; simp
  | case2 a b rest differ ih => rw [List.mem_cons, ih, List.mem_cons (b := a)]
  | case3 offsets short => rfl

theorem pairwise_distinct {offsets : List Int64} (sorted : offsets.Pairwise (· ≤ ·)) :
    (distinct offsets).Pairwise (· < ·) := by
  fun_induction distinct offsets with
  | case1 a rest ih => exact ih (List.pairwise_cons.mp sorted).2
  | case2 a b rest differ ih =>
      obtain ⟨head, tail⟩ := List.pairwise_cons.mp sorted
      refine List.pairwise_cons.mpr ⟨fun o listed => ?_, ih tail⟩
      have less : a < b := Int64.lt_of_le_of_ne (head b List.mem_cons_self) differ
      rcases List.mem_cons.mp (mem_distinct.mp listed) with rfl | later
      · exact less
      · exact Int64.lt_of_lt_of_le less ((List.pairwise_cons.mp tail).1 o later)
  | case3 offsets short =>
      cases offsets with
      | nil => exact List.Pairwise.nil
      | cons a rest =>
          cases rest with
          | nil => exact List.pairwise_singleton _ a
          | cons b rest => exact absurd rfl (short a b rest)

theorem pairwise_ordered (offsets : List Int64) : (ordered offsets).Pairwise (· ≤ ·) :=
  offsets.pairwise_mergeSort' (· ≤ ·)

@[simp] theorem mem_ordered {offsets : List Int64} {o : Int64} :
    o ∈ ordered offsets ↔ o ∈ offsets :=
  List.mem_mergeSort

end RowRule

namespace Pattern

theorem mem_rule_offsets {p : Pattern} {o : Int64} :
    o ∈ p.rule.offsets ↔ o ∈ p.links ∧ 1 ≤ o ∧ o < p.length := by
  simp [rule, RowRule.inside]

theorem nodup_rule_offsets (p : Pattern) : p.rule.offsets.Nodup :=
  (RowRule.pairwise_distinct (RowRule.pairwise_ordered _)).imp fun less => Int64.ne_of_lt less

theorem toInt_rule_band {p : Pattern} (one_le : 1 ≤ p.length) (le_max : p.length ≤ maxLength) :
    p.rule.band.toInt = min p.band.toInt (2 * p.length.toInt) := by
  have low : 1 ≤ p.length.toInt := Int64.le_iff_toInt_le.mp one_le
  have high : p.length.toInt ≤ 1099511627776 := Int64.le_iff_toInt_le.mp le_max
  have fits : Words.Holds (2 * p.length.toInt) := ⟨by omega, by omega⟩
  have double : (2 * p.length).toInt = 2 * p.length.toInt := Words.toInt_mul fits
  rw [← double]
  exact Words.toInt_min p.band (2 * p.length)

/-- Length, window and band as the check asks for them. Nothing is said of the offsets. -/
structure Measured (p : Pattern) : Prop where
  one_le_length : 1 ≤ p.length
  length_le_max : p.length ≤ maxLength
  window_nonneg : 0 ≤ p.window
  band_nonneg : 0 ≤ p.band

/-- Reduction keeps words exact for any offsets, good or bad. -/
theorem Measured.sound {p : Pattern} (h : p.Measured) : p.rule.Sound := by
  have low : 1 ≤ p.length.toInt := Int64.le_iff_toInt_le.mp h.one_le_length
  have wide : 0 ≤ p.band.toInt := Int64.le_iff_toInt_le.mp h.band_nonneg
  have capped := toInt_rule_band h.one_le_length h.length_le_max
  refine ⟨low, Int64.le_iff_toInt_le.mp h.length_le_max, Int64.le_iff_toInt_le.mp h.window_nonneg,
    ?_, ?_, ?_⟩
  · omega
  · change p.rule.band.toInt ≤ 2 * p.length.toInt
    omega
  · intro o listed
    obtain ⟨-, positive, short⟩ := mem_rule_offsets.mp listed
    exact ⟨Int64.le_iff_toInt_le.mp positive, Int64.lt_iff_toInt_lt.mp short⟩

theorem Accepted.measured {p : Pattern} (ok : p.Accepted) : p.Measured :=
  ⟨ok.one_le_length, ok.length_le_max, ok.window_nonneg, ok.band_nonneg⟩

theorem Accepted.sound {p : Pattern} (ok : p.Accepted) : p.rule.Sound :=
  ok.measured.sound

/-- The capped band reaches the same keys of the sequence. -/
theorem Measured.sees_iff {p : Pattern} (h : p.Measured) (positive : ∀ o ∈ p.links, 1 ≤ o)
    {i j : Nat} (row : (i : Int) < p.length.toInt) : p.rule.Sees i j ↔ p.Permits i j := by
  have capped := toInt_rule_band h.one_le_length h.length_le_max
  have window := Int64.le_iff_toInt_le.mp h.window_nonneg
  -- No centre is farther than twice the length from a key, so the cap on the band is never met.
  have near (o : Int64) (listed : o ∈ p.links) (short : o < p.length)
      (key : (j : Int) < p.length.toInt) :
      ((i : Int) - o.toInt - p.rule.band.toInt ≤ j ∧ (j : Int) ≤ i - o.toInt + p.rule.band.toInt) ↔
        ((((j : Int) - ((i : Int) - o.toInt)).natAbs : Nat) : Int) ≤ p.band.toInt := by
    have least := Int64.le_iff_toInt_le.mp (positive o listed)
    rw [Int64.lt_iff_toInt_lt] at short
    change 1 ≤ o.toInt at least
    omega
  have same : p.rule.window.toInt = p.window.toInt := rfl
  refine ⟨?_, ?_⟩
  · intro seen
    obtain ⟨_, key, inWindow | ⟨o, listed, low, high, clamp⟩⟩ := seen
    · exact ⟨row, key, .inl (by omega)⟩
    · obtain ⟨linked, -, short⟩ := mem_rule_offsets.mp listed
      exact ⟨row, key, .inr ⟨o, linked, short, (near o linked short key).mp ⟨low, high⟩,
        fun clamped => Int.ofNat_le.mp (clamp clamped)⟩⟩
  · intro permitted
    obtain ⟨_, key, inWindow | ⟨o, linked, short, distance, clamp⟩⟩ := permitted
    · exact ⟨Int.natCast_nonneg j, key, .inl (by omega)⟩
    · have listed := mem_rule_offsets.mpr ⟨linked, positive o linked, short⟩
      obtain ⟨low, high⟩ := (near o linked short key).mpr distance
      exact ⟨Int.natCast_nonneg j, key, .inr ⟨o, listed, low, high,
        fun clamped => Int.ofNat_le.mpr (clamp clamped)⟩⟩

theorem rule_sees_iff {p : Pattern} (ok : p.Accepted) {i j : Nat}
    (row : (i : Int) < p.length.toInt) :
    p.rule.Sees i j ↔ p.Permits i j :=
  ok.measured.sees_iff ok.one_le_offset row

/-- Without the cut a row sees every key within the band of a centre. -/
theorem permits_of_link {p : Pattern} (free : p.causality = .unclamped) {i j : Nat} {o : Int64}
    (row : (i : Int) < p.length.toInt) (key : (j : Int) < p.length.toInt) (listed : o ∈ p.links)
    (short : o < p.length) (low : (i : Int) - o.toInt - p.band.toInt ≤ j)
    (high : (j : Int) ≤ i - o.toInt + p.band.toInt) : p.Permits i j := by
  refine ⟨row, key, .inr ⟨o, listed, short, by omega, fun clamped => ?_⟩⟩
  rw [free] at clamped
  cases clamped

theorem capacity_rule {p : Pattern} (ok : p.Accepted) :
    p.rule.capacity = 1 + (p.links.toFinset.filter (· < p.length)).card := by
  have kept : p.links.toFinset.filter (· < p.length) = p.rule.offsets.toFinset := by
    ext o
    simp only [Finset.mem_filter, List.mem_toFinset, mem_rule_offsets]
    exact ⟨fun ⟨listed, short⟩ => ⟨listed, ok.one_le_offset o listed, short⟩,
      fun ⟨listed, _, short⟩ => ⟨listed, short⟩⟩
  rw [kept, List.toFinset_card_of_nodup p.nodup_rule_offsets, RowRule.capacity, Nat.add_comm]

end Pattern
end AttentionMask
