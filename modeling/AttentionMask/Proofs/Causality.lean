import AttentionMask.Proofs.Mask.Rows
import Mathlib.Order.Bounds.Defs

/-! What the causal cut removes: exactly the keys after the query. Both cases of the cut give
one mask when no offset inside the sequence is smaller than the band, for only then no band
passes its query. Without the cut the last key of a row is its own or the end of the band around
the nearest offset. -/

namespace AttentionMask

namespace Pattern

/-- The same parameters with the given treatment of keys after the query. -/
def under (p : Pattern) (causality : Causality) : Pattern :=
  { p with causality }

/-- The smallest listed offset inside the sequence. -/
def nearest? (p : Pattern) : Option Int64 :=
  (p.links.filter fun o => o < p.length).min?

/-- The last key of row `i` without the cut, over unbounded integers. -/
def lastKey (p : Pattern) (i : Int) : Int :=
  match p.nearest? with
  | none => i
  | some o => max i (min (p.length.toInt - 1) (i - o.toInt + p.band.toInt))

variable {p : Pattern}

@[simp] theorem check_under (p : Pattern) (causality : Causality) :
    (p.under causality).check = p.check :=
  rfl

theorem Accepted.under (ok : p.Accepted) (causality : Causality) : (p.under causality).Accepted :=
  check_eq_ok_iff.mp ((check_under p causality).trans (check_eq_ok_iff.mpr ok))

theorem nearest?_eq_some_iff {o : Int64} : p.nearest? = some o ↔
    (o ∈ p.links ∧ o < p.length) ∧ ∀ other ∈ p.links, other < p.length → o ≤ other := by
  simp only [nearest?, List.min?_eq_some_iff, List.mem_filter, decide_eq_true_eq, and_imp]

theorem nearest?_eq_none_iff : p.nearest? = none ↔ ∀ o ∈ p.links, ¬o < p.length := by
  simp only [nearest?, List.min?_eq_none_iff, List.filter_eq_nil_iff, decide_eq_true_eq]

theorem permits_clamped_iff {i j : Nat} : (p.under .clamped).Permits i j ↔
    j ≤ i ∧ (p.under .unclamped).Permits i j := by
  constructor
  · intro permitted
    refine ⟨permitted.le_of_clamped rfl, permitted.1, permitted.2.1, ?_⟩
    rcases permitted.2.2 with near | ⟨o, listed, short, near, _⟩
    · exact .inl near
    · exact .inr ⟨o, listed, short, near, fun clamped => by cases clamped⟩
  · rintro ⟨causal, row, key, near | ⟨o, listed, short, near, _⟩⟩
    · exact ⟨row, key, .inl near⟩
    · exact ⟨row, key, .inr ⟨o, listed, short, near, fun _ => causal⟩⟩

/-- No band passes its query when it is at most as wide as every offset. -/
theorem Permits.le_of_band_le {i j : Nat} (h : p.Permits i j)
    (narrow : ∀ o ∈ p.links, o < p.length → p.band ≤ o) : j ≤ i := by
  obtain ⟨_, _, ⟨_, own⟩ | ⟨o, listed, short, near, _⟩⟩ := h
  · exact own
  · have reach := Int64.le_iff_toInt_le.mp (narrow o listed short)
    omega

/-- A band wider than its offset shows the second key to the first query. -/
theorem Accepted.permits_second (ok : p.Accepted) {o : Int64} (listed : o ∈ p.links)
    (short : o < p.length) (wide : o < p.band) : (p.under .unclamped).Permits 0 1 := by
  have positive : 1 ≤ o.toInt := Int64.le_iff_toInt_le.mp (ok.one_le_offset o listed)
  rw [Int64.lt_iff_toInt_lt] at wide
  have inside := Int64.lt_iff_toInt_lt.mp short
  have row : ((0 : Nat) : Int) < p.length.toInt := by omega
  have key : ((1 : Nat) : Int) < p.length.toInt := by omega
  have low : ((0 : Nat) : Int) - o.toInt - p.band.toInt ≤ (1 : Nat) := by omega
  have high : ((1 : Nat) : Int) ≤ (0 : Nat) - o.toInt + p.band.toInt := by omega
  exact permits_of_link (p := p.under .unclamped) rfl row key listed short low high

theorem permits_eq_of_band_le (narrow : ∀ o ∈ p.links, o < p.length → p.band ≤ o) :
    (p.under .clamped).Permits = (p.under .unclamped).Permits := by
  funext i j
  refine propext (permits_clamped_iff.trans (and_iff_right_of_imp fun permitted => ?_))
  exact permitted.le_of_band_le narrow

theorem lastKey_of_none (none : p.nearest? = none) (i : Int) : p.lastKey i = i := by
  rw [lastKey, none]

theorem lastKey_of_some {o : Int64} (found : p.nearest? = some o) (i : Int) :
    p.lastKey i = max i (min (p.length.toInt - 1) (i - o.toInt + p.band.toInt)) := by
  rw [lastKey, found]

theorem le_lastKey (p : Pattern) (i : Int) : i ≤ p.lastKey i := by
  cases found : p.nearest? with
  | none => exact Int.le_of_eq (lastKey_of_none found i).symm
  | some o =>
      rw [lastKey_of_some found]
      omega

theorem Accepted.permits_lastKey (ok : p.Accepted) {i j : Nat} (row : (i : Int) < p.length.toInt)
    (last : (j : Int) = p.lastKey i) : (p.under .unclamped).Permits i j := by
  have own : (p.under .unclamped).Permits i i := (ok.under .unclamped).permits_self row
  cases found : p.nearest? with
  | none =>
      rw [lastKey_of_none found] at last
      rwa [Int.ofNat_inj.mp last]
  | some o =>
      rw [lastKey_of_some found] at last
      obtain ⟨⟨listed, short⟩, _⟩ := nearest?_eq_some_iff.mp found
      by_cases same : j = i
      · rwa [same]
      · -- Past its own key the row ends with the band, or with the sequence inside the band.
        have positive : 1 ≤ o.toInt := Int64.le_iff_toInt_le.mp (ok.one_le_offset o listed)
        have key : (j : Int) < p.length.toInt := by omega
        have low : (i : Int) - o.toInt - p.band.toInt ≤ j := by omega
        have high : (j : Int) ≤ i - o.toInt + p.band.toInt := by omega
        exact permits_of_link (p := p.under .unclamped) rfl row key listed short low high

theorem Permits.le_lastKey {i j : Nat} (h : p.Permits i j) : (j : Int) ≤ p.lastKey i := by
  obtain ⟨_, key, near⟩ := h
  cases found : p.nearest? with
  | none =>
      rw [lastKey_of_none found]
      rcases near with ⟨_, own⟩ | ⟨o, listed, short, _⟩
      · exact Int.ofNat_le.mpr own
      · exact absurd short (nearest?_eq_none_iff.mp found o listed)
  | some o =>
      rw [lastKey_of_some found]
      rcases near with ⟨_, own⟩ | ⟨other, listed, short, reach, _⟩
      · omega
      · have least := (nearest?_eq_some_iff.mp found).2 other listed short
        rw [Int64.le_iff_toInt_le] at least
        omega

end Pattern

namespace Mask

variable {m : Mask} {p : Pattern}

/-- The keys of a row as integers. -/
def keySet (m : Mask) (i : UInt64) : Set Int :=
  {key | ∃ j : UInt64, m.allows i j = true ∧ (j.toNat : Int) = key}

theorem Expresses.isGreatest_lastKey (h : m.Expresses (p.under .unclamped)) (ok : p.Accepted)
    {i : UInt64} (row : i < p.length.toUInt64) : IsGreatest (m.keySet i) (p.lastKey i.toNat) := by
  have inside : (i.toNat : Int) < p.length.toInt := ok.lt_length_iff.mp row
  constructor
  · have low := p.le_lastKey i.toNat
    obtain ⟨j, last⟩ := Int.eq_ofNat_of_zero_le (show 0 ≤ p.lastKey i.toNat by omega)
    have permitted := ok.permits_lastKey inside last.symm
    have key : (j : Int) < p.length.toInt := permitted.2.1
    have short : p.length.toInt ≤ 1099511627776 := ok.sound.length_le
    have value := Words.toNat_ofNat (k := j) (by omega)
    refine ⟨UInt64.ofNat j, h.allows_iff.mpr ?_, ?_⟩
    · rwa [value]
    · rw [value, last]
  · rintro _ ⟨j, permitted, rfl⟩
    exact (h.allows_iff.mp permitted).le_lastKey

end Mask

/-- In either form the cut keeps the permitted pairs with the key at or before the query. It changes
nothing exactly when the band is at most as wide as every offset inside the sequence, and the last
key of an uncut row is its own or the end of the band around the nearest offset. -/
theorem causality_cuts_keys {p : Pattern} (checked : p.check = .ok ()) (fits : Mask.Fits p)
    (form : Mask.Form) (short : form = .grid → p.length.toInt < 2 ^ 32) :
    ∃ cut whole, Mask.buildAs form (p.under .clamped) = .ok cut ∧
      Mask.buildAs form (p.under .unclamped) = .ok whole ∧
      (∀ i j, cut.allows i j = true ↔ j ≤ i ∧ whole.allows i j = true) ∧
      (cut = whole ↔ ∀ o ∈ p.links, o < p.length → p.band ≤ o) ∧
      ∀ i < p.length.toUInt64, IsGreatest (whole.keySet i) (p.lastKey i.toNat) := by
  have ok := Pattern.check_eq_ok_iff.mp checked
  obtain ⟨cut, done, cutForm, _, clamped⟩ :=
    Mask.exists_buildAs (ok.under .clamped) fits form short
  obtain ⟨whole, done', wholeForm, _, unclamped⟩ :=
    Mask.exists_buildAs (ok.under .unclamped) fits form short
  have cuts (i j : UInt64) : cut.allows i j = true ↔ j ≤ i ∧ whole.allows i j = true := by
    rw [clamped.allows_iff, unclamped.allows_iff, UInt64.le_iff_toNat_le,
      Pattern.permits_clamped_iff]
  refine ⟨cut, whole, done, done', cuts, ?_, fun i row => unclamped.isGreatest_lastKey ok row⟩
  constructor
  · intro same o listed short
    by_contra wide
    have leak : whole.allows 0 1 = true :=
      unclamped.allows_iff.mpr (ok.permits_second listed short (Int64.not_le.mp wide))
    rw [← same] at leak
    exact absurd ((cuts 0 1).mp leak).1 (by decide)
  · intro narrow
    have image := clamped.represents
    rw [Pattern.permits_eq_of_band_le narrow] at image
    exact image.unique unclamped.represents (cutForm.trans wholeForm.symm)
      (clamped.length.trans unclamped.length.symm)

/-- A band of five around the offset three, and one of two. -/
theorem causality_cuts_keys_small :
    (∃ cut whole, Mask.buildAs .grid ⟨13, 1, some [7, 3, 20], 5, .clamped⟩ = .ok cut ∧
      Mask.buildAs .grid ⟨13, 1, some [7, 3, 20], 5, .unclamped⟩ = .ok whole ∧ cut ≠ whole ∧
      IsGreatest (whole.keySet 4) 6) ∧
    ∃ cut whole, Mask.buildAs .runs ⟨13, 1, some [7, 3, 20], 2, .clamped⟩ = .ok cut ∧
      Mask.buildAs .runs ⟨13, 1, some [7, 3, 20], 2, .unclamped⟩ = .ok whole ∧ cut = whole := by
  constructor
  · obtain ⟨cut, whole, done, done', _, same, last⟩ :=
      causality_cuts_keys (p := ⟨13, 1, some [7, 3, 20], 5, .clamped⟩) (by decide)
        (by unfold Mask.Fits; decide) .grid fun _ => by decide
    have value : Pattern.lastKey ⟨13, 1, some [7, 3, 20], 5, .clamped⟩ (4 : UInt64).toNat = 6 := by
      decide
    have top := last 4 (by decide)
    rw [value] at top
    refine ⟨cut, whole, done, done', fun equal => ?_, top⟩
    exact absurd (same.mp equal 3 (by decide) (by decide)) (by decide)
  · obtain ⟨cut, whole, done, done', _, same, _⟩ :=
      causality_cuts_keys (p := ⟨13, 1, some [7, 3, 20], 2, .clamped⟩) (by decide)
        (by unfold Mask.Fits; decide) .runs fun form => by cases form
    exact ⟨cut, whole, done, done', same.mpr (by simp [Pattern.links])⟩

end AttentionMask
