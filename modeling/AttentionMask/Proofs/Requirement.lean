import AttentionMask.Pattern
import Mathlib.Algebra.Group.Int.Defs
import Mathlib.Algebra.Group.Nat.Defs
import Mathlib.Data.Nat.Find
import Mathlib.Order.Bounds.Basic

/-! The check of mask parameters, requirement by requirement. Parameters pass when they meet all
five. Otherwise the fault is that of the first one in order that they do not meet, whatever the
fields checked later hold; of several bad offsets the first is reported. -/

namespace AttentionMask.Pattern

variable {p : Pattern} {fault : Fault}

/-- What is required of parameters, in the order of the check. -/
inductive Requirement where
  | given
  | length
  | window
  | band
  | positive
deriving DecidableEq

def Requirement.earlier : Requirement → List Requirement
  | given => []
  | length => [given]
  | window => [given, length]
  | band => [given, length, window]
  | positive => [given, length, window, band]

def Meets (p : Pattern) : Requirement → Prop
  | .given => ¬(p.offsets = none ∨ p.offsets = some [])
  | .length => 1 ≤ p.length.toInt ∧ p.length.toInt ≤ 2 ^ 40
  | .window => 0 ≤ p.window.toInt
  | .band => 0 ≤ p.band.toInt
  | .positive => ∀ o ∈ p.links, 1 ≤ o.toInt

/-- The positions of the offsets that are not positive. -/
def badOffsets (p : Pattern) : Set Nat :=
  {k | ∃ o, p.links[k]? = some o ∧ o.toInt < 1}

/-- The fault for a requirement that is not met. The position of an offset is counted in a word. -/
inductive Reports (p : Pattern) : Requirement → Fault → Prop where
  | given : Reports p .given ⟨.missingOffsets, .offsets, 0, 0⟩
  | length : Reports p .length ⟨.invalidParameter, .length, p.length, 0⟩
  | window : Reports p .window ⟨.invalidParameter, .window, p.window, 0⟩
  | band : Reports p .band ⟨.invalidParameter, .band, p.band, 0⟩
  | positive {k : Nat} {o : Int64} (first : IsLeast p.badOffsets k)
      (listed : p.links[k]? = some o) :
      Reports p .positive ⟨.invalidParameter, .offsets, o, UInt64.ofNat k⟩

theorem links_eq_nil_iff : p.links = [] ↔ p.offsets = none ∨ p.offsets = some [] := by
  cases given : p.offsets <;> simp [links, given]

theorem meets_given_iff : p.Meets .given ↔ ¬p.links.isEmpty = true := by
  rw [List.isEmpty_iff, links_eq_nil_iff, Meets]

theorem meets_length_iff : p.Meets .length ↔ ¬(p.length < 1 ∨ maxLength < p.length) := by
  rw [not_or, Int64.not_lt, Int64.not_lt, Int64.le_iff_toInt_le, Int64.le_iff_toInt_le]
  rfl

theorem meets_window_iff : p.Meets .window ↔ ¬p.window < 0 := by
  rw [Int64.not_lt, Int64.le_iff_toInt_le]
  rfl

theorem meets_band_iff : p.Meets .band ↔ ¬p.band < 0 := by
  rw [Int64.not_lt, Int64.le_iff_toInt_le]
  rfl

theorem find?_of_isLeast {k : Nat} {o : Int64} (first : IsLeast p.badOffsets k)
    (listed : p.links[k]? = some o) :
    (p.links.zipIdx.find? fun entry => decide (entry.1 < 1)) = some (o, k) := by
  obtain ⟨inside, value⟩ := List.getElem?_eq_some_iff.mp listed
  obtain ⟨⟨o', listed', low⟩, least⟩ := first
  obtain rfl := Option.some.inj (listed.symm.trans listed')
  refine List.find?_eq_some_iff_getElem.mpr ⟨?_, k, by simpa using inside, by simp [value], ?_⟩
  · exact decide_eq_true (Int64.lt_iff_toInt_lt.mpr low)
  · intro j before
    have positive : ¬p.links[j] < 1 := by
      intro low'
      have bad : j ∈ p.badOffsets :=
        ⟨_, List.getElem?_eq_getElem _, Int64.lt_iff_toInt_lt.mp low'⟩
      exact absurd (least bad) (Nat.not_le.mpr before)
    simpa using positive

/-- The check reports the requirement that comes before all others that are not met. -/
theorem check_of_reports {r : Requirement} (missed : ¬p.Meets r)
    (met : ∀ other ∈ r.earlier, p.Meets other) (report : p.Reports r fault) :
    p.check = .error fault := by
  cases report with
  | given =>
      rw [meets_given_iff, not_not] at missed
      rw [check, if_pos missed]
      rfl
  | length =>
      simp only [Requirement.earlier, List.forall_mem_singleton, meets_given_iff] at met
      rw [meets_length_iff, not_not] at missed
      rw [check, if_neg met, if_pos missed]
      rfl
  | window =>
      simp only [Requirement.earlier, List.forall_mem_cons, meets_given_iff,
        meets_length_iff] at met
      rw [meets_window_iff, not_not] at missed
      rw [check, if_neg met.1, if_neg met.2.1, if_pos missed]
      rfl
  | band =>
      simp only [Requirement.earlier, List.forall_mem_cons, meets_given_iff, meets_length_iff,
        meets_window_iff] at met
      rw [meets_band_iff, not_not] at missed
      rw [check, if_neg met.1, if_neg met.2.1, if_neg met.2.2.1, if_pos missed]
      rfl
  | positive first listed =>
      simp only [Requirement.earlier, List.forall_mem_cons, meets_given_iff, meets_length_iff,
        meets_window_iff, meets_band_iff] at met
      rw [check, if_neg met.1, if_neg met.2.1, if_neg met.2.2.1, if_neg met.2.2.2.1,
        find?_of_isLeast first listed]
      rfl

theorem accepted_iff_meets : p.Accepted ↔ ∀ r, p.Meets r := by
  constructor
  · intro ok r
    cases r with
    | given => exact links_eq_nil_iff.not.mp ok.links_ne_nil
    | length =>
        exact meets_length_iff.mpr
          (not_or.mpr ⟨Int64.not_lt.mpr ok.one_le_length, Int64.not_lt.mpr ok.length_le_max⟩)
    | window => exact meets_window_iff.mpr (Int64.not_lt.mpr ok.window_nonneg)
    | band => exact meets_band_iff.mpr (Int64.not_lt.mpr ok.band_nonneg)
    | positive => exact fun o listed => Int64.le_iff_toInt_le.mp (ok.one_le_offset o listed)
  · intro met
    obtain ⟨low, high⟩ := not_or.mp (meets_length_iff.mp (met .length))
    exact ⟨links_eq_nil_iff.not.mpr (met .given), Int64.not_lt.mp low, Int64.not_lt.mp high,
      Int64.not_lt.mp (meets_window_iff.mp (met .window)),
      Int64.not_lt.mp (meets_band_iff.mp (met .band)),
      fun o listed => Int64.le_iff_toInt_le.mpr (met .positive o listed)⟩

theorem exists_first_missed (missed : ¬∀ r, p.Meets r) :
    ∃ r, ¬p.Meets r ∧ ∀ other ∈ r.earlier, p.Meets other := by
  by_contra none
  have next (r : Requirement) (met : ∀ other ∈ r.earlier, p.Meets other) : p.Meets r :=
    not_not.mp fun unmet => none ⟨r, unmet, met⟩
  have given := next .given (by simp [Requirement.earlier])
  have length := next .length (by simp [Requirement.earlier, given])
  have window := next .window (by simp [Requirement.earlier, given, length])
  have band := next .band (by simp [Requirement.earlier, given, length, window])
  have positive := next .positive (by simp [Requirement.earlier, given, length, window, band])
  exact missed fun r => by cases r <;> assumption

/-- Every requirement that is not met has its fault. -/
theorem exists_reports {r : Requirement} (missed : ¬p.Meets r) : ∃ fault, p.Reports r fault := by
  cases r with
  | given => exact ⟨_, .given⟩
  | length => exact ⟨_, .length⟩
  | window => exact ⟨_, .window⟩
  | band => exact ⟨_, .band⟩
  | positive =>
      obtain ⟨o, listed, low⟩ : ∃ o ∈ p.links, ¬1 ≤ o.toInt := by simpa [Meets] using missed
      obtain ⟨k, place⟩ := List.getElem?_of_mem listed
      have some_bad : ∃ k, k ∈ p.badOffsets := ⟨k, o, place, by omega⟩
      classical
      obtain ⟨first, place', low'⟩ := Nat.find_spec some_bad
      exact ⟨_, .positive ⟨⟨first, place', low'⟩, fun k bad => Nat.find_min' some_bad bad⟩ place'⟩

theorem check_eq_error_iff : p.check = .error fault ↔
    ∃ r, ¬p.Meets r ∧ (∀ other ∈ r.earlier, p.Meets other) ∧ p.Reports r fault := by
  constructor
  · intro found
    have missed : ¬∀ r, p.Meets r := by
      intro met
      cases found.symm.trans (check_eq_ok_iff.mpr (accepted_iff_meets.mpr met))
    obtain ⟨r, unmet, met⟩ := exists_first_missed missed
    obtain ⟨reported, report⟩ := exists_reports unmet
    have same := found.symm.trans (check_of_reports unmet met report)
    obtain rfl := Except.error.inj same
    exact ⟨r, unmet, met, report⟩
  · rintro ⟨r, missed, met, report⟩
    exact check_of_reports missed met report

/-- Parameters pass exactly when they meet all requirements, and the fault is exactly that of the
first one in order that they do not meet. No list is longer than a word counts, so the index of a
bad offset is the first position of one, and the value is the offset there. -/
theorem check_reports_first (p : Pattern) :
    (p.check = .ok () ↔ ∀ r, p.Meets r) ∧
    (∀ fault, p.check = .error fault ↔
      ∃ r, ¬p.Meets r ∧ (∀ other ∈ r.earlier, p.Meets other) ∧ p.Reports r fault) ∧
    (p.links.length ≤ 2 ^ 64 → ∀ o index,
      p.check = .error ⟨.invalidParameter, .offsets, o, index⟩ →
        IsLeast p.badOffsets index.toNat ∧ p.links[index.toNat]? = some o) := by
  refine ⟨check_eq_ok_iff.trans accepted_iff_meets, fun fault => check_eq_error_iff,
    fun room o index found => ?_⟩
  obtain ⟨r, _, _, report⟩ := check_eq_error_iff.mp found
  cases report with
  | positive first listed =>
      have inside := (List.getElem?_eq_some_iff.mp listed).1
      rw [UInt64.toNat_ofNat_of_lt' (Nat.lt_of_lt_of_le inside room)]
      exact ⟨first, listed⟩

/-- Four requirements missed at once, and two bad offsets after a good one. -/
theorem check_reports_first_several :
    check ⟨0, -4, some [7, 0], -1, .clamped⟩ = .error ⟨.invalidParameter, .length, 0, 0⟩ ∧
      IsLeast (badOffsets ⟨13, 4, some [7, 0, -2], 1, .clamped⟩) 1 := by
  constructor
  · refine ((check_reports_first _).2.1 _).mpr ⟨.length, by simp [Meets], ?_, .length⟩
    simp [Requirement.earlier, Meets]
  · exact ((check_reports_first ⟨13, 4, some [7, 0, -2], 1, .clamped⟩).2.2 (by decide) 0 1
      (by decide)).1

end AttentionMask.Pattern
