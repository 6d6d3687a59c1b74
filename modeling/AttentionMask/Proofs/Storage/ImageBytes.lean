import AttentionMask.Proofs.RunTable.Build
import AttentionMask.Proofs.Storage

/-! The bytes of an image for every number of rows that a word counts. The product of stride and
rows is checked, the rounding of the stride is not: up to the last multiple of a line the answer is
the exact size or a refusal, and for the few lengths above it the stride is zero and the size comes
out as zero. -/

namespace AttentionMask.Storage

variable {n : UInt64}

theorem exists_imageBytes (short : n.toNat < 2 ^ 32) :
    ∃ total, imageBytes n = .ok total ∧ total.toNat = wholeLines n.toNat * n.toNat := by
  obtain ⟨total, done, size⟩ := imageBytes_of_short short
  rw [toNat_stride (by omega), Nat.mul_comm] at size
  exact ⟨total, done, size⟩

theorem imageBytes_of_long (long : 2 ^ 32 ≤ n.toNat) (room : n.toNat + 64 ≤ 2 ^ 64) :
    imageBytes n = .error ⟨stride n, n⟩ := by
  have size : ¬wholeLines n.toNat * n.toNat < 2 ^ 64 := mt wholeLines_mul_lt_iff.mp (by omega)
  refine Size.product_of_ge ?_
  rw [toNat_stride room]
  exact Nat.not_lt.mp size

theorem imageBytes_of_wide (wide : 2 ^ 64 < n.toNat + 64) : imageBytes n = .ok 0 := by
  have none : (0 : UInt64).toNat * n.toNat < UInt64.size := by
    rw [UInt64.toNat_zero, Nat.zero_mul]
    decide
  rw [imageBytes, stride_of_wide wide, Size.product_of_lt none, UInt64.zero_mul]

/-- A size is given, but not the size of the image. -/
def Understated (n : UInt64) : Prop :=
  ∃ total, imageBytes n = .ok total ∧ total.toNat ≠ wholeLines n.toNat * n.toNat

theorem understated_iff : Understated n ↔ 2 ^ 64 - 64 < n.toNat := by
  constructor
  · rintro ⟨total, done, wrong⟩
    by_contra narrow
    rcases Nat.lt_or_ge n.toNat (2 ^ 32) with short | long
    · obtain ⟨total', done', size⟩ := exists_imageBytes short
      obtain rfl := Except.ok.inj (done.symm.trans done')
      exact wrong size
    · cases done.symm.trans (imageBytes_of_long long (by omega))
  · intro wide
    have size := Nat.mul_pos (Nat.lt_of_lt_of_le (by omega) (le_wholeLines n.toNat))
      (show 0 < n.toNat by omega)
    refine ⟨0, imageBytes_of_wide (by omega), ?_⟩
    rw [UInt64.toNat_zero]
    omega

/-- The size of an image is exact below `2 ^ 32` rows. From there on its two factors are refused, up
to the last multiple of a line; above it, and only there, a wrong size is given, which is zero. The
lengths that the check accepts are far below, so they get a size exactly when a word holds it. -/
theorem imageBytes_cases (n : UInt64) :
    IsLeast {k | 64 ∣ k ∧ n.toNat ≤ k} (wholeLines n.toNat) ∧
    (n.toNat < 2 ^ 32 →
      ∃ total, imageBytes n = .ok total ∧ total.toNat = wholeLines n.toNat * n.toNat) ∧
    (2 ^ 32 ≤ n.toNat → n.toNat ≤ 2 ^ 64 - 64 →
      ∃ apart, imageBytes n = .error ⟨apart, n⟩ ∧ apart.toNat = wholeLines n.toNat) ∧
    (2 ^ 64 - 64 < n.toNat → stride n = 0 ∧ imageBytes n = .ok 0) ∧
    (Understated n ↔ 2 ^ 64 - 64 < n.toNat) ∧
    ∀ p : Pattern, p.check = .ok () →
      ((∃ total, imageBytes p.length.toUInt64 = .ok total) ↔
        wholeLines p.length.toInt.toNat * p.length.toInt.toNat < 2 ^ 64) := by
  refine ⟨isLeast_wholeLines n.toNat, exists_imageBytes, fun long room => ?_, fun wide => ?_,
    understated_iff, fun p checked => ?_⟩
  · exact ⟨stride n, imageBytes_of_long long (by omega), toNat_stride (by omega)⟩
  · exact ⟨stride_of_wide (by omega), imageBytes_of_wide (by omega)⟩
  · have ok := Pattern.check_eq_ok_iff.mp checked
    have bound := ok.toNat_length_le
    rw [← ok.toNat_length, wholeLines_mul_lt_iff]
    constructor
    · rintro ⟨total, done⟩
      exact short_of_imageBytes (by omega) done
    · intro short
      obtain ⟨total, done, _⟩ := exists_imageBytes short
      exact ⟨total, done⟩

/-- Rows on both sides of either limit. -/
theorem imageBytes_cases_limits :
    (∃ total, imageBytes 4294967295 = .ok total ∧ total.toNat = 2 ^ 32 * 4294967295) ∧
    (∃ apart, imageBytes 4294967297 = .error ⟨apart, 4294967297⟩ ∧ apart.toNat = 2 ^ 32 + 64) ∧
    (∃ apart, imageBytes 18446744073709551552 = .error ⟨apart, 18446744073709551552⟩ ∧
      apart.toNat = 18446744073709551552) ∧
    imageBytes 18446744073709551553 = .ok 0 :=
  ⟨(imageBytes_cases 4294967295).2.1 (by decide),
    (imageBytes_cases 4294967297).2.2.1 (by decide) (by decide),
    (imageBytes_cases 18446744073709551552).2.2.1 (by decide) (by decide),
    ((imageBytes_cases 18446744073709551553).2.2.2.1 (by decide)).2⟩

end AttentionMask.Storage
