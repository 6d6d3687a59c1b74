import AttentionMask.Size
import AttentionMask.Proofs.Words
import Mathlib.Order.Bounds.Defs

/-! Rounding up to a power of two in words. Up to the last multiple of the grain the result is the
least multiple that is not smaller; above it the sum wraps, and the result is zero. Either way a
multiple comes out, so rounding twice is rounding once. -/

namespace AttentionMask.Size

/-- Clearing the low bits leaves the multiple below. -/
theorem toNat_and_not {grain x : UInt64} {k : Nat} (power : grain.toNat = 2 ^ k) :
    (x &&& ~~~(grain - 1)).toNat = x.toNat / 2 ^ k * 2 ^ k := by
  have positive : 0 < 2 ^ k := Nat.two_pow_pos k
  have mask : (grain - 1).toNat = 2 ^ k - 1 := by
    rw [Words.toNat_sub_one (by omega), power]
  have small : 2 ^ k - 1 < 2 ^ 64 := by
    have top := grain.toNat_lt
    omega
  have flipped : (~~~(grain - 1)).toNat = 2 ^ 64 - (2 ^ k - 1 + 1) := by
    have words : UInt64.size = 2 ^ 64 := rfl
    rw [UInt64.toNat_not, mask, words]
    omega
  refine Nat.eq_of_testBit_eq fun i => ?_
  rw [UInt64.toNat_and, Nat.testBit_and, flipped, Nat.testBit_two_pow_sub_succ small,
    Nat.testBit_two_pow_sub_one, Nat.testBit_mul_two_pow, Nat.testBit_div_two_pow]
  by_cases reach : k ≤ i
  · rw [Nat.sub_add_cancel reach]
    by_cases within : i < 64
    · simp [reach, within]
    · have wide : x.toNat < 2 ^ i :=
        Nat.lt_of_lt_of_le x.toNat_lt (Nat.pow_le_pow_right (by decide) (Nat.not_lt.mp within))
      simp [Nat.testBit_lt_two_pow wide]
  · simp [reach, Nat.not_le.mp reach]

theorem toNat_roundUp {grain m : UInt64} {k : Nat} (power : grain.toNat = 2 ^ k)
    (room : m.toNat + grain.toNat ≤ 2 ^ 64) :
    (roundUp grain m).toNat = (m.toNat + 2 ^ k - 1) / 2 ^ k * 2 ^ k := by
  have positive : 0 < 2 ^ k := Nat.two_pow_pos k
  have sum : (m + grain - 1).toNat = m.toNat + 2 ^ k - 1 := by
    rw [UInt64.toNat_sub, UInt64.toNat_add, power, UInt64.toNat_one]
    omega
  rw [roundUp, toNat_and_not power, sum]

theorem isLeast_roundUp {grain m : UInt64} {k : Nat} (power : grain.toNat = 2 ^ k)
    (room : m.toNat + grain.toNat ≤ 2 ^ 64) :
    IsLeast {x | grain.toNat ∣ x ∧ m.toNat ≤ x} (roundUp grain m).toNat := by
  have positive : 0 < grain.toNat := power ▸ Nat.two_pow_pos k
  rw [toNat_roundUp power room, ← power]
  generalize grain.toNat = g at positive
  have parts := Nat.div_add_mod' (m.toNat + g - 1) g
  have rest := Nat.mod_lt (m.toNat + g - 1) positive
  constructor
  · exact ⟨Nat.dvd_mul_left _ _, by omega⟩
  · rintro x ⟨⟨c, rfl⟩, above⟩
    rw [Nat.mul_comm g c]
    refine Nat.mul_le_mul_right g (Nat.le_of_lt_succ ((Nat.div_lt_iff_lt_mul positive).mpr ?_))
    rw [Nat.succ_mul, Nat.mul_comm c g]
    omega

/-- Above the last multiple of the grain the sum wraps, and what is left of it is cleared. -/
theorem roundUp_of_wide {grain m : UInt64} {k : Nat} (power : grain.toNat = 2 ^ k)
    (wide : 2 ^ 64 < m.toNat + grain.toNat) : roundUp grain m = 0 := by
  have top := m.toNat_lt
  have top' := grain.toNat_lt
  have sum : (m + grain - 1).toNat = m.toNat + grain.toNat - 1 - 2 ^ 64 := by
    rw [UInt64.toNat_sub, UInt64.toNat_add, UInt64.toNat_one]
    omega
  refine UInt64.toNat_inj.mp ?_
  rw [roundUp, toNat_and_not power, sum, Nat.div_eq_of_lt (by omega), Nat.zero_mul]
  rfl

section

variable {grain m m' : UInt64} {k : Nat} (power : grain.toNat = 2 ^ k)
include power

theorem dvd_roundUp (m : UInt64) : grain.toNat ∣ (roundUp grain m).toNat := by
  rw [roundUp, toNat_and_not power, power]
  exact Nat.dvd_mul_left _ _

theorem roundUp_lt (room : m.toNat + grain.toNat ≤ 2 ^ 64) :
    (roundUp grain m).toNat < m.toNat + grain.toNat := by
  have positive : 0 < 2 ^ k := Nat.two_pow_pos k
  calc (roundUp grain m).toNat = (m.toNat + 2 ^ k - 1) / 2 ^ k * 2 ^ k := toNat_roundUp power room
    _ ≤ m.toNat + 2 ^ k - 1 := Nat.div_mul_le_self _ _
    _ < m.toNat + grain.toNat := by omega

theorem roundUp_mono (order : m ≤ m') (room : m'.toNat + grain.toNat ≤ 2 ^ 64) :
    roundUp grain m ≤ roundUp grain m' := by
  rw [UInt64.le_iff_toNat_le] at order ⊢
  obtain ⟨⟨divides, above⟩, -⟩ := isLeast_roundUp power room
  exact (isLeast_roundUp power (by omega)).2 ⟨divides, Nat.le_trans order above⟩

/-- The grain divides `2 ^ 64`, so no multiple in a word lies above the last one that has room. -/
theorem room_of_dvd (divides : grain.toNat ∣ m.toNat) : m.toNat + grain.toNat ≤ 2 ^ 64 := by
  have narrow : k ≤ 64 :=
    Nat.le_of_lt ((Nat.pow_lt_pow_iff_right (by decide)).mp (power ▸ grain.toNat_lt))
  have whole : grain.toNat ∣ 2 ^ 64 := power ▸ Nat.pow_dvd_pow 2 narrow
  have rest : 0 < 2 ^ 64 - m.toNat := Nat.sub_pos_of_lt m.toNat_lt
  have fits := Nat.le_of_dvd rest (Nat.dvd_sub whole divides)
  omega

theorem roundUp_of_dvd (divides : grain.toNat ∣ m.toNat) : roundUp grain m = m := by
  have least := isLeast_roundUp power (room_of_dvd power divides)
  exact UInt64.toNat_inj.mp (Nat.le_antisymm (least.2 ⟨divides, Nat.le_refl _⟩) least.1.2)

end

/-- With a power of two as the grain, a length up to the last multiple is rounded up to the least
multiple that is not smaller: less than a grain is added, and the order of lengths is kept. A length
above is rounded to zero. In either case rounding the result again changes nothing. -/
theorem roundUp_least_or_zero {grain : UInt64} {k : Nat} (power : grain.toNat = 2 ^ k) :
    (∀ m : UInt64, m.toNat ≤ 2 ^ 64 - grain.toNat →
      IsLeast {x | grain.toNat ∣ x ∧ m.toNat ≤ x} (roundUp grain m).toNat ∧
      m.toNat ≤ (roundUp grain m).toNat ∧ (roundUp grain m).toNat < m.toNat + grain.toNat ∧
      ∀ less : UInt64, less ≤ m → roundUp grain less ≤ roundUp grain m) ∧
    (∀ m : UInt64, roundUp grain (roundUp grain m) = roundUp grain m) ∧
    ∀ m : UInt64, 2 ^ 64 - grain.toNat < m.toNat → roundUp grain m = 0 := by
  have top := grain.toNat_lt
  refine ⟨fun m low => ?_, fun m => roundUp_of_dvd power (dvd_roundUp power m), fun m high => ?_⟩
  · have room : m.toNat + grain.toNat ≤ 2 ^ 64 := by omega
    have least := isLeast_roundUp power room
    exact ⟨least, least.1.2, roundUp_lt power room, fun less order => roundUp_mono power order room⟩
  · exact roundUp_of_wide power (by omega)

/-- The coarsest grain, with the lengths next to its last multiple, and the finest, which no length
is above. -/
theorem roundUp_least_or_zero_extreme :
    IsLeast {x | 2 ^ 63 ∣ x ∧ 2 ^ 63 ≤ x} (roundUp 9223372036854775808 9223372036854775808).toNat ∧
    roundUp 9223372036854775808 1 ≤ roundUp 9223372036854775808 9223372036854775808 ∧
    roundUp 9223372036854775808 9223372036854775809 = 0 ∧
    IsLeast {x | 1 ∣ x ∧ 2 ^ 64 - 1 ≤ x} (roundUp 1 18446744073709551615).toNat := by
  have coarsest : (9223372036854775808 : UInt64).toNat = 2 ^ 63 := by decide
  have finest : (1 : UInt64).toNat = 2 ^ 0 := rfl
  obtain ⟨low, -, high⟩ := roundUp_least_or_zero coarsest
  obtain ⟨least, -, -, order⟩ := low 9223372036854775808 (by decide)
  exact ⟨least, order 1 (by decide), high 9223372036854775809 (by decide),
    ((roundUp_least_or_zero finest).1 18446744073709551615 (by decide)).1⟩

end AttentionMask.Size
