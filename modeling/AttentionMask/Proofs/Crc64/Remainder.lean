import AttentionMask.Proofs.Crc64.Serial
import Mathlib.Algebra.CharP.Two
import Mathlib.Algebra.Field.ZMod
import Mathlib.Algebra.Polynomial.Div
import Mathlib.Algebra.Polynomial.Monic

/-! The check value as a remainder. Bits are coefficients over the field of two elements: bit
`63 - k` of the register stands for `X ^ k`, and the first bit of a message for its highest power.
Taking in a bit multiplies the register by `X`, adds the bit at `X ^ 64` and reduces by the
generator, so a message leaves the remainder of itself times `X ^ 64`. -/

namespace AttentionMask.Crc64

open Polynomial

/-- The polynomial of degree below 64 with these coefficients. -/
noncomputable def ofCoefficients (bit : Nat → Bool) : (ZMod 2)[X] :=
  ∑ k ∈ Finset.range 64, if bit k then X ^ k else 0

noncomputable def residue (register : UInt64) : (ZMod 2)[X] :=
  ofCoefficients fun k => register.toNat.testBit (63 - k)

/-- The generator with its coefficients in the usual order. -/
noncomputable def divisor : (ZMod 2)[X] :=
  X ^ 64 + ofCoefficients (Nat.testBit 0x42F0E1EBA9EA3693)

/-- The first bit has the highest degree. -/
noncomputable def message : List Bool → (ZMod 2)[X]
  | [] => 0
  | bit :: rest => (if bit then X ^ rest.length else 0) + message rest

theorem coeff_ofCoefficients (bit : Nat → Bool) (k : Nat) :
    (ofCoefficients bit).coeff k = if k < 64 ∧ bit k = true then 1 else 0 := by
  have term (j : Nat) : (if bit j then (X : (ZMod 2)[X]) ^ j else 0).coeff k =
      if j = k then (if bit k = true then 1 else 0) else 0 := by
    by_cases same : j = k
    · subst same
      cases bit j <;> simp
    · cases bit j <;> simp [coeff_X_pow, same, Ne.symm same]
  simp only [ofCoefficients, finsetSum_coeff, term, Finset.sum_ite_eq', Finset.mem_range, ite_and]

theorem degree_ofCoefficients_lt (bit : Nat → Bool) :
    (ofCoefficients bit).degree < (64 : Nat) := by
  refine (degree_lt_iff_coeff_zero _ _).mpr fun k past => ?_
  rw [coeff_ofCoefficients, if_neg fun inside => Nat.not_lt.mpr past inside.1]

theorem monic_divisor : divisor.Monic :=
  monic_X_pow_add (degree_ofCoefficients_lt _)

theorem degree_divisor : divisor.degree = (64 : Nat) := by
  rw [divisor, degree_add_eq_left_of_degree_lt, degree_X_pow]
  rw [degree_X_pow]
  exact degree_ofCoefficients_lt _

theorem ofCoefficients_xor (a b : Nat → Bool) :
    ofCoefficients (fun k => a k ^^ b k) = ofCoefficients a + ofCoefficients b := by
  ext k
  rw [coeff_add, coeff_ofCoefficients, coeff_ofCoefficients, coeff_ofCoefficients]
  by_cases inside : k < 64
  · cases a k <;> cases b k <;> simp [inside, CharTwo.add_self_eq_zero]
  · simp [inside]

theorem residue_xor (a b : UInt64) : residue (a ^^^ b) = residue a + residue b := by
  rw [residue, residue, residue, ← ofCoefficients_xor]
  simp only [UInt64.toNat_xor, Nat.testBit_xor]

theorem residue_generator :
    residue generator = ofCoefficients (Nat.testBit 0x42F0E1EBA9EA3693) := by
  have reversed : ∀ k < 64,
      generator.toNat.testBit (63 - k) = Nat.testBit 0x42F0E1EBA9EA3693 k := by
    decide
  ext k
  rw [residue, coeff_ofCoefficients, coeff_ofCoefficients]
  exact if_congr (and_congr_right fun inside => by rw [reversed k inside]) rfl rfl

theorem residue_zero : residue 0 = 0 := by
  ext k
  simp [residue, coeff_ofCoefficients]

theorem residue_one : residue 1 = X ^ 63 := by
  ext k
  rw [residue, coeff_ofCoefficients, coeff_X_pow]
  refine if_congr ?_ rfl rfl
  rw [UInt64.toNat_one, Nat.testBit_one_eq_true_iff_self_eq_zero]
  omega

/-- The low bit of the register has the highest power, and the shift takes it out. -/
theorem X_mul_residue (word : UInt64) :
    X * residue word = residue (word >>> 1) + if word.toNat.testBit 0 then X ^ 64 else 0 := by
  have half (j : Nat) : (word >>> 1).toNat.testBit j = word.toNat.testBit (j + 1) := by
    rw [toNat_half, Nat.testBit_succ]
  ext k
  cases k with
  | zero =>
      have top : word.toNat.testBit 64 = false := Nat.testBit_eq_false_of_lt word.toNat_lt
      cases word.toNat.testBit 0 <;> simp [residue, coeff_ofCoefficients, top, coeff_X_pow]
  | succ k =>
      rw [coeff_X_mul, coeff_add, residue, residue, coeff_ofCoefficients, coeff_ofCoefficients,
        half]
      rcases Nat.lt_trichotomy k 63 with below | rfl | past
      · have place : 63 - (k + 1) + 1 = 63 - k := by omega
        have inside : k + 1 < 64 := by omega
        have other : k + 1 ≠ 64 := by omega
        rw [place]
        cases word.toNat.testBit 0 <;> simp [inside, Nat.lt_of_succ_lt inside, coeff_X_pow, other]
      · cases word.toNat.testBit 0 <;> simp [coeff_X_pow]
      · have outside : ¬k < 64 := by omega
        have outside' : ¬k + 1 < 64 := by omega
        have other : k + 1 ≠ 64 := by omega
        cases word.toNat.testBit 0 <;> simp [outside, outside', coeff_X_pow, other]

/-- A shift is a multiplication by `X`, reduced once when the power reaches the degree
of the divisor. -/
theorem X_mul_residue_eq_shift (word : UInt64) : X * residue word =
    residue (shift word) + divisor * if word.toNat.testBit 0 then 1 else 0 := by
  have taken : residue (taken word) =
      if word.toNat.testBit 0 then ofCoefficients (Nat.testBit 0x42F0E1EBA9EA3693) else 0 := by
    simp only [taken, Nat.testBit_zero, decide_eq_true_eq]
    split
    · exact residue_generator
    · exact residue_zero
  rw [X_mul_residue, shift_eq, residue_xor, taken, add_assoc]
  congr 1
  cases word.toNat.testBit 0 with
  | false => simp
  | true =>
      simp only [if_true, mul_one, divisor]
      rw [add_left_comm, CharTwo.add_self_eq_zero, add_zero]

theorem X_mul_residue_eq_enter (register : UInt64) (bit : Bool) :
    ∃ quotient, X * residue register + (if bit then X ^ 64 else 0) =
      residue (enter register bit) + divisor * quotient := by
  have met : X * residue (register ^^^ bit.toUInt64) =
      X * residue register + if bit then X ^ 64 else 0 := by
    rw [residue_xor, mul_add]
    cases bit with
    | false => rw [show false.toUInt64 = 0 from rfl, residue_zero, mul_zero]; rfl
    | true => rw [show true.toUInt64 = 1 from rfl, residue_one, ← pow_succ']; rfl
  exact ⟨_, by rw [← met, X_mul_residue_eq_shift, enter_eq]⟩

/-- Induction on the bits: what is in the register moves up one power with each bit that enters. -/
theorem exists_quotient_serial (register : UInt64) (bits : List Bool) :
    ∃ quotient, residue register * X ^ bits.length + message bits * X ^ 64 =
      residue (serial register bits) + divisor * quotient := by
  induction bits generalizing register with
  | nil => exact ⟨0, by simp [serial, message]⟩
  | cons bit rest ih =>
      obtain ⟨own, entered⟩ := X_mul_residue_eq_enter register bit
      obtain ⟨later, whole⟩ := ih (enter register bit)
      refine ⟨own * X ^ rest.length + later, ?_⟩
      have lifted : (if bit then X ^ rest.length else 0) * X ^ 64 =
          (if bit then (X : (ZMod 2)[X]) ^ 64 else 0) * X ^ rest.length := by
        cases bit
        · simp
        · simp only [if_true, mul_comm]
      calc residue register * X ^ (rest.length + 1) + message (bit :: rest) * X ^ 64
          = (X * residue register + if bit then X ^ 64 else 0) * X ^ rest.length +
              message rest * X ^ 64 := by
            rw [message, add_mul, lifted]
            ring
        _ = residue (enter register bit) * X ^ rest.length + message rest * X ^ 64 +
              divisor * (own * X ^ rest.length) := by
            rw [entered]
            ring
        _ = residue (serial register (bit :: rest)) +
            divisor * (own * X ^ rest.length + later) := by
            rw [whole, serial, serial, List.foldl_cons]
            ring

theorem residue_serial (register : UInt64) (bits : List Bool) : residue (serial register bits) =
    (residue register * X ^ bits.length + message bits * X ^ 64) %ₘ divisor := by
  obtain ⟨quotient, whole⟩ := exists_quotient_serial register bits
  refine ((div_modByMonic_unique quotient _ monic_divisor ⟨whole.symm, ?_⟩).2).symm
  rw [degree_divisor]
  exact degree_ofCoefficients_lt _

/-- Chunks fed one after another leave the register of the whole message, which is that of its bits
entering one by one. From a clear register it is the remainder of the message, times `X ^ 64`, by
the divisor. -/
theorem update_is_remainder :
    (∀ (register : UInt64) (chunks : List (Array UInt8)),
      chunks.foldl update register = update register (joined chunks) ∧
      running register chunks = (List.range chunks.length).map (fun k =>
        update register (joined (chunks.take (k + 1)))) ∧
      update register (joined chunks) = serial register (messageBits (joined chunks))) ∧
    ∀ bytes : Array UInt8,
      residue (ofBytes bytes) = (message (messageBits bytes) * X ^ 64) %ₘ divisor := by
  refine ⟨fun register chunks => ⟨?_, running_eq register chunks, update_eq_serial _ _⟩,
    fun bytes => ?_⟩
  · exact foldl_update (fun chunk => chunk) chunks register
  · rw [ofBytes, update_eq_serial, residue_serial, residue_zero, zero_mul, zero_add]

end AttentionMask.Crc64
