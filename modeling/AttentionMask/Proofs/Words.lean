import AttentionMask.Walk
import Mathlib.Algebra.Group.Nat.Defs

/-! Signed and unsigned words read as integers. A signed word holds `-2 ^ 63, …, 2 ^ 63 - 1`; sums
and differences that stay there are exact. -/

namespace AttentionMask.Words

/-- A signed word holds the integer. -/
structure Holds (v : Int) : Prop where
  low : -9223372036854775808 ≤ v
  high : v < 9223372036854775808

theorem bmod_word {v : Int} (h : Holds v) : v.bmod (2 ^ 64) = v := by
  obtain ⟨low, high⟩ := h
  exact Int.bmod_eq_of_le (by omega) (by omega)

theorem toInt_add {a b : Int64} (h : Holds (a.toInt + b.toInt)) :
    (a + b).toInt = a.toInt + b.toInt :=
  (Int64.toInt_add a b).trans (bmod_word h)

theorem toInt_sub {a b : Int64} (h : Holds (a.toInt - b.toInt)) :
    (a - b).toInt = a.toInt - b.toInt :=
  (Int64.toInt_sub a b).trans (bmod_word h)

theorem toInt_mul {a b : Int64} (h : Holds (a.toInt * b.toInt)) :
    (a * b).toInt = a.toInt * b.toInt :=
  (Int64.toInt_mul a b).trans (bmod_word h)

theorem toInt_neg {a : Int64} (h : Holds (-a.toInt)) : (-a).toInt = -a.toInt :=
  (Int64.toInt_neg a).trans (bmod_word h)

@[simp] theorem toInt_max (a b : Int64) : (max a b).toInt = max a.toInt b.toInt := by
  rw [show max a b = if a ≤ b then b else a from rfl]
  split <;> rename_i h <;> rw [Int64.le_iff_toInt_le] at h <;> omega

@[simp] theorem toInt_min (a b : Int64) : (min a b).toInt = min a.toInt b.toInt := by
  rw [show min a b = if a ≤ b then a else b from rfl]
  split <;> rename_i h <;> rw [Int64.le_iff_toInt_le] at h <;> omega

@[simp] theorem toNat_max (a b : UInt64) : (max a b).toNat = max a.toNat b.toNat := by
  rw [show max a b = if a ≤ b then b else a from rfl]
  split <;> rename_i h <;> rw [UInt64.le_iff_toNat_le] at h <;> omega

theorem toNat_toUInt64 {a : Int64} (h : 0 ≤ a.toInt) : a.toUInt64.toNat = a.toInt.toNat :=
  Int64.toNat_toUInt64_of_le (Int64.le_iff_toInt_le.mpr h)

theorem toNat_ofNat {k : Nat} (h : k < 2 ^ 64) : (UInt64.ofNat k).toNat = k :=
  UInt64.toNat_ofNat_of_lt' h

theorem ofNat_lt {n : UInt64} {k : Nat} (h : k < n.toNat) : UInt64.ofNat k < n := by
  have top := n.toNat_lt
  rwa [UInt64.lt_iff_toNat_lt, toNat_ofNat (by omega)]

theorem toNat_add_one {a : UInt64} (h : a.toNat + 1 < 2 ^ 64) :
    (a + 1).toNat = a.toNat + 1 := by
  rw [UInt64.toNat_add]
  exact Nat.mod_eq_of_lt h

theorem toNat_add {a b : UInt64} (h : a.toNat + b.toNat < 2 ^ 64) :
    (a + b).toNat = a.toNat + b.toNat := by
  rw [UInt64.toNat_add]
  exact Nat.mod_eq_of_lt h

theorem toNat_mul {a b : UInt64} (h : a.toNat * b.toNat < 2 ^ 64) :
    (a * b).toNat = a.toNat * b.toNat := by
  rw [UInt64.toNat_mul]
  exact Nat.mod_eq_of_lt h

theorem toNat_sub_one {a : UInt64} (h : 0 < a.toNat) : (a - 1).toNat = a.toNat - 1 :=
  UInt64.toNat_sub_of_le a 1 (UInt64.le_iff_toNat_le.mpr h)

end AttentionMask.Words

namespace AttentionMask.Walk

theorem upTo_zero (last : Int64) :
    upTo 0 last = (List.range (last.toInt + 1).toNat).map Int64.ofNat := by
  simp [upTo]

end AttentionMask.Walk
