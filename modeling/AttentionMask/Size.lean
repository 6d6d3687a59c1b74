/-! Byte counts held in 64-bit words. A product that needs more than 64 bits is refused together
with its factors; rounding up to a grain is plain word arithmetic, so lengths above the last
multiple of the grain wrap to zero. -/

namespace AttentionMask.Size

/-- The two factors of a product that does not fit in a word. -/
structure Overflow where
  left : UInt64
  right : UInt64
deriving DecidableEq

/-- The exact product, or its factors when it reaches `2 ^ 64`. -/
def product (a b : UInt64) : Except Overflow UInt64 :=
  if a.toNat * b.toNat < UInt64.size then .ok (a * b) else .error ⟨a, b⟩

/-- Round up to a multiple of `grain`, a power of two, by clearing the low bits. -/
def roundUp (grain m : UInt64) : UInt64 :=
  (m + grain - 1) &&& ~~~(grain - 1)

theorem product_of_lt {a b : UInt64} (h : a.toNat * b.toNat < UInt64.size) :
    product a b = .ok (a * b) :=
  if_pos h

theorem product_of_ge {a b : UInt64} (h : UInt64.size ≤ a.toNat * b.toNat) :
    product a b = .error ⟨a, b⟩ :=
  if_neg (Nat.not_lt.mpr h)

theorem toNat_of_product {a b c : UInt64} (h : product a b = .ok c) :
    c.toNat = a.toNat * b.toNat := by
  unfold product at h
  split at h
  · rename_i fits
    cases h
    exact (UInt64.toNat_mul a b).trans (Nat.mod_eq_of_lt fits)
  · cases h

end AttentionMask.Size
