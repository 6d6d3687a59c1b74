import AttentionMask.Storage
import AttentionMask.Proofs.Size

/-! The room of padded images. Of the images whose lines are not rounded to zero, those of fewer
than `2 ^ 32` rows fit, and in these every byte of a row has a place of its own. -/

namespace AttentionMask.Storage

/-- The bytes of the whole lines that hold `n` bytes. -/
def wholeLines (n : Nat) : Nat :=
  (n + 63) / 64 * 64

theorem isLeast_wholeLines (n : Nat) : IsLeast {k | 64 ∣ k ∧ n ≤ k} (wholeLines n) := by
  refine ⟨⟨Nat.dvd_mul_left 64 _, ?_⟩, ?_⟩
  · rw [wholeLines]
    omega
  · rintro k ⟨⟨lines, rfl⟩, above⟩
    rw [wholeLines]
    omega

theorem le_wholeLines (n : Nat) : n ≤ wholeLines n :=
  (isLeast_wholeLines n).1.2

theorem wholeLines_mul_lt_iff {n : Nat} : wholeLines n * n < 2 ^ 64 ↔ n < 2 ^ 32 := by
  constructor
  · intro fits
    refine Nat.lt_of_not_le fun rows => ?_
    have square := Nat.mul_le_mul (Nat.le_trans rows (le_wholeLines n)) rows
    omega
  · intro short
    have narrow : wholeLines n ≤ 2 ^ 32 := by
      rw [wholeLines]
      omega
    calc wholeLines n * n ≤ 2 ^ 32 * (2 ^ 32 - 1) := Nat.mul_le_mul narrow (by omega)
      _ < 2 ^ 64 := by decide

theorem toNat_stride {n : UInt64} (room : n.toNat + 64 ≤ 2 ^ 64) :
    (stride n).toNat = wholeLines n.toNat :=
  Size.toNat_roundUp (k := 6) rfl room

theorem isLeast_stride {n : UInt64} (room : n.toNat + 64 ≤ 2 ^ 64) :
    IsLeast {k | 64 ∣ k ∧ n.toNat ≤ k} (stride n).toNat :=
  Size.isLeast_roundUp (k := 6) rfl room

theorem stride_of_wide {n : UInt64} (wide : 2 ^ 64 < n.toNat + 64) : stride n = 0 :=
  Size.roundUp_of_wide (k := 6) rfl wide

theorem le_stride {n : UInt64} (room : n.toNat + 64 ≤ 2 ^ 64) : n.toNat ≤ (stride n).toNat := by
  rw [toNat_stride room]
  exact le_wholeLines n.toNat

theorem length_mul_stride_lt {n : UInt64} (short : n.toNat < 2 ^ 32) :
    n.toNat * (stride n).toNat < 2 ^ 64 := by
  rw [toNat_stride (by omega), Nat.mul_comm]
  exact wholeLines_mul_lt_iff.mpr short

/-- The bytes of a row end before any later row starts, and those of the last row
inside the image. -/
theorem stretch_le {n : UInt64} (short : n.toNat < 2 ^ 32) {i j : Nat} (less : i < j) :
    i * (stride n).toNat + n.toNat ≤ j * (stride n).toNat := by
  have wide := le_stride (n := n) (by omega)
  have next := Nat.mul_le_mul_right (stride n).toNat (show i + 1 ≤ j from less)
  rw [Nat.succ_mul] at next
  omega

theorem imageBytes_of_short {n : UInt64} (short : n.toNat < 2 ^ 32) :
    ∃ total, imageBytes n = .ok total ∧ total.toNat = n.toNat * (stride n).toNat := by
  have fits : (stride n).toNat * n.toNat < 2 ^ 64 := by
    rw [Nat.mul_comm]
    exact length_mul_stride_lt short
  exact ⟨stride n * n, Size.product_of_lt fits, by rw [Words.toNat_mul fits, Nat.mul_comm]⟩

theorem short_of_imageBytes {n total : UInt64} (room : n.toNat + 64 ≤ 2 ^ 64)
    (done : imageBytes n = .ok total) : n.toNat < 2 ^ 32 := by
  have size := Size.toNat_of_product done
  rw [toNat_stride room] at size
  exact wholeLines_mul_lt_iff.mp (size ▸ total.toNat_lt)

theorem toNat_cell {n i j : UInt64} (short : n.toNat < 2 ^ 32) (row : i.toNat < n.toNat)
    (key : j.toNat ≤ (stride n).toNat) :
    (i * stride n + j).toNat = i.toNat * (stride n).toNat + j.toNat := by
  have bound := length_mul_stride_lt short
  have next : (i.toNat + 1) * (stride n).toNat ≤ n.toNat * (stride n).toNat :=
    Nat.mul_le_mul_right _ row
  rw [Nat.succ_mul] at next
  have product := Words.toNat_mul (a := i) (b := stride n) (by omega)
  rw [Words.toNat_add (by omega), product]

end AttentionMask.Storage
