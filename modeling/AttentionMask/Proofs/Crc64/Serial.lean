import AttentionMask.Crc64
import Mathlib.Data.Nat.Bitwise

/-! The check value bit by bit. Shifting the register is linear in exclusive or, so the table
entry of a byte stands for eight single steps, and taking in bytes through the table is the
same as letting their bits meet the low end of the register one at a time. Chunks may be fed
one after another. -/

namespace AttentionMask.Crc64

/-- The bits of a byte, low bit first. -/
def bits (byte : UInt8) : List Bool :=
  (List.range 8).map byte.toNat.testBit

/-- The bits of a message in the order in which they enter. -/
def messageBits (bytes : Array UInt8) : List Bool :=
  bytes.toList.flatMap bits

/-- One bit meets the low end of the register and leaves with it. -/
def enter (register : UInt64) (bit : Bool) : UInt64 :=
  let met := register ^^^ bit.toUInt64
  if met &&& 1 = 1 then (met >>> 1) ^^^ 0xC96C5795D7870F42 else met >>> 1

def serial (register : UInt64) (bits : List Bool) : UInt64 :=
  bits.foldl enter register

/-- The chunks, one after another, as one message. -/
def joined (chunks : List (Array UInt8)) : Array UInt8 :=
  (chunks.flatMap Array.toList).toArray

theorem enter_eq (register : UInt64) (bit : Bool) :
    enter register bit = shift (register ^^^ bit.toUInt64) :=
  rfl

theorem serial_append (register : UInt64) (a b : List Bool) :
    serial register (a ++ b) = serial (serial register a) b :=
  List.foldl_append

theorem and_one_eq_one_iff {word : UInt64} : word &&& 1 = 1 ↔ word.toNat % 2 = 1 := by
  rw [← UInt64.toNat_inj, UInt64.toNat_and, ← Nat.and_one_is_mod]
  rfl

/-- What a shift adds for the bit that leaves. -/
def taken (word : UInt64) : UInt64 :=
  if word.toNat % 2 = 1 then generator else 0

theorem shift_eq (word : UInt64) : shift word = (word >>> 1) ^^^ taken word := by
  simp only [shift, taken, and_one_eq_one_iff]
  split
  · rfl
  · exact UInt64.xor_zero.symm

theorem taken_xor (a b : UInt64) : taken (a ^^^ b) = taken a ^^^ taken b := by
  have parity : (a ^^^ b).toNat % 2 = (a.toNat + b.toNat) % 2 := by
    rw [UInt64.toNat_xor, Nat.xor_mod_two_eq]
  rcases Nat.mod_two_eq_zero_or_one a.toNat with even | odd <;>
    rcases Nat.mod_two_eq_zero_or_one b.toNat with even' | odd' <;>
      simp [taken, Nat.add_mod, *]

theorem shift_xor (a b : UInt64) : shift (a ^^^ b) = shift a ^^^ shift b := by
  simp only [shift_eq, taken_xor, UInt64.shiftRight_xor]
  ac_rfl

theorem shifts_xor (a b : UInt64) (count : Nat) :
    shifts (a ^^^ b) count = shifts a count ^^^ shifts b count := by
  induction count generalizing a b with
  | zero => rfl
  | succ count ih => rw [shifts, shift_xor, ih, shifts, shifts]

theorem toNat_shiftRight (word : UInt64) (count : Nat) (short : count < 64) :
    (word >>> UInt64.ofNat count).toNat = word.toNat / 2 ^ count := by
  have amount : (UInt64.ofNat count).toNat = count :=
    UInt64.toNat_ofNat_of_lt' (Nat.lt_trans short (by decide))
  rw [UInt64.toNat_shiftRight, amount, Nat.mod_eq_of_lt short, Nat.shiftRight_eq_div_pow]

theorem toNat_half (word : UInt64) : (word >>> 1).toNat = word.toNat / 2 :=
  toNat_shiftRight word 1 (by decide)

theorem shiftRight_eq_zero {word : UInt64} (small : word.toNat < 2 ^ 8) : word >>> 8 = 0 :=
  UInt64.toNat_inj.mp ((toNat_shiftRight word 8 (by decide)).trans (Nat.div_eq_of_lt small))

/-- A word whose low bits are clear only moves down. -/
theorem shifts_of_dvd {word : UInt64} {count : Nat} (short : count < 64)
    (clear : 2 ^ count ∣ word.toNat) : shifts word count = word >>> UInt64.ofNat count := by
  induction count generalizing word with
  | zero => exact UInt64.shiftRight_zero.symm
  | succ count ih =>
      obtain ⟨rest, whole⟩ := clear
      rw [Nat.pow_succ, Nat.mul_comm (2 ^ count), Nat.mul_assoc] at whole
      have even : taken word = 0 := if_neg (by omega)
      have half : (word >>> 1).toNat = 2 ^ count * rest := by
        rw [toNat_half]
        omega
      rw [shifts, shift_eq, even, UInt64.xor_zero, ih (by omega) (Dvd.intro rest half.symm)]
      refine UInt64.toNat_inj.mp ?_
      rw [toNat_shiftRight _ _ (by omega), toNat_shiftRight _ _ short, toNat_half,
        Nat.div_div_eq_div_mul, Nat.pow_succ']

/-- A whole word that meets the register is its low bit, and the rest one place further on. -/
theorem shift_xor_word (register word : UInt64) :
    shift (register ^^^ word) = enter register (word.toNat.testBit 0) ^^^ (word >>> 1) := by
  have low : (word.toNat.testBit 0).toUInt64.toNat = word.toNat % 2 := by
    rcases Nat.mod_two_eq_zero_or_one word.toNat with even | odd
    · rw [Nat.testBit_zero, even]
      rfl
    · rw [Nat.testBit_zero, odd]
      rfl
  have bit : taken (word.toNat.testBit 0).toUInt64 = taken word := by
    rw [taken, low, Nat.mod_mod, taken]
  have gone : (word.toNat.testBit 0).toUInt64 >>> 1 = 0 := by
    cases word.toNat.testBit 0 <;> rfl
  rw [enter_eq, shift_xor, shift_xor, shift_eq word, shift_eq (word.toNat.testBit 0).toUInt64, bit,
    gone, UInt64.zero_xor]
  ac_rfl

/-- The low bits of a word, entered one by one, are the word met at once. -/
theorem serial_range (register word : UInt64) (count : Nat) (small : word.toNat < 2 ^ count) :
    serial register ((List.range count).map word.toNat.testBit) =
      shifts (register ^^^ word) count := by
  induction count generalizing register word with
  | zero =>
      obtain rfl : word = 0 := UInt64.toNat_inj.mp (Nat.lt_one_iff.mp small)
      exact UInt64.xor_zero.symm
  | succ count ih =>
      have rest : word.toNat.testBit ∘ Nat.succ = (word >>> 1).toNat.testBit := by
        funext k
        rw [Function.comp_apply, Nat.succ_eq_add_one, Nat.testBit_succ, toNat_half]
      have smaller : (word >>> 1).toNat < 2 ^ count := by
        rw [Nat.pow_succ] at small
        rw [toNat_half]
        omega
      rw [List.range_succ_eq_map, List.map_cons, List.map_map, rest, shifts, shift_xor_word,
        ← ih _ _ smaller]
      rfl

/-- The table entry stands for eight shifts of the byte that met the register. -/
theorem step_eq_shifts (register : UInt64) (byte : UInt8) :
    step register byte = shifts (register ^^^ byte.toUInt64) 8 := by
  have met : (register ^^^ byte.toUInt64) >>> 8 = register >>> 8 := by
    have gone : byte.toUInt64 >>> 8 = 0 := shiftRight_eq_zero byte.toNat_lt
    rw [UInt64.shiftRight_xor, gone, UInt64.xor_zero]
  have low : (UInt64.ofNat (slot register byte).val).toNat =
      (register ^^^ byte.toUInt64).toNat % 2 ^ 8 := by
    rw [UInt64.toNat_ofNat_of_lt' (Nat.lt_trans (slot register byte).isLt (by decide))]
    exact UInt64.toNat_toUInt8 _
  have entry : table[slot register byte] = shifts (UInt64.ofNat (slot register byte).val) 8 :=
    Vector.getElem_ofFn _
  rw [step, entry, ← met]
  generalize register ^^^ byte.toUInt64 = word at low
  generalize UInt64.ofNat (slot register byte).val = part at low
  -- Without its low byte the word only moves down, and the low byte is gone after eight places.
  have clear : 2 ^ 8 ∣ (word ^^^ part).toNat := by
    refine Nat.dvd_of_mod_eq_zero ?_
    rw [UInt64.toNat_xor, Nat.xor_mod_two_pow, low, Nat.mod_mod, Nat.xor_self]
  have gone : part >>> 8 = 0 := shiftRight_eq_zero (low ▸ Nat.mod_lt _ (by decide))
  have split : word = (word ^^^ part) ^^^ part := by
    rw [UInt64.xor_assoc, UInt64.xor_self, UInt64.xor_zero]
  have high : shifts (word ^^^ part) 8 = word >>> 8 := by
    have moved : shifts (word ^^^ part) 8 = (word ^^^ part) >>> 8 := shifts_of_dvd (by decide) clear
    rw [moved, UInt64.shiftRight_xor, gone, UInt64.xor_zero]
  conv_rhs => rw [split, shifts_xor, high]

theorem step_eq_serial (register : UInt64) (byte : UInt8) :
    step register byte = serial register (bits byte) := by
  rw [step_eq_shifts, ← serial_range register byte.toUInt64 8 byte.toNat_lt]
  rfl

theorem update_eq_serial (register : UInt64) (bytes : Array UInt8) :
    update register bytes = serial register (messageBits bytes) := by
  obtain ⟨bytes⟩ := bytes
  simp only [update, List.foldl_toArray, messageBits]
  induction bytes generalizing register with
  | nil => rfl
  | cons byte rest ih => rw [List.foldl_cons, ih, step_eq_serial, List.flatMap_cons, serial_append]

theorem foldl_update {ι : Type} (chunk : ι → Array UInt8) (order : List ι) (register : UInt64) :
    order.foldl (fun register i => update register (chunk i)) register =
      update register (order.flatMap fun i => (chunk i).toList).toArray := by
  induction order generalizing register with
  | nil => rfl
  | cons i rest ih =>
      rw [List.foldl_cons, ih, ← update_append]
      congr 1
      exact Array.ext' (by simp)

/-- After each chunk the register is that of all chunks so far, fed as one. -/
theorem running_eq (register : UInt64) (chunks : List (Array UInt8)) :
    running register chunks =
      (List.range chunks.length).map fun k => update register (joined (chunks.take (k + 1))) := by
  induction chunks generalizing register with
  | nil => rfl
  | cons chunk rest ih =>
      have whole (k : Nat) : update (update register chunk) (joined (rest.take (k + 1))) =
          update register (joined ((chunk :: rest).take (k + 1 + 1))) := by
        rw [← update_append]
        congr 1
        exact Array.ext' (by simp [joined])
      have first : update register chunk = update register (joined ((chunk :: rest).take 1)) := by
        congr 1
        exact Array.ext' (by simp [joined])
      rw [running, ih, List.length_cons, List.range_succ_eq_map, List.map_cons, List.map_map,
        ← first]
      exact congrArg _ (List.map_congr_left fun k _ => whole k)

end AttentionMask.Crc64
