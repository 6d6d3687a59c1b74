import AttentionMask.Proofs.Crc64.Serial
import Mathlib.Data.Nat.Digits.Lemmas

/-! What a check value tells apart. A shift loses nothing: the generator has its top bit set, so a
bit that left the register shows there. Hence no message makes two registers one. Up to eight bytes
meet the register as a single word before any of their bits leaves, so different bytes leave
different registers, and these stay different under whatever follows. -/

namespace AttentionMask.Crc64

open Function

theorem taken_ne_half {word : UInt64} (odd : word.toNat % 2 = 1) : word >>> 1 ≠ taken word := by
  intro same
  have half := toNat_half word
  have top := word.toNat_lt
  rw [same, taken, if_pos odd] at half
  -- The generator has its top bit set, half a word has not.
  have size : generator.toNat = 0xC96C5795D7870F42 := rfl
  omega

theorem shift_eq_zero {word : UInt64} (gone : shift word = 0) : word = 0 := by
  rw [shift_eq, UInt64.xor_eq_zero_iff] at gone
  have even : word.toNat % 2 ≠ 1 := fun odd => taken_ne_half odd gone
  rw [taken, if_neg even] at gone
  have half := toNat_half word
  rw [gone, UInt64.toNat_zero] at half
  refine UInt64.toNat_inj.mp ?_
  rw [UInt64.toNat_zero]
  omega

theorem shift_injective : Injective shift := by
  intro a b same
  have gone : shift (a ^^^ b) = 0 := by rw [shift_xor, same, UInt64.xor_self]
  exact UInt64.xor_eq_zero_iff.mp (shift_eq_zero gone)

theorem shifts_injective (count : Nat) : Injective fun register => shifts register count := by
  induction count with
  | zero => exact injective_id
  | succ count ih => exact ih.comp shift_injective

theorem step_injective (byte : UInt8) : Injective fun register => step register byte := by
  intro a b same
  simp only [step_eq_shifts] at same
  exact (UInt64.xor_left_inj _).mp (shifts_injective 8 same)

/-- A message takes different registers to different registers. -/
theorem update_injective (bytes : Array UInt8) :
    Injective fun register => update register bytes := by
  obtain ⟨bytes⟩ := bytes
  simp only [update, List.foldl_toArray]
  induction bytes with
  | nil => exact injective_id
  | cons byte rest ih => exact ih.comp (step_injective byte)

/-- The number whose digits to the base 256 are the bytes, the first of them lowest. -/
def littleEndian (bytes : Array UInt8) : Nat :=
  Nat.ofDigits 256 (bytes.toList.map UInt8.toNat)

theorem digit_lt (bytes : Array UInt8) : ∀ digit ∈ bytes.toList.map UInt8.toNat, digit < 256 := by
  intro digit listed
  obtain ⟨byte, -, rfl⟩ := List.mem_map.mp listed
  exact byte.toNat_lt

theorem littleEndian_lt (bytes : Array UInt8) : littleEndian bytes < 2 ^ (8 * bytes.size) := by
  have bound := Nat.ofDigits_lt_base_pow_length (by decide : 1 < 256) (digit_lt bytes)
  rwa [List.length_map, Array.length_toList, show 256 = 2 ^ 8 from rfl, ← Nat.pow_mul] at bound

theorem littleEndian_inj {u v : Array UInt8} (size : u.size = v.size)
    (same : littleEndian u = littleEndian v) : u = v := by
  have digits := Nat.ofDigits_inj_of_len_eq (by decide : 1 < 256) (by simpa using size)
    (digit_lt u) (digit_lt v) same
  exact Array.toList_inj.mp (List.map_injective_iff.mpr (fun _ _ => UInt8.toNat_inj.mp) digits)

/-- The bits of a message are those of its number, from the lowest on. -/
theorem messageBits_eq (bytes : Array UInt8) :
    messageBits bytes = (List.range (8 * bytes.size)).map (littleEndian bytes).testBit := by
  obtain ⟨bytes⟩ := bytes
  simp only [messageBits, littleEndian, List.size_toArray]
  induction bytes with
  | nil => rfl
  | cons byte rest ih =>
      have digit (k : Nat) := Nat.testBit_two_pow_mul_add
        (Nat.ofDigits 256 (rest.map UInt8.toNat)) byte.toNat_lt k
      have number : Nat.ofDigits 256 ((byte :: rest).map UInt8.toNat) =
          2 ^ 8 * Nat.ofDigits 256 (rest.map UInt8.toNat) + byte.toNat := by
        rw [List.map_cons, Nat.ofDigits_cons, Nat.add_comm]
        rfl
      rw [List.flatMap_cons, ih, List.length_cons, Nat.mul_succ, Nat.add_comm, List.range_add,
        List.map_append, List.map_map, number]
      congr 1
      · exact List.map_congr_left fun k inside => by
          rw [digit, if_pos (List.mem_range.mp inside)]
      · exact List.map_congr_left fun k _ => by simp [digit]

/-- Up to eight bytes as one word. -/
def word (bytes : Array UInt8) : UInt64 :=
  UInt64.ofNat (littleEndian bytes)

theorem toNat_word {bytes : Array UInt8} (short : bytes.size ≤ 8) :
    (word bytes).toNat = littleEndian bytes := by
  have bound : 2 ^ (8 * bytes.size) ≤ 2 ^ 64 := Nat.pow_le_pow_right Nat.two_pos (by omega)
  exact UInt64.toNat_ofNat_of_lt' (Nat.lt_of_lt_of_le (littleEndian_lt bytes) bound)

/-- The word meets the register at once, before any of its bits leaves. -/
theorem update_eq_shifts (register : UInt64) {bytes : Array UInt8} (short : bytes.size ≤ 8) :
    update register bytes = shifts (register ^^^ word bytes) (8 * bytes.size) := by
  have small := littleEndian_lt bytes
  rw [← toNat_word short] at small
  rw [update_eq_serial, messageBits_eq, ← toNat_word short, serial_range _ _ _ small]

theorem update_block_inj {register : UInt64} {u v : Array UInt8} (size : u.size = v.size)
    (short : u.size ≤ 8) (same : update register u = update register v) : u = v := by
  have short' : v.size ≤ 8 := size ▸ short
  rw [update_eq_shifts register short, update_eq_shifts register short', size] at same
  have words : word u = word v := (UInt64.xor_right_inj _).mp (shifts_injective _ same)
  rw [← UInt64.toNat_inj, toNat_word short, toNat_word short'] at words
  exact littleEndian_inj size words

/-- Messages that differ in up to eight bytes in a row and nowhere else leave
different registers. -/
theorem update_ne_of_block (register : UInt64) {before u v after : Array UInt8}
    (size : u.size = v.size) (short : u.size ≤ 8) (differ : u ≠ v) :
    update register (before ++ u ++ after) ≠ update register (before ++ v ++ after) := by
  intro same
  simp only [update_append] at same
  exact differ (update_block_inj size short (update_injective after same))

theorem extract_congr {a b : Array UInt8} (size : a.size = b.size) {start stop : Nat}
    (same : ∀ k, start ≤ k → k < stop → a[k]? = b[k]?) :
    a.extract start stop = b.extract start stop := by
  refine Array.ext_getElem? fun k => ?_
  rw [Array.getElem?_extract, Array.getElem?_extract, size]
  split
  · exact same _ (by omega) (by omega)
  · rfl

/-- The bytes before a window of eight, in it and after it. -/
theorem extract_window (bytes : Array UInt8) (start : Nat) :
    bytes.extract 0 start ++ bytes.extract start (start + 8) ++
      bytes.extract (start + 8) bytes.size = bytes := by
  rw [Array.extract_append_extract, Nat.zero_min, Nat.max_eq_right (by omega),
    Array.extract_append_extract]
  simp

theorem update_ne_of_window (register : UInt64) {a b : Array UInt8} (size : a.size = b.size)
    (differ : a ≠ b) {start : Nat} (same : ∀ k, k < start ∨ start + 8 ≤ k → a[k]? = b[k]?) :
    update register a ≠ update register b := by
  have before : a.extract 0 start = b.extract 0 start :=
    extract_congr size fun k _ early => same k (.inl early)
  have after : a.extract (start + 8) a.size = b.extract (start + 8) b.size := by
    rw [← size]
    exact extract_congr size fun k late _ => same k (.inr late)
  rw [← extract_window a start, ← extract_window b start, before, after] at differ ⊢
  refine update_ne_of_block register (by simp [size]) (by simp; omega) fun block => ?_
  exact differ (by rw [block])

end AttentionMask.Crc64
