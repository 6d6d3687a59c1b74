import AttentionMask.Decimal
import AttentionMask.Proofs.Words
import Mathlib.Data.List.TakeWhile

/-! Decimal text, read and written. A text that a number is read from has four parts, and its sign
and digits alone decide the number. -/

namespace AttentionMask

section Span

variable {α : Type} {p : α → Bool} {xs rest : List α} {x : α}

theorem takeWhile_span (inside : ∀ x ∈ xs, p x = true) (head : ∀ x ∈ rest.head?, p x = false) :
    (xs ++ rest).takeWhile p = xs := by
  rw [List.takeWhile_append_of_pos inside]
  cases rest with
  | nil => exact List.append_nil xs
  | cons x rest => rw [List.takeWhile_cons_of_neg (by simp [head x rfl]), List.append_nil]

theorem dropWhile_span (inside : ∀ x ∈ xs, p x = true) (head : ∀ x ∈ rest.head?, p x = false) :
    (xs ++ rest).dropWhile p = rest := by
  rw [List.dropWhile_append_of_pos inside]
  cases rest with
  | nil => rfl
  | cons x rest => exact List.dropWhile_cons_of_neg (by simp [head x rfl])

/-- A text is cut in one way where its first part ends. -/
theorem span_inj {ys rest' : List α} (inside : ∀ x ∈ xs, p x = true)
    (head : ∀ x ∈ rest.head?, p x = false)
    (inside' : ∀ x ∈ ys, p x = true) (head' : ∀ x ∈ rest'.head?, p x = false)
    (same : xs ++ rest = ys ++ rest') : xs = ys ∧ rest = rest' := by
  constructor
  · rw [← takeWhile_span inside head, same, takeWhile_span inside' head']
  · rw [← dropWhile_span inside head, same, dropWhile_span inside' head']

theorem head_dropWhile (first : x ∈ (xs.dropWhile p).head?) : p x = false := by
  have stops := List.head?_dropWhile_not p xs
  rwa [Option.mem_def.mp first] at stops

end Span

theorem newline_not_mem_toDigits {b : Nat} (base : 1 < b) (k : Nat) : '\n' ∉ Nat.toDigits b k := by
  induction k using Nat.strong_induction_on with
  | _ k ih =>
      have digit (d : Nat) : '\n' ≠ d.digitChar := (Nat.digitChar_ne '\n' rfl).symm
      rw [Nat.toDigits_eq_if base]
      split
      · simp [digit]
      · have less : k / b < k := Nat.div_lt_self (by omega) base
        simp [digit, ih _ less]

namespace Decimal

variable {cs rest : List Char} {c : Char} {v : Int}

/-- Neither a blank nor a sign. -/
def Plain (c : Char) : Prop :=
  isBlank c = false ∧ c ≠ '+' ∧ c ≠ '-'

theorem toNat_le_of_isBlank (blank : isBlank c = true) : c.toNat ≤ 32 := by
  simp only [isBlank, Bool.or_eq_true, Bool.and_eq_true, decide_eq_true_eq] at blank
  rcases blank with rfl | ⟨-, high⟩
  · decide
  · have high' : c.toNat ≤ 13 := UInt32.le_iff_toNat_le.mp high
    omega

theorem plain_of_isDigit (digit : c.isDigit = true) : Plain c := by
  have low : 48 ≤ c.toNat := (Char.isDigit_iff_toNat.mp digit).1
  refine ⟨?_, ?_, ?_⟩
  · by_contra blank
    have high := toNat_le_of_isBlank (eq_true_of_ne_false blank)
    omega
  · rintro rfl
    exact absurd low (by decide)
  · rintro rfl
    exact absurd low (by decide)

/-- The parts of a text that a number is read from, each as long as it can be. -/
structure Numeral where
  blanks : List Char
  sign : List Char
  digits : List Char
  rest : List Char
  blank : ∀ c ∈ blanks, isBlank c = true
  signed : sign = [] ∨ sign = ['+'] ∨ sign = ['-']
  digit : ∀ c ∈ digits, c.isDigit = true
  ends : ∀ c ∈ rest.head?, c.isDigit = false
  bare : sign = [] → ∀ c ∈ (digits ++ rest).head?, Plain c

namespace Numeral

def text (n : Numeral) : List Char :=
  n.blanks ++ (n.sign ++ (n.digits ++ n.rest))

/-- No digits count as zero. -/
def size (n : Numeral) : Nat :=
  Nat.ofDigitChars 10 n.digits 0

def value (n : Numeral) : Int :=
  if n.sign = ['-'] then -n.size else n.size

theorem dropWhile_text (n : Numeral) :
    n.text.dropWhile isBlank = n.sign ++ (n.digits ++ n.rest) := by
  refine dropWhile_span n.blank fun c first => ?_
  rcases n.signed with bare | plus | minus
  · rw [bare, List.nil_append] at first
    exact (n.bare bare c first).1
  · rw [plus] at first
    obtain rfl := Option.some.inj first
    rfl
  · rw [minus] at first
    obtain rfl := Option.some.inj first
    rfl

theorem leading_text (n : Numeral) : leading n.text = n.value := by
  have digits : magnitude (n.digits ++ n.rest) = n.size :=
    congrArg (Nat.ofDigitChars 10 · 0) (takeWhile_span n.digit n.ends)
  rw [leading, n.dropWhile_text, value, ← digits]
  rcases n.signed with bare | plus | minus
  · have plain := n.bare bare
    rw [bare, List.nil_append, if_neg (by simp)]
    split
    case h_1 rest same => exact absurd rfl (plain '-' (by rw [same]; rfl)).2.2
    case h_2 rest same => exact absurd rfl (plain '+' (by rw [same]; rfl)).2.1
    case h_3 => rfl
  · rw [plus, if_neg (by decide)]
    rfl
  · rw [minus, if_pos rfl]
    rfl

end Numeral

theorem exists_sign (cs : List Char) : ∃ sign rest, cs = sign ++ rest ∧
    (sign = [] ∨ sign = ['+'] ∨ sign = ['-']) ∧
      (sign = [] → ∀ c ∈ rest.head?, c ≠ '+' ∧ c ≠ '-') := by
  cases cs with
  | nil => exact ⟨[], [], rfl, .inl rfl, nofun⟩
  | cons c cs =>
      by_cases plus : c = '+'
      · exact ⟨['+'], cs, plus ▸ rfl, .inr (.inl rfl), nofun⟩
      by_cases minus : c = '-'
      · exact ⟨['-'], cs, minus ▸ rfl, .inr (.inr rfl), nofun⟩
      · refine ⟨[], c :: cs, rfl, .inl rfl, fun _ d first => ?_⟩
        obtain rfl := Option.some.inj first
        exact ⟨plus, minus⟩

theorem exists_numeral (cs : List Char) : ∃ n : Numeral, n.text = cs := by
  obtain ⟨sign, rest, parts, signed, unsigned⟩ := exists_sign (cs.dropWhile isBlank)
  have digits : rest.takeWhile Char.isDigit ++ rest.dropWhile Char.isDigit = rest :=
    List.takeWhile_append_dropWhile
  have whole : cs.takeWhile isBlank ++
      (sign ++ (rest.takeWhile Char.isDigit ++ rest.dropWhile Char.isDigit)) = cs := by
    rw [digits, ← parts]
    exact List.takeWhile_append_dropWhile
  refine ⟨{
    blanks := cs.takeWhile isBlank
    sign
    digits := rest.takeWhile Char.isDigit
    rest := rest.dropWhile Char.isDigit
    blank := fun _ => List.mem_takeWhile_imp
    signed
    digit := fun _ => List.mem_takeWhile_imp
    ends := fun _ => head_dropWhile
    bare := fun bare c first => ?_ }, whole⟩
  rw [digits] at first
  rw [bare, List.nil_append] at parts
  exact ⟨head_dropWhile (parts ▸ first), unsigned bare c first⟩

/-- The text starts with the number. -/
def Reads (cs : List Char) (v : Int) : Prop :=
  ∃ n : Numeral, n.text = cs ∧ n.value = v

theorem leading_eq_iff : leading cs = v ↔ Reads cs v := by
  refine ⟨fun same => ?_, fun ⟨n, text, value⟩ => ?_⟩
  · obtain ⟨n, text⟩ := exists_numeral cs
    exact ⟨n, text, by rw [← n.leading_text, text, same]⟩
  · rw [← text, n.leading_text, value]

theorem isDigit_of_mem_digits {k : Nat} : ∀ c ∈ Nat.toDigits 10 k, c.isDigit = true :=
  fun _ => Nat.isDigit_of_mem_toDigits (by decide) (by decide)

theorem isDigit_of_head {k : Nat} (first : c ∈ (Nat.toDigits 10 k ++ rest).head?) :
    c.isDigit = true := by
  obtain ⟨d, ds, digits⟩ := List.exists_cons_of_ne_nil (Nat.toDigits_ne_nil (n := k) (b := 10))
  rw [digits] at first
  obtain rfl := Option.some.inj first
  exact isDigit_of_mem_digits d (digits ▸ List.mem_cons_self)

/-- A sign, if any, and all digits of a number. -/
def Numeral.ofDigits (sign : List Char) (signed : sign = [] ∨ sign = ['+'] ∨ sign = ['-'])
    (k : Nat) : Numeral where
  blanks := []
  sign
  digits := Nat.toDigits 10 k
  rest := []
  blank := nofun
  signed
  digit := isDigit_of_mem_digits
  ends := nofun
  bare _ _ first := plain_of_isDigit (isDigit_of_head first)

theorem leading_digits {sign : List Char} (signed : sign = [] ∨ sign = ['+'] ∨ sign = ['-'])
    (k : Nat) :
    leading (sign ++ Nat.toDigits 10 k) = if sign = ['-'] then -(k : Int) else k := by
  have text : (Numeral.ofDigits sign signed k).text = sign ++ Nat.toDigits 10 k :=
    congrArg (sign ++ ·) (List.append_nil _)
  have size : (Numeral.ofDigits sign signed k).size = k := Nat.ofDigitChars_ten_toDigits
  rw [← text, Numeral.leading_text, Numeral.value, size]
  rfl

/-- A number that is written is read back. -/
@[simp] theorem leading_ofUnsigned (value : UInt64) :
    leading (ofUnsigned value).toList = value.toNat := by
  rw [ofUnsigned, Nat.toList_repr]
  exact leading_digits (.inl rfl) value.toNat

@[simp] theorem leading_ofSigned (value : Int64) :
    leading (ofSigned value).toList = value.toInt := by
  rw [ofSigned, Int.repr_eq_if]
  split
  · rename_i nonneg
    rw [Nat.toList_repr]
    exact (leading_digits (.inl rfl) _).trans (Int.toNat_of_nonneg nonneg)
  · rename_i negative
    rw [String.toList_append, Nat.toList_repr]
    refine (leading_digits (.inr (.inr rfl)) _).trans ?_
    rw [if_pos rfl, Int.toNat_of_nonneg (by omega), Int.neg_neg]

theorem ofUnsigned_inj {value value' : UInt64} :
    ofUnsigned value = ofUnsigned value' ↔ value = value' := by
  refine ⟨fun same => UInt64.toNat_inj.mp (Int.ofNat_inj.mp ?_), congrArg ofUnsigned⟩
  rw [← leading_ofUnsigned, same, leading_ofUnsigned]

theorem ofSigned_inj {value value' : Int64} :
    ofSigned value = ofSigned value' ↔ value = value' := by
  refine ⟨fun same => Int64.toInt_inj.mp ?_, congrArg ofSigned⟩
  rw [← leading_ofSigned, same, leading_ofSigned]

theorem ofSigned_append_left_inj {value value' : Int64} {t : String} :
    ofSigned value ++ t = ofSigned value' ++ t ↔ value = value' :=
  (String.append_left_inj t).trans ofSigned_inj

theorem isDigit_of_mem_ofUnsigned {value : UInt64} (inside : c ∈ (ofUnsigned value).toList) :
    c.isDigit = true := by
  rw [ofUnsigned, Nat.toList_repr] at inside
  exact isDigit_of_mem_digits c inside

/-- The digits of a number end where the text goes on with something else. -/
theorem ofUnsigned_append_inj {value value' : UInt64} {s t : String}
    (head : ∀ c ∈ s.toList.head?, c.isDigit = false)
    (head' : ∀ c ∈ t.toList.head?, c.isDigit = false)
    (same : ofUnsigned value ++ s = ofUnsigned value' ++ t) : value = value' ∧ s = t := by
  have lists := congrArg String.toList same
  rw [String.toList_append, String.toList_append] at lists
  obtain ⟨digits, rest⟩ := span_inj (fun _ => isDigit_of_mem_ofUnsigned) head
    (fun _ => isDigit_of_mem_ofUnsigned) head' lists
  exact ⟨ofUnsigned_inj.mp (String.toList_inj.mp digits), String.toList_inj.mp rest⟩

theorem isDigit_or_minus_of_mem_ofSigned {value : Int64} (inside : c ∈ (ofSigned value).toList) :
    c.isDigit = true ∨ c = '-' := by
  rw [ofSigned, Int.repr_eq_if] at inside
  split at inside
  · rw [Nat.toList_repr] at inside
    exact .inl (isDigit_of_mem_digits c inside)
  · rw [String.toList_append, Nat.toList_repr] at inside
    rcases List.mem_append.mp inside with minus | digit
    · exact .inr (List.mem_singleton.mp minus)
    · exact .inl (isDigit_of_mem_digits c digit)

@[simp] theorem newline_not_mem_ofUnsigned (value : UInt64) : '\n' ∉ (ofUnsigned value).toList :=
  fun inside => absurd (isDigit_of_mem_ofUnsigned inside) (by decide)

@[simp] theorem newline_not_mem_ofSigned (value : Int64) : '\n' ∉ (ofSigned value).toList :=
  fun inside => absurd (isDigit_or_minus_of_mem_ofSigned inside) (by decide)

theorem toInt_nearestWord (fits : Words.Holds v) : (nearestWord v).toInt = v := by
  obtain ⟨low, high⟩ := fits
  have least : Int64.minValue.toInt = -9223372036854775808 := by decide
  have greatest : Int64.maxValue.toInt = 9223372036854775807 := by decide
  rw [nearestWord, if_neg (by omega), if_neg (by omega)]
  exact Int64.toInt_ofInt_of_le low high

end Decimal
end AttentionMask
