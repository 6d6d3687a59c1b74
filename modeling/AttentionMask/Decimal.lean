/-! Whole numbers as text. Decimal writing gives a minus sign and digits without leading zeros.
Decimal reading takes the number that a text starts with: ASCII blanks are skipped, one sign may
follow, digits are read up to the first other character, and no digits count as zero. Hexadecimal
text is written only, in lower case. -/

namespace AttentionMask.Decimal

def ofSigned (value : Int64) : String :=
  value.toInt.repr

def ofUnsigned (value : UInt64) : String :=
  value.toNat.repr

/-- The six ASCII blanks: space and the characters from tab to carriage return. -/
def isBlank (c : Char) : Bool :=
  c = ' ' || ('\t' ≤ c && c ≤ '\r')

def magnitude (cs : List Char) : Nat :=
  Nat.ofDigitChars 10 (cs.takeWhile Char.isDigit) 0

/-- The number at the start of a text, before any bound on its size. -/
def leading (cs : List Char) : Int :=
  match cs.dropWhile isBlank with
  | '-' :: rest => -(magnitude rest : Int)
  | '+' :: rest => magnitude rest
  | rest => magnitude rest

/-- The word nearest to a number. -/
def nearestWord (v : Int) : Int64 :=
  if v < Int64.minValue.toInt then Int64.minValue
  else if Int64.maxValue.toInt < v then Int64.maxValue
  else Int64.ofInt v

/-- Align a text to the right of `width` columns; a wider text is kept whole. -/
def padLeft (width : Nat) (text : String) : String :=
  String.ofList (List.replicate (width - text.length) ' ') ++ text

end AttentionMask.Decimal

namespace AttentionMask.Hex

/-- Without leading zeros. -/
def digits (word : UInt64) : List Char :=
  Nat.toDigits 16 word.toNat

/-- Sixteen digits. -/
def padded (word : UInt64) : String :=
  String.ofList (List.replicate (16 - (digits word).length) '0' ++ digits word)

def short (word : UInt64) : String :=
  String.ofList (digits word)

end AttentionMask.Hex
