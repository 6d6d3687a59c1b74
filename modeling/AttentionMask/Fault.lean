import AttentionMask.Decimal

/-! Faults found in mask parameters: what kind of fault, which field, the value that was refused
and, for a list, the position of its element. Kinds and fields are numbered; a number without a
name is kept as it is. -/

namespace AttentionMask

inductive Fault.Kind where
  | invalidParameter
  | missingOffsets
  | unnamed (number : Int32)
deriving DecidableEq

inductive Fault.Field where
  | length
  | window
  | band
  | offsets
  | unnamed (number : Int32)
deriving DecidableEq

structure Fault where
  kind : Fault.Kind
  field : Fault.Field
  value : Int64
  index : UInt64
deriving DecidableEq

namespace Fault

def Kind.ofNumber (number : Int32) : Kind :=
  if number = 0 then .invalidParameter else if number = 1 then .missingOffsets else .unnamed number

def Field.ofNumber (number : Int32) : Field :=
  if number = 0 then .length else if number = 1 then .window
  else if number = 2 then .band else if number = 3 then .offsets else .unnamed number

def Kind.name : Kind → String
  | invalidParameter => "InvalidParameter"
  | missingOffsets => "MissingOffsets"
  | unnamed _ => "Unknown"

def Field.name : Field → String
  | length => "sequence_length"
  | window => "local_window"
  | band => "band"
  | offsets => "offsets"
  | unnamed _ => "unknown"

/-- A refused value of a field, at position `index` of a list and 0 elsewhere. -/
def invalid (field : Field) (value : Int64) (index : UInt64) : Fault :=
  ⟨.invalidParameter, field, value, index⟩

/-- No offsets were given. -/
def missing : Fault :=
  ⟨.missingOffsets, .offsets, 0, 0⟩

/-- What was required, in words. Only the kind of a missing list decides its message; every other
kind is described by the field. -/
def message (f : Fault) : String :=
  match f.kind, f.field with
  | .missingOffsets, _ => "offsets must be provided: specify at least one relative offset"
  | _, .length => "sequence_length must be in [1, 2^40] (got " ++ Decimal.ofSigned f.value ++ ")"
  | _, .window => "local_window must be non-negative (got " ++ Decimal.ofSigned f.value ++ ")"
  | _, .band => "band must be non-negative (got " ++ Decimal.ofSigned f.value ++ ")"
  | _, .offsets =>
    "offsets[" ++ Decimal.ofUnsigned f.index ++ "] must be positive (got " ++
      Decimal.ofSigned f.value ++ ")"
  | _, .unnamed _ => ""

/-- All four fields in one line. -/
def render (f : Fault) : String :=
  "MaskError\x7bcode=" ++ f.kind.name ++ ", parameter=" ++ f.field.name ++ ", value=" ++
    Decimal.ofSigned f.value ++ ", index=" ++ Decimal.ofUnsigned f.index ++ "\x7d"

end Fault
end AttentionMask
