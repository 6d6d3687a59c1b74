/-! A 64-bit cyclic redundancy check. The register is reflected: bit 63 holds the constant
coefficient, the low bit leaves first, and bytes enter low bit first. The generator is the ECMA-182
polynomial `0x42F0E1EBA9EA3693`, written from its low coefficient down. The register starts at zero
and is not changed at the end. -/

namespace AttentionMask.Crc64

def generator : UInt64 := 0xC96C5795D7870F42

/-- One bit leaves the register; a one takes the generator with it. -/
def shift (register : UInt64) : UInt64 :=
  if register &&& 1 = 1 then (register >>> 1) ^^^ generator else register >>> 1

/-- The register after `count` bits have left it. -/
def shifts (register : UInt64) : (count : Nat) → UInt64
  | 0 => register
  | count + 1 => shifts (shift register) count

/-- What eight shifts make of each possible low byte. -/
def table : Vector UInt64 256 :=
  Vector.ofFn fun index : Fin 256 => shifts (UInt64.ofNat index.val) 8

/-- The place in the table that a byte selects. -/
def slot (register : UInt64) (byte : UInt8) : Fin 256 :=
  (register ^^^ byte.toUInt64).toUInt8.toFin

/-- Take in one byte. -/
def step (register : UInt64) (byte : UInt8) : UInt64 :=
  (register >>> 8) ^^^ table[slot register byte]

def update (register : UInt64) (bytes : Array UInt8) : UInt64 :=
  bytes.foldl step register

def ofBytes (bytes : Array UInt8) : UInt64 :=
  update 0 bytes

/-- The register after each chunk in turn. -/
def running (register : UInt64) : List (Array UInt8) → List UInt64
  | [] => []
  | chunk :: rest => update register chunk :: running (update register chunk) rest

@[simp] theorem update_empty (register : UInt64) : update register #[] = register :=
  rfl

theorem update_append (register : UInt64) (a b : Array UInt8) :
    update register (a ++ b) = update (update register a) b := by
  simp [update]

end AttentionMask.Crc64
