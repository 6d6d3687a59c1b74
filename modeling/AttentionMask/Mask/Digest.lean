import AttentionMask.Crc64
import AttentionMask.Mask

/-! The digest of a mask: the check value of its matrix of zeros and ones, row after row without
padding. A matrix feeds its rows as they are; a table of runs spreads one row at a time over a
buffer that is blanked before each. -/

namespace AttentionMask

def Grid.digest (g : Grid) : UInt64 :=
  (Walk.below g.length).foldl (fun register i => Crc64.update register (g.row i)) 0

namespace RunTable

/-- The bytes of row `i`, in a buffer that may hold those of another row. -/
def spread (t : RunTable) (i : UInt64) (buffer : Array UInt8) : Array UInt8 :=
  ByteRow.fillAll 0 (buffer.map fun _ => 0) (t.row i)

def digestRow (t : RunTable) (state : Array UInt8 × UInt64) (i : UInt64) : Array UInt8 × UInt64 :=
  let bytes := t.spread i state.1
  (bytes, Crc64.update state.2 bytes)

def digest (t : RunTable) : UInt64 :=
  ((Walk.below t.length).foldl t.digestRow (Array.replicate t.length.toNat 0, 0)).2

end RunTable

namespace Mask

def digest : Mask → UInt64
  | grid g => g.digest
  | runs t => t.digest

/-- The matrix of permitted pairs as bytes, row after row. -/
def image (m : Mask) : Array UInt8 :=
  ((Walk.below m.length).flatMap fun i =>
    (Walk.below m.length).map fun j => if m.allows i j then 1 else 0).toArray

end Mask
end AttentionMask
