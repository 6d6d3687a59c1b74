import AttentionMask.ByteRow
import AttentionMask.RowRule.Painting
import AttentionMask.Storage

/-! The mask as a matrix of bytes, row after row at a stride of whole cache lines. Bytes past the
last key of a row are padding and stay zero. Each row writes its own bytes only, so rows may be
painted in any order. -/

namespace AttentionMask

structure Grid where
  length : UInt64
  bytes : Array UInt8

namespace Grid

def stride (g : Grid) : UInt64 :=
  Storage.stride g.length

/-- The byte of key `j` in row `i`. -/
def cell (g : Grid) (i j : UInt64) : UInt64 :=
  i * g.stride + j

/-- Membership; false outside the matrix. -/
def allows (g : Grid) (i j : UInt64) : Bool :=
  if g.length ≤ i ∨ g.length ≤ j then false else g.bytes.getD (g.cell i j).toNat 0 != 0

/-- The bytes of row `i` without its padding. -/
def row (g : Grid) (i : UInt64) : Array UInt8 :=
  g.bytes.extract (g.cell i 0).toNat ((g.cell i 0).toNat + g.length.toNat)

def pairCount (g : Grid) : UInt64 :=
  (Walk.below g.length).foldl (fun total i => total + ByteRow.count (g.row i)) 0

/-- Paint the listed rows, one after another, on a blank image of `total` bytes. -/
def painted (rule : RowRule) (order : List Int64) (total : UInt64) : Grid where
  length := rule.length.toUInt64
  bytes := order.foldl
    (fun image i => rule.paint i (i.toUInt64 * Storage.stride rule.length.toUInt64) image)
    (Array.replicate total.toNat 0)

/-- Refused parameters, or a length whose padded image does not fit in a word of bytes, are faults.
Any order of the rows would do. -/
def build (p : Pattern) : Except Fault Grid :=
  match p.check with
  | .error fault => .error fault
  | .ok () =>
    match Storage.imageBytes p.length.toUInt64 with
    | .error _ => .error (.invalid .length p.length 0)
    | .ok total => .ok (painted p.rule p.rule.rows total)

end Grid
end AttentionMask
