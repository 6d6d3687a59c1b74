import AttentionMask.Size

/-! Storage of byte images. Rows start on a cache line of their own, so an image of `n` rows takes
`n` strides. Blocks of elements are handed out on line boundaries by sources that hold no state:
a block may go back through any of them. -/

namespace AttentionMask.Storage

/-- The cache line that row starts and blocks are aligned to, in bytes. -/
def lineBytes : UInt64 := 64

/-- The distance between the starts of two rows of `n` bytes. -/
def stride (n : UInt64) : UInt64 :=
  Size.roundUp lineBytes n

/-- Bytes of the padded image of `n` rows of `n` bytes. -/
def imageBytes (n : UInt64) : Except Size.Overflow UInt64 :=
  Size.product (stride n) n

/-- A source of blocks for elements of `width` bytes. -/
structure Source where
  width : UInt64

/-- A block that begins at cache line number `line`. -/
structure Block where
  line : UInt64
  bytes : UInt64

def Block.address (b : Block) : UInt64 :=
  b.line * lineBytes

def Block.aligned (b : Block) : Bool :=
  b.address % lineBytes == 0

/-- Sources differ in the width of their elements only, which a block does not remember. -/
def Source.interchangeable (_ _ : Source) : Bool :=
  true

/-- Room for `count` elements at the given line, unless their bytes cannot be counted in a word. -/
def Source.reserve? (s : Source) (line count : UInt64) : Option Block :=
  if (0xFFFFFFFFFFFFFFFF : UInt64) / s.width < count then none else some ⟨line, count * s.width⟩

end AttentionMask.Storage
