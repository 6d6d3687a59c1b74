import AttentionMask.RunTable.Assembly

/-! A mask in either form, with the queries that do not depend on the form and what is shown of a
mask: its figures, its rows as they are stored, and all its pairs. -/

namespace AttentionMask

inductive Mask where
  | grid (g : Grid)
  | runs (t : RunTable)

namespace Mask

inductive Form where
  | grid
  | runs
deriving DecidableEq

/-- The form where none is asked for: the room of runs grows with the rows only. -/
def Form.preferred : Form :=
  .runs

def buildAs (form : Form) (p : Pattern) : Except Fault Mask :=
  match form with
  | .grid => (Grid.build p).map grid
  | .runs => (RunTable.build p).map runs

def build (p : Pattern) : Except Fault Mask :=
  buildAs .preferred p

def form : Mask → Form
  | grid _ => .grid
  | runs _ => .runs

def length : Mask → UInt64
  | grid g => g.length
  | runs t => t.length

def allows (m : Mask) (i j : UInt64) : Bool :=
  match m with
  | grid g => g.allows i j
  | runs t => t.allows i j

/-- The keys of row `i` in ascending order; none outside the sequence. -/
def rowKeys (m : Mask) (i : UInt64) : List UInt64 :=
  if m.length ≤ i then [] else
    match m with
    | grid g => ByteRow.keys (g.row i)
    | runs t => (t.row i).toList.flatMap KeyRun.keys

/-- The number of permitted pairs, in words. -/
def pairCount : Mask → UInt64
  | grid g => g.pairCount
  | runs t => t.pairCount

def toGrid : Mask → Except Size.Overflow Grid
  | grid g => .ok g
  | runs t => t.toGrid

def toRunTable : Mask → RunTable
  | grid g => g.toRunTable
  | runs t => t

def convert (m : Mask) : Form → Except Size.Overflow Mask
  | .grid => m.toGrid.map grid
  | .runs => .ok (runs m.toRunTable)

/-- The figures of a mask in its form. -/
inductive Summary where
  | grid (length pairs stride bytes : UInt64)
  | runs (length pairs runs : UInt64)

def summary : Mask → Summary
  | .grid g => .grid g.length g.pairCount g.stride (UInt64.ofNat g.bytes.size)
  | .runs t => .runs t.length t.pairCount t.runCount

/-- One row as it is stored. -/
inductive StoredRow where
  | bytes (row : Array UInt8)
  | runs (row : Array KeyRun)

def storedRow (m : Mask) (i : UInt64) : StoredRow :=
  match m with
  | .grid g => .bytes (g.row i)
  | .runs t => .runs (t.row i)

/-- Membership of all pairs, row by row. -/
def rows (m : Mask) : List (List Bool) :=
  (Walk.below m.length).map fun i => (Walk.below m.length).map fun j => m.allows i j

/-- The table of runs of these parameters can be indexed by words. -/
def Fits (p : Pattern) : Prop :=
  (1 + p.links.length) * p.length.toUInt64.toNat < UInt64.size

/-- The masks that builds from allowed parameters, and conversions, lead to. -/
inductive Derived (allowed : Pattern → Prop) : Mask → Prop where
  | built {form : Form} {p : Pattern} {m : Mask} (fit : allowed p) (done : buildAs form p = .ok m) :
      Derived allowed m
  | expanded {m : Mask} {g : Grid} (source : Derived allowed m) (done : m.toGrid = .ok g) :
      Derived allowed (grid g)
  | compacted {m : Mask} (source : Derived allowed m) : Derived allowed (runs m.toRunTable)

abbrev Obtainable : Mask → Prop :=
  Derived Fits

end Mask
end AttentionMask
