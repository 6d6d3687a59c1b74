import AttentionMask.Grid

/-! The mask as runs: the runs of all rows back to back, and for each row the position where its
runs start. Row `i` ends where row `i + 1` starts; one more entry closes the last row. A table is
expanded to a matrix of bytes, unless the padded image does not fit in a word of bytes, and a matrix
is compacted to the maximal runs of its rows. -/

namespace AttentionMask

structure RunTable where
  starts : Array UInt64
  runs : Array KeyRun

namespace RunTable

def length (t : RunTable) : UInt64 :=
  UInt64.ofNat t.starts.size - 1

def start (t : RunTable) (i : UInt64) : UInt64 :=
  t.starts.getD i.toNat 0

def rowSize (t : RunTable) (i : UInt64) : UInt64 :=
  t.start (i + 1) - t.start i

def row (t : RunTable) (i : UInt64) : Array KeyRun :=
  t.runs.extract (t.start i).toNat ((t.start i).toNat + (t.rowSize i).toNat)

/-- Membership by binary search; false outside the sequence. -/
def allows (t : RunTable) (i j : UInt64) : Bool :=
  if t.length ≤ i ∨ t.length ≤ j then false else KeyRun.found (t.row i) j

def runCount (t : RunTable) : UInt64 :=
  UInt64.ofNat t.runs.size

/-- The lengths of all runs, summed in words. -/
def pairCount (t : RunTable) : UInt64 :=
  t.runs.foldl (fun total run => total + run.length) 0

def toGrid (t : RunTable) : Except Size.Overflow Grid :=
  match Storage.imageBytes t.length with
  | .error overflow => .error overflow
  | .ok total => .ok {
      length := t.length
      bytes := (Walk.below t.length).foldl
        (fun image i => ByteRow.fillAll (i * Storage.stride t.length) image (t.row i))
        (Array.replicate total.toNat 0) }

/-- Close a row: add its runs, and the position after them as the start of the next row. -/
def addRow (t : RunTable) (row : List KeyRun) : RunTable :=
  let runs := t.runs ++ row
  ⟨t.starts.push (UInt64.ofNat runs.size), runs⟩

end RunTable

def Grid.toRunTable (g : Grid) : RunTable :=
  (Walk.below g.length).foldl (fun t i => t.addRow (ByteRow.runs (g.row i))) ⟨#[0], #[]⟩

end AttentionMask
