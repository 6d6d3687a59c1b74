import AttentionMask.Decimal
import AttentionMask.Mask.Digest

/-! The copy-task demonstration: the mask of one half length as a picture, its figures in both
forms, and the fault of a pattern whose offsets were forgotten. -/

namespace AttentionMask.Report

/-- What a run of the program leaves behind. -/
structure Outcome where
  exit : UInt32
  out : String
  err : String

/-- One row of the picture, a cell for each key. -/
def cells (m : Mask) (i : UInt64) : List Char :=
  (Walk.below m.length).map fun j => if m.allows i j then '#' else '.'

def rowLine (m : Mask) (i : UInt64) : String :=
  Decimal.padLeft 3 (Decimal.ofUnsigned i) ++ " " ++ String.ofList (cells m i)

def picture (m : Mask) : List String :=
  (Walk.below m.length).map (rowLine m)

def heading (p : Pattern) (m : Mask) : List String :=
  ["=== Copy-task spiral mask ===",
    "n=" ++ Decimal.ofUnsigned m.length ++ " window=" ++ Decimal.ofSigned p.window ++
      " offset=" ++ Decimal.ofSigned (p.links.headD 0) ++ " band=" ++ Decimal.ofSigned p.band,
    ""]

def figures (m : Mask) : List String :=
  ["",
    "Permitted pairs: " ++ Decimal.ofUnsigned m.pairCount,
    "Digest: 0x" ++ Hex.short m.digest,
    "Intervals: " ++ Decimal.ofUnsigned m.toRunTable.runCount]

/-- Forgotten offsets are a fault and not a mask with the window alone. -/
def forgotten : List String :=
  match Mask.build { length := 16 } with
  | .error fault => ["", "Expected failure: " ++ fault.render, "  " ++ fault.message]
  | .ok _ => []

def lines (p : Pattern) (m : Mask) : List String :=
  heading p m ++ picture m ++ figures m ++ forgotten

def text (lines : List String) : String :=
  String.join (lines.map fun line => line ++ "\n")

def ofHalf (half : Int64) : Outcome :=
  let p := Pattern.copyTask half
  match Mask.buildAs .grid p with
  | .error fault => ⟨1, "", text ["Mask build failed: " ++ fault.message]⟩
  | .ok m => ⟨0, text (lines p m), ""⟩

/-- The half length is the number that the first argument starts with, 8 without arguments. -/
def halfOf : List String → Int64
  | [] => 8
  | first :: _ => Decimal.nearestWord (Decimal.leading first.toList)

def run (args : List String) : Outcome :=
  ofHalf (halfOf args)

end AttentionMask.Report
