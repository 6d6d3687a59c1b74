import AttentionMask.KeyRun

/-! A row of the mask as bytes, one for each key. A byte other than zero counts as set; the builders
write ones only. -/

namespace AttentionMask.ByteRow

/-- Set the bytes of a run in the row that begins at byte `base`. -/
def fill (base : UInt64) (image : Array UInt8) (run : KeyRun) : Array UInt8 :=
  run.keys.foldl (fun image key => image.setIfInBounds (base + key).toNat 1) image

def fillAll (base : UInt64) (image : Array UInt8) (runs : Array KeyRun) : Array UInt8 :=
  runs.foldl (fill base) image

/-- Scan from key `key` on; `opened` is the first key of the run that is still open. -/
def scan (key : UInt64) (opened : Option UInt64) : List UInt8 → List KeyRun
  | [] => match opened with
    | none => []
    | some first => [⟨first, key - 1⟩]
  | byte :: rest => match opened with
    | none => if byte = 0 then scan (key + 1) none rest else scan (key + 1) (some key) rest
    | some first =>
      if byte = 0 then ⟨first, key - 1⟩ :: scan (key + 1) none rest
      else scan (key + 1) (some first) rest

/-- The maximal runs of set bytes. -/
def runs (row : Array UInt8) : List KeyRun :=
  scan 0 none row.toList

/-- The positions of set bytes. -/
def keys (row : Array UInt8) : List UInt64 :=
  (row.toList.zipIdx.filter fun entry => entry.1 != 0).map fun entry => UInt64.ofNat entry.2

/-- The number of bytes equal to one. -/
def count (row : Array UInt8) : UInt64 :=
  UInt64.ofNat (row.count 1)

@[simp] theorem size_fill (base : UInt64) (image : Array UInt8) (run : KeyRun) :
    (fill base image run).size = image.size := by
  unfold fill
  generalize run.keys = keys
  induction keys generalizing image with
  | nil => rfl
  | cons key rest ih => exact (ih _).trans Array.size_setIfInBounds

@[simp] theorem size_fillAll (base : UInt64) (image : Array UInt8) (runs : Array KeyRun) :
    (fillAll base image runs).size = image.size := by
  rcases runs with ⟨runs⟩
  simp only [fillAll, List.foldl_toArray]
  induction runs generalizing image with
  | nil => rfl
  | cons run rest ih => simp [ih]

end AttentionMask.ByteRow
