import AttentionMask.RowRule

/-! A row as bytes, set key by key: the window, then a walk from the centre of each offset. The
steps of a walk go only where they can meet the sequence, so their number is bounded by its length
however wide the band is. Painting is the same as setting a list of keys in order. -/

namespace AttentionMask.RowRule

/-- The first step up that is not below the sequence. -/
def firstAbove (_ : RowRule) (i o : Int64) : Int64 :=
  max 1 (-(i - o))

def lastAbove (r : RowRule) (i o : Int64) : Int64 :=
  min r.band (r.length - 1 - (i - o))

/-- The last step down; before the first from a centre below the sequence. -/
def lastBelow (r : RowRule) (i o : Int64) : Int64 :=
  min r.band (i - o)

/-- The keys that the steps up reach. -/
def above (r : RowRule) (i o : Int64) : List Int64 :=
  (Walk.upTo (r.firstAbove i o) (r.lastAbove i o)).map fun k => i - o + k

/-- The keys that the steps down reach. -/
def below (r : RowRule) (i o : Int64) : List Int64 :=
  (Walk.upTo 1 (r.lastBelow i o)).map fun k => i - o - k

/-- Key `j` is a position of the sequence and under the ceiling of row `i`. -/
def admits (r : RowRule) (i j : Int64) : Bool :=
  decide (0 ≤ j ∧ j < r.length ∧ (r.causality = .clamped → j ≤ i))

/-- The keys that the walk from one centre sets. -/
def bandKeys (r : RowRule) (i o : Int64) : List Int64 :=
  ((i - o) :: (r.above i o ++ r.below i o)).filter (r.admits i)

/-- The keys of row `i` in the order in which they are set. A key may come up again. -/
def marks (r : RowRule) (i : Int64) : List Int64 :=
  Walk.upTo (r.windowFirst i) i ++ r.offsets.flatMap (r.bandKeys i)

/-- Set one key of the row that begins at byte `base`. -/
def mark (base : UInt64) (image : Array UInt8) (j : Int64) : Array UInt8 :=
  image.setIfInBounds (base + j.toUInt64).toNat 1

/-- Set a key that the row admits. -/
def allow (r : RowRule) (i : Int64) (base : UInt64) (image : Array UInt8) (j : Int64) :
    Array UInt8 :=
  if r.admits i j then mark base image j else image

/-- Walk from the centre `i - o`: the centre itself, up, then down. -/
def paintBand (r : RowRule) (i : Int64) (base : UInt64) (image : Array UInt8) (o : Int64) :
    Array UInt8 :=
  let centre := i - o
  let image := r.allow i base image centre
  let image := Walk.through (r.firstAbove i o) (r.lastAbove i o)
    (fun image k => r.allow i base image (centre + k)) image
  Walk.through 1 (r.lastBelow i o) (fun image k => r.allow i base image (centre - k)) image

/-- Set the keys of row `i`; every other byte of the image is left as it was. -/
def paint (r : RowRule) (i : Int64) (base : UInt64) (image : Array UInt8) : Array UInt8 :=
  r.offsets.foldl (r.paintBand i base) (Walk.through (r.windowFirst i) i (mark base) image)

theorem foldl_allow (r : RowRule) (i : Int64) (base : UInt64) (keys : List Int64)
    (image : Array UInt8) :
    keys.foldl (r.allow i base) image = (keys.filter (r.admits i)).foldl (mark base) image := by
  rw [List.foldl_filter]
  rfl

theorem paintBand_eq (r : RowRule) (i : Int64) (base : UInt64) (image : Array UInt8) (o : Int64) :
    r.paintBand i base image o = (r.bandKeys i o).foldl (mark base) image := by
  simp only [bandKeys, ← foldl_allow, List.foldl_cons, List.foldl_append, above, below,
    List.foldl_map, paintBand, Walk.through_eq_foldl]

/-- Painting a row sets its keys in the order in which they are marked. -/
theorem paint_eq (r : RowRule) (i : Int64) (base : UInt64) (image : Array UInt8) :
    r.paint i base image = (r.marks i).foldl (mark base) image := by
  have bands : r.paintBand i base = fun image o => (r.bandKeys i o).foldl (mark base) image := by
    funext image o
    exact r.paintBand_eq i base image o
  rw [paint, marks, List.foldl_append, List.foldl_flatMap, Walk.through_eq_foldl, bands]

@[simp] theorem size_paint (r : RowRule) (i : Int64) (base : UInt64) (image : Array UInt8) :
    (r.paint i base image).size = image.size := by
  rw [paint_eq]
  generalize r.marks i = keys
  induction keys generalizing image with
  | nil => rfl
  | cons j rest ih => exact (ih _).trans Array.size_setIfInBounds

end AttentionMask.RowRule
