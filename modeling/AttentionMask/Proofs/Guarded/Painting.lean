import AttentionMask.Proofs.Guarded
import AttentionMask.Proofs.Grid.Build

/-! Painting with checked indices. Every key that a row sets is a position of the sequence: those of
the window by its bounds, those of a walk because they are admitted first. The bytes of the row lie
in the image, so the byte of the key does. -/

namespace AttentionMask

namespace RowRule

/-- Set the byte of key `j` in the row that begins at byte `base`. -/
def mark? (r : RowRule) (base : UInt64) (image : Array UInt8) (j : Int64) :
    Option (Array UInt8) := do
  let n ← Guarded.index r.length
  let key ← Guarded.index j
  Guarded.require (key < n)
  let place ← Guarded.sum base key
  Guarded.write image place.toNat 1

def allow? (r : RowRule) (i : Int64) (base : UInt64) (image : Array UInt8) (j : Int64) :
    Option (Array UInt8) :=
  if r.admits i j then r.mark? base image j else some image

/-- Walk through steps of a key and set those that the row admits. -/
def walk? (r : RowRule) (i : Int64) (base : UInt64) (reach : Int64 → Option Int64)
    (first last : Int64) (image : Array UInt8) : Option (Array UInt8) :=
  (Walk.upTo first last).foldlM (fun image k => do
    let j ← reach k
    r.allow? i base image j) image

def paintBand? (r : RowRule) (i : Int64) (base : UInt64) (image : Array UInt8) (o : Int64) :
    Option (Array UInt8) := do
  let centre ← Guarded.minus i o
  let image ← r.allow? i base image centre
  let opposite ← Guarded.minus 0 centre
  let final ← Guarded.minus r.length 1
  let room ← Guarded.minus final centre
  let image ← r.walk? i base (Guarded.plus centre) (max 1 opposite) (min r.band room) image
  r.walk? i base (Guarded.minus centre) 1 (min r.band centre) image

def paint? (r : RowRule) (i : Int64) (base : UInt64) (image : Array UInt8) :
    Option (Array UInt8) := do
  let start ← Guarded.minus i r.window
  let image ← (Walk.upTo (max 0 start) i).foldlM (r.mark? base) image
  r.offsets.foldlM (r.paintBand? i base) image

/-- Paint row `i` in the bytes that are its own. -/
def paintRow? (r : RowRule) (image : Array UInt8) (i : Int64) : Option (Array UInt8) := do
  let n ← Guarded.index r.length
  let row ← Guarded.index i
  let base ← Storage.rowStart? n row
  Guarded.span image base n
  r.paint? i base image

variable {r : RowRule} {i : Int64}

@[simp] theorem size_mark (base : UInt64) (image : Array UInt8) (j : Int64) :
    (mark base image j).size = image.size :=
  Array.size_setIfInBounds

@[simp] theorem size_allow (r : RowRule) (i : Int64) (base : UInt64) (image : Array UInt8)
    (j : Int64) : (r.allow i base image j).size = image.size := by
  unfold allow
  split
  · exact size_mark base image j
  · rfl

theorem size_through {visit : Array UInt8 → Int64 → Array UInt8}
    (same : ∀ image k, (visit image k).size = image.size) (first last : Int64)
    (image : Array UInt8) : (Walk.through first last visit image).size = image.size := by
  rw [Walk.through_eq_foldl]
  generalize Walk.upTo first last = steps
  induction steps generalizing image with
  | nil => rfl
  | cons k rest ih => rw [List.foldl_cons, ih, same]

@[simp] theorem size_paintBand (r : RowRule) (i : Int64) (base : UInt64) (image : Array UInt8)
    (o : Int64) : (r.paintBand i base image o).size = image.size := by
  rw [paintBand, size_through fun image k => size_allow r i base image (i - o - k),
    size_through fun image k => size_allow r i base image (i - o + k), size_allow]

section

variable {base : UInt64} {total : Nat} (h : r.Sound) (small : total < 2 ^ 64)
  (inside : base.toNat + r.length.toUInt64.toNat ≤ total) {image : Array UInt8}
  (size : image.size = total)
include h small inside size

theorem mark?_eq {j : Int64} (key : r.HasRow j) :
    r.mark? base image j = some (mark base image j) := by
  have positive := h.one_le_length
  have length := toNat_length h
  have value := key.toNat_eq
  obtain ⟨low, high⟩ := key
  have below : j.toUInt64 < r.length.toUInt64 := UInt64.lt_iff_toNat_lt.mpr (by omega)
  have place : base.toNat + j.toUInt64.toNat < 2 ^ 64 := by omega
  simp only [mark?, Guarded.index_eq (show 0 ≤ r.length.toInt by omega), Guarded.index_eq low,
    Guarded.require_eq below, Guarded.sum_eq place, Option.bind_eq_bind, Option.bind_some]
  exact Guarded.write_eq (by rw [Words.toNat_add place]; omega) 1

/-- An admitted key is a position of the sequence. -/
theorem allow?_eq (i j : Int64) : r.allow? i base image j = some (r.allow i base image j) := by
  unfold allow? allow
  split
  · rename_i admitted
    obtain ⟨low, high, -⟩ := admits_iff.mp admitted
    exact mark?_eq h small inside size ⟨low, high⟩
  · rfl

theorem walk?_eq (i : Int64) {reach? : Int64 → Option Int64} {reach : Int64 → Int64}
    {first last : Int64} (each : ∀ k ∈ Walk.upTo first last, reach? k = some (reach k)) :
    r.walk? i base reach? first last image =
      some (Walk.through first last (fun image k => r.allow i base image (reach k)) image) := by
  rw [Walk.through_eq_foldl]
  refine Guarded.foldlM_eq_some (fun image => image.size = total) ?_ ?_ image size
  · intro image size k step
    simp only [each k step, Option.bind_eq_bind, Option.bind_some]
    exact allow?_eq h small inside size i _
  · exact fun image size k _ => (r.size_allow i base image _).trans size

variable (row : r.HasRow i)
include row

theorem paintBand?_eq {o : Int64} (listed : o ∈ r.offsets) :
    r.paintBand? i base image o = some (r.paintBand i base image o) := by
  have centre := toInt_centre h row listed
  have last := toInt_length_sub_one h
  have start := toInt_firstAbove h row listed
  have up := toInt_lastAbove h row listed
  have down := toInt_lastBelow h row listed
  have fits := bandHolds h row listed
  have high := fits.centre.high
  have bound := h.length_le
  have middle := Guarded.minus_eq fits.centre
  have opposite := Guarded.minus_eq (a := 0) (b := i - o)
    (by rw [Int64.toInt_zero, Int.zero_sub, centre]; exact fits.below)
  have final := Guarded.minus_eq (a := r.length) (b := 1) (holds_length_sub_one h)
  have room := Guarded.minus_eq (a := r.length - 1) (b := i - o) (centre ▸ last ▸ fits.above)
  have own := allow?_eq h small inside size i (i - o)
  -- Steps stop where they leave the sequence, so the centre and a step add up in a word.
  have ups (k : Int64) (step : k ∈ Walk.upTo (r.firstAbove i o) (r.lastAbove i o)) :
      Guarded.plus (i - o) k = some (i - o + k) := by
    rw [Walk.mem_upTo, Int64.le_iff_toInt_le, Int64.le_iff_toInt_le] at step
    exact Guarded.plus_eq ⟨by omega, by omega⟩
  have downs (k : Int64) (step : k ∈ Walk.upTo 1 (r.lastBelow i o)) :
      Guarded.minus (i - o) k = some (i - o - k) := by
    rw [Walk.mem_upTo, Int64.le_iff_toInt_le, Int64.le_iff_toInt_le, Int64.toInt_one] at step
    exact Guarded.minus_eq ⟨by omega, by omega⟩
  have above := walk?_eq h small inside ((r.size_allow i base image (i - o)).trans size) i ups
  rw [firstAbove, lastAbove] at above
  simp only [paintBand?, middle, own, opposite, final, room, Int64.zero_sub, above,
    Option.bind_eq_bind, Option.bind_some]
  refine walk?_eq h small inside ?_ i downs
  rw [size_through fun image k => r.size_allow i base image (i - o + k), size_allow, size]

theorem paint?_eq : r.paint? i base image = some (r.paint i base image) := by
  have first := toInt_windowFirst h row
  have high := row.lt_length
  have start := Guarded.minus_eq (holds_windowFirst h row)
  have window : (Walk.upTo (r.windowFirst i) i).foldlM (r.mark? base) image =
      some ((Walk.upTo (r.windowFirst i) i).foldl (mark base) image) := by
    refine Guarded.foldlM_eq_some (fun image => image.size = total) ?_ ?_ image size
    · intro image size j member
      rw [Walk.mem_upTo, Int64.le_iff_toInt_le, Int64.le_iff_toInt_le] at member
      exact mark?_eq h small inside size ⟨by omega, by omega⟩
    · exact fun image size j _ => (size_mark base image j).trans size
  rw [windowFirst, ← Walk.through_eq_foldl] at window
  simp only [paint?, start, window, Option.bind_eq_bind, Option.bind_some]
  refine Guarded.foldlM_eq_some (fun image => image.size = total) ?_ ?_ _ ?_
  · exact fun image size o listed => paintBand?_eq h small inside size row listed
  · exact fun image size o _ => (r.size_paintBand i base image o).trans size
  · exact (size_through (size_mark base) _ _ image).trans size

end

theorem paintRow?_eq (h : r.Sound) (short : r.length.toUInt64.toNat < 2 ^ 32) (row : r.HasRow i)
    {image : Array UInt8} (size : image.size =
      r.length.toUInt64.toNat * (Storage.stride r.length.toUInt64).toNat) :
    r.paintRow? image i =
      some (r.paint i (i.toUInt64 * Storage.stride r.length.toUInt64) image) := by
  have positive := h.one_le_length
  have length := toNat_length h
  have value := row.toNat_eq
  have inside : i.toUInt64.toNat < r.length.toUInt64.toNat := by
    obtain ⟨low, high⟩ := row
    omega
  have bound := Storage.length_mul_stride_lt short
  have stretch := Storage.stretch_le short inside
  have base := Storage.toNat_rowStart short (UInt64.lt_iff_toNat_lt.mpr inside)
  have start := Storage.rowStart?_eq short (UInt64.lt_iff_toNat_lt.mpr inside)
  have n := Guarded.index_eq (a := r.length) (by omega)
  have own : Guarded.span image (i.toUInt64 * Storage.stride r.length.toUInt64)
      r.length.toUInt64 = some () := Guarded.span_eq (by omega) (by omega)
  simp only [paintRow?, n, Guarded.index_eq row.nonneg, start, own, Option.bind_eq_bind,
    Option.bind_some]
  exact paint?_eq h bound (by omega) size row

end RowRule

namespace Grid

/-- Paint the listed rows on a blank image of `total` bytes. -/
def painted? (rule : RowRule) (order : List Int64) (total : UInt64) : Option Grid := do
  let n ← Guarded.index rule.length
  let bytes ← order.foldlM rule.paintRow? (Array.replicate total.toNat 0)
  some ⟨n, bytes⟩

/-- Painting rows in any order wraps no index and stays inside the image. -/
theorem painted?_eq {rule : RowRule} {order : List Int64} {total : UInt64} (h : rule.Sound)
    (short : rule.length.toUInt64.toNat < 2 ^ 32) (rows : ∀ i ∈ order, rule.HasRow i)
    (size : total.toNat =
      rule.length.toUInt64.toNat * (Storage.stride rule.length.toUInt64).toNat) :
    painted? rule order total = some (painted rule order total) := by
  have positive := h.one_le_length
  have image := Guarded.foldlM_eq_some (fun image : Array UInt8 => image.size = total.toNat)
    (fun image own i listed =>
      RowRule.paintRow?_eq h short (rows i listed) (own.trans size))
    (fun image own i _ => (rule.size_paint i _ image).trans own)
    (Array.replicate total.toNat 0) Array.size_replicate
  simp only [painted?, Guarded.index_eq (show 0 ≤ rule.length.toInt by omega), image,
    Option.bind_eq_bind, Option.bind_some]
  rfl

end Grid
end AttentionMask
