import AttentionMask.Mask.Digest
import AttentionMask.Proofs.Mask.Relation

/-! The rows of the image of a mask, byte for byte: what a matrix stores of a row and what a table
spreads over a buffer are the zeros and ones of the permitted pairs. -/

namespace AttentionMask

open KeyRun

variable {R : Nat → Nat → Prop}

namespace Mask

/-- Row `i` of the matrix of permitted pairs. -/
def imageRow (m : Mask) (i : UInt64) : Array UInt8 :=
  ((Walk.below m.length).map fun j => if m.allows i j then 1 else 0).toArray

@[simp] theorem size_imageRow (m : Mask) (i : UInt64) :
    (m.imageRow i).size = m.length.toNat := by
  simp [imageRow]

theorem getElem?_imageRow (m : Mask) (i : UInt64) {k : Nat} (key : k < m.length.toNat) :
    (m.imageRow i)[k]? = some (if m.allows i (UInt64.ofNat k) then 1 else 0) := by
  simp [imageRow, Walk.below, key]

theorem image_eq (m : Mask) :
    m.image = ((Walk.below m.length).flatMap fun i => (m.imageRow i).toList).toArray :=
  rfl

theorem image_congr {m m' : Mask} (length : m.length = m'.length)
    (same : ∀ i < m.length, ∀ j < m.length, m.allows i j = m'.allows i j) :
    m.image = m'.image := by
  have rows (i : UInt64) (row : i ∈ Walk.below m.length) : m.imageRow i = m'.imageRow i := by
    rw [imageRow, imageRow, ← length]
    refine congrArg List.toArray (List.map_congr_left fun j key => ?_)
    rw [same i (Walk.mem_below.mp row) j (Walk.mem_below.mp key)]
  rw [image_eq, image_eq, ← length]
  exact congrArg List.toArray (List.flatMap_congr fun i row => by rw [rows i row])

theorem length_flatMap_of_width {rows : List UInt64} {bytes : UInt64 → List UInt8} {width : Nat}
    (each : ∀ i, (bytes i).length = width) : (rows.flatMap bytes).length = rows.length * width := by
  simp [List.length_flatMap, each]

/-- Rows of one width, one after another. -/
theorem getElem?_flatMap_of_width {rows : List UInt64} {bytes : UInt64 → List UInt8} {width : Nat}
    (each : ∀ i, (bytes i).length = width) (a : Nat) {b : Nat} (inside : b < width) :
    (rows.flatMap bytes)[a * width + b]? = rows[a]?.bind fun i => (bytes i)[b]? := by
  induction rows generalizing a with
  | nil => simp
  | cons i rest ih =>
      have own := each i
      rw [List.flatMap_cons]
      cases a with
      | zero => rw [List.getElem?_append_left (by omega)]; simp
      | succ a =>
          have later : (a + 1) * width + b - (bytes i).length = a * width + b := by
            rw [own, Nat.succ_mul]
            omega
          rw [List.getElem?_append_right (by rw [own, Nat.succ_mul]; omega), later, ih]
          simp

@[simp] theorem size_image (m : Mask) : m.image.size = m.length.toNat * m.length.toNat := by
  have width (i : UInt64) : (m.imageRow i).toList.length = m.length.toNat := by simp
  rw [image_eq, List.size_toArray, length_flatMap_of_width width, Walk.length_below]

/-- The byte of a pair stands in row-major order. -/
theorem getElem?_image {m : Mask} {i j : UInt64} (row : i < m.length) (key : j < m.length) :
    m.image[i.toNat * m.length.toNat + j.toNat]? = some (if m.allows i j then 1 else 0) := by
  have inside := UInt64.lt_iff_toNat_lt.mp key
  have byte := getElem?_imageRow m i inside
  rw [UInt64.ofNat_toNat] at byte
  rw [image_eq, List.getElem?_toArray, getElem?_flatMap_of_width (by simp) _ inside]
  simpa [Walk.below, UInt64.lt_iff_toNat_lt.mp row] using byte

end Mask

namespace Grid

variable {g : Grid}

/-- The live bytes of a row are its row of the image. -/
theorem Represents.row_eq (h : g.Represents R) {i : UInt64} (row : i < g.length) :
    g.row i = (Mask.grid g).imageRow i := by
  have inside := UInt64.lt_iff_toNat_lt.mp row
  have size := h.framed.size_row inside
  have size' : ((Mask.grid g).imageRow i).size = g.length.toNat := Mask.size_imageRow _ i
  refine Array.ext_getElem? fun k => ?_
  by_cases live : k < g.length.toNat
  · have related : g.allows i (UInt64.ofNat k) = true ↔ R i.toNat k :=
      Mask.Represents.allows_ofNat (m := .grid g) h row live
    rw [h.framed.getElem?_row inside live, Mask.getElem?_imageRow (.grid g) i live]
    by_cases allowed : g.allows i (UInt64.ofNat k) = true
    · rw [h.one _ inside k live (related.mp allowed)]
      exact congrArg some (if_pos allowed).symm
    · rw [h.zero _ inside k live (mt related.mpr allowed)]
      exact congrArg some (if_neg allowed).symm
  · rw [Array.getElem?_eq_none (by omega), Array.getElem?_eq_none (by omega)]

end Grid

namespace RunTable

variable {t : RunTable}

/-- Spreading blanks the buffer first, so only its size matters. -/
theorem spread_eq (t : RunTable) (i : UInt64) (buffer : Array UInt8) :
    t.spread i buffer = ByteRow.fillAll 0 (Array.replicate buffer.size 0) (t.row i) := by
  rw [spread, Array.map_const']

/-- A spread row is its row of the image. -/
theorem Represents.spread_eq (h : t.Represents R) {i : UInt64} (row : i < t.length)
    {buffer : Array UInt8} (size : buffer.size = t.length.toNat) :
    t.spread i buffer = (Mask.runs t).imageRow i := by
  have size' : ((Mask.runs t).imageRow i).size = t.length.toNat := Mask.size_imageRow _ i
  rw [RunTable.spread_eq, ByteRow.fillAll_eq, size]
  refine Array.ext_getElem? fun k => ?_
  by_cases live : k < t.length.toNat
  · have top := t.length.toNat_lt
    have value := Words.toNat_ofNat (k := k) (by omega)
    have held : k ∈ ((t.row i).toList.flatMap KeyRun.keys).map (fun key => (0 + key).toNat) ↔
        t.allows i (UInt64.ofNat k) = true := by
      rw [← congrFun (h.covers_eq_allows row) (UInt64.ofNat k), ← ByteRow.mem_flatMap_keys]
      simp only [UInt64.zero_add, List.mem_map]
      exact ⟨fun ⟨key, listed, same⟩ => by rwa [← same, UInt64.ofNat_toNat],
        fun listed => ⟨_, listed, value⟩⟩
    rw [Mask.getElem?_imageRow (.runs t) i live]
    by_cases allowed : t.allows i (UInt64.ofNat k) = true
    · rw [Writes.getElem?_ones_of_mem (held.mpr allowed) (by rwa [Array.size_replicate])]
      exact congrArg some (if_pos allowed).symm
    · rw [Writes.getElem?_ones_of_notMem (mt held.mp allowed), Array.getElem?_replicate,
        if_pos live]
      exact congrArg some (if_neg allowed).symm
  · rw [Array.getElem?_eq_none (by rw [Writes.size_apply, Array.size_replicate]; omega),
      Array.getElem?_eq_none (by omega)]

end RunTable
end AttentionMask
