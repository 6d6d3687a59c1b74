import AttentionMask.Proofs.Crc64.Serial
import AttentionMask.Proofs.Mask.Image

/-! The digest of a mask is the check value of its matrix of zeros and ones. A check value runs over
chunks as over the whole, and both forms feed the same chunk for a row: the matrix its live bytes,
the table the bytes of its runs in a buffer blanked before each row. -/

namespace AttentionMask

variable {R : Nat → Nat → Prop}

namespace Grid

variable {g : Grid}

theorem Represents.digest_eq (h : g.Represents R) :
    g.digest = Crc64.ofBytes (Mask.grid g).image := by
  have rows : (Walk.below g.length).flatMap (fun i => (g.row i).toList) =
      (Walk.below g.length).flatMap fun i => ((Mask.grid g).imageRow i).toList :=
    List.flatMap_congr fun i listed => by rw [h.row_eq (Walk.mem_below.mp listed)]
  rw [digest, Crc64.foldl_update, rows]
  rfl

theorem getElem?_row_eq_ite (g : Grid) (i : UInt64) (k : Nat) :
    (g.row i)[k]? = if k < g.length.toNat then g.bytes[(g.cell i 0).toNat + k]? else none := by
  rw [row, Array.getElem?_extract]
  by_cases live : k < g.length.toNat
  · rw [if_pos live]
    split
    · rfl
    · rw [Array.getElem?_eq_none (by omega)]
  · rw [if_neg live, if_neg (by omega)]

/-- What lies between the rows is never fed. -/
theorem digest_congr {bytes : Array UInt8} (short : g.length.toNat < 2 ^ 32)
    (live : ∀ i < g.length.toNat, ∀ j < g.length.toNat,
      bytes[g.place i j]? = g.bytes[g.place i j]?) :
    digest ⟨g.length, bytes⟩ = g.digest := by
  have rows (i : UInt64) (listed : i ∈ Walk.below g.length) :
      row ⟨g.length, bytes⟩ i = g.row i := by
    have inside := UInt64.lt_iff_toNat_lt.mp (Walk.mem_below.mp listed)
    have first : (g.cell i 0).toNat = g.place i.toNat 0 :=
      Storage.toNat_cell short inside (Nat.zero_le _)
    refine Array.ext_getElem? fun k => ?_
    rw [getElem?_row_eq_ite, getElem?_row_eq_ite]
    refine if_ctx_congr Iff.rfl (fun key => ?_) fun _ => rfl
    change bytes[(g.cell i 0).toNat + k]? = g.bytes[(g.cell i 0).toNat + k]?
    rw [first]
    exact live i.toNat inside k key
  refine List.foldl_ext _ _ 0 fun register i listed => ?_
  rw [rows i listed]

end Grid

namespace RunTable

variable {t : RunTable}

theorem Represents.foldl_digestRow (h : t.Represents R) (order : List UInt64)
    (inside : ∀ i ∈ order, i < t.length) {buffer : Array UInt8} (register : UInt64)
    (size : buffer.size = t.length.toNat) :
    (order.foldl t.digestRow (buffer, register)).2 =
      order.foldl (fun register i => Crc64.update register ((Mask.runs t).imageRow i))
        register := by
  induction order generalizing buffer register with
  | nil => rfl
  | cons i rest ih =>
      obtain ⟨row, others⟩ := List.forall_mem_cons.mp inside
      have bytes := h.spread_eq row size
      have kept : (t.spread i buffer).size = t.length.toNat := by
        rw [bytes]
        exact Mask.size_imageRow _ i
      rw [List.foldl_cons, List.foldl_cons, digestRow, ih others _ kept, bytes]

theorem Represents.digest_eq (h : t.Represents R) :
    t.digest = Crc64.ofBytes (Mask.runs t).image := by
  rw [digest, h.foldl_digestRow _ (fun i => Walk.mem_below.mp) 0 Array.size_replicate,
    Crc64.foldl_update]
  rfl

end RunTable

namespace Mask

variable {m : Mask} {p : Pattern}

theorem Represents.digest_eq (h : m.Represents R) : m.digest = Crc64.ofBytes m.image := by
  cases m with
  | grid g => exact Grid.Represents.digest_eq h
  | runs t => exact RunTable.Represents.digest_eq h

theorem Represents.digest_congr {m' : Mask} (h : m.Represents R) (h' : m'.Represents R)
    (length : m.length = m'.length) : m.digest = m'.digest := by
  rw [h.digest_eq, h'.digest_eq,
    image_congr length fun i _ j _ => h.allows_eq h' length i j]

/-- The digest of an obtainable mask is the check value of its image. So it outlives
conversions, equal relations share it whatever they were built from, and bytes between the rows
have no part in it. -/
theorem obtainable_digest :
    (∀ m, Obtainable m → m.digest = Crc64.ofBytes m.image ∧
      (runs m.toRunTable).digest = m.digest ∧
        ∀ g, m.toGrid = .ok g → (grid g).digest = m.digest) ∧
    (∀ m m', Obtainable m → Obtainable m' → m.length = m'.length →
      (∀ i < m.length, ∀ j < m.length, m.allows i j = m'.allows i j) → m.digest = m'.digest) ∧
    ∀ (g : Grid) (bytes : Array UInt8), Obtainable (grid g) →
      (∀ i < g.length.toNat, ∀ j < g.length.toNat,
        bytes[g.place i j]? = g.bytes[g.place i j]?) →
      (grid ⟨g.length, bytes⟩).digest = (grid g).digest := by
  have expresses (m : Mask) (h : Obtainable m) : ∃ p, m.Expresses p := by
    obtain ⟨p, _, _, own⟩ := h.exists_expresses fun _ fits => fits
    exact ⟨p, own⟩
  refine ⟨fun m h => ?_, fun m m' h h' length same => ?_, fun g bytes h live => ?_⟩
  · obtain ⟨p, own⟩ := expresses m h
    have compact := own.compacted
    refine ⟨own.represents.digest_eq, ?_, fun g done => ?_⟩
    · exact compact.represents.digest_congr own.represents (compact.length.trans own.length.symm)
    · have expanded := own.expanded done
      exact expanded.represents.digest_congr own.represents
        (expanded.length.trans own.length.symm)
  · obtain ⟨p, own⟩ := expresses m h
    obtain ⟨p', own'⟩ := expresses m' h'
    rw [own.represents.digest_eq, own'.represents.digest_eq, image_congr length same]
  · obtain ⟨p, own⟩ := expresses (grid g) h
    exact Grid.digest_congr own.represents.framed.short live

/-- Both forms of one mask, and its matrix with a byte set in the padding after row zero. -/
theorem obtainable_digest_clamped :
    ∃ t g, RunTable.build ⟨13, 4, some [7, 7, 20], 1, .clamped⟩ = .ok t ∧
      Grid.build ⟨13, 4, some [7, 7, 20], 1, .clamped⟩ = .ok g ∧
      (runs t).digest = Crc64.ofBytes (runs t).image ∧ (grid g).digest = (runs t).digest ∧
      (runs g.toRunTable).digest = (grid g).digest ∧
      (grid ⟨g.length, g.bytes.setIfInBounds (g.place 0 13) 255⟩).digest = (grid g).digest := by
  have ok : Pattern.Accepted ⟨13, 4, some [7, 7, 20], 1, .clamped⟩ :=
    Pattern.check_eq_ok_iff.mp (by decide)
  have fits : Fits ⟨13, 4, some [7, 7, 20], 1, .clamped⟩ := by
    unfold Fits
    decide
  obtain ⟨t, done, table, own⟩ := exists_runs ok fits
  obtain ⟨g, done', image, own'⟩ := exists_grid ok fits (by decide)
  have length : (grid g).length = (runs t).length := own'.length.trans own.length.symm
  have count : g.length = 13 := own'.length
  have keys : g.length.toNat = 13 := congrArg UInt64.toNat count
  have wide : g.length.toNat < g.stride.toNat := by
    rw [Grid.stride, count]
    decide
  refine ⟨t, g, done, done', (obtainable_digest.1 _ table).1, ?_,
    (obtainable_digest.1 _ image).2.1, ?_⟩
  · exact obtainable_digest.2.1 _ _ image table length fun i _ j _ =>
      own'.represents.allows_eq own.represents length i j
  · refine obtainable_digest.2.2 g _ image fun i row j key => Array.getElem?_setIfInBounds_ne ?_
    intro same
    have past := (Grid.place_unique (g := g) (by omega) (by omega) same).2
    omega

end Mask
end AttentionMask
