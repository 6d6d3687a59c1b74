import AttentionMask.Proofs.Crc64.Detection
import AttentionMask.Proofs.Mask.Digest

/-! What the digest of a mask tells apart. Masks of one length that differ only in eight positions
in a row, counted through the rows, have different digests, whatever forms they are held in; so the
digest shows every change of a single pair. -/

namespace AttentionMask.Mask

variable {m m' : Mask} {R R' : Nat → Nat → Prop}

/-- The runs of all rows can be counted in a word, as they must be for a table to hold them.
Parameters that fit are storable, and so are all for fewer than `2 ^ 32` positions. -/
def Storable (p : Pattern) : Prop :=
  p.rule.runRows.flatten.length < 2 ^ 64

theorem Derived.exists_represents_of_storable (h : Derived Storable m) : ∃ R, m.Represents R := by
  obtain ⟨p, _, _, own⟩ := h.exists_expresses_of_room fun p fit _ => fit
  exact ⟨p.Permits, own.represents⟩

theorem Represents.digest_ne (h : m.Represents R) (h' : m'.Represents R')
    (length : m.length = m'.length) (differ : m.image ≠ m'.image) (start : Nat)
    (same : ∀ k, k < start ∨ start + 8 ≤ k → m.image[k]? = m'.image[k]?) :
    m.digest ≠ m'.digest := by
  have size : m.image.size = m'.image.size := by rw [size_image, size_image, length]
  rw [h.digest_eq, h'.digest_eq]
  exact Crc64.update_ne_of_window 0 size differ same

/-- Every position of the image is that of a pair. -/
theorem exists_pair {k : Nat} (inside : k < m.length.toNat * m.length.toNat) :
    ∃ i < m.length, ∃ j < m.length, i.toNat * m.length.toNat + j.toNat = k := by
  have top := m.length.toNat_lt
  have width : 0 < m.length.toNat := Nat.pos_of_mul_pos_left (Nat.zero_lt_of_lt inside)
  have row : k / m.length.toNat < m.length.toNat := Nat.div_lt_of_lt_mul inside
  have key : k % m.length.toNat < m.length.toNat := Nat.mod_lt k width
  refine ⟨_, Words.ofNat_lt row, _, Words.ofNat_lt key, ?_⟩
  rw [Words.toNat_ofNat (by omega), Words.toNat_ofNat (by omega), Nat.mul_comm, Nat.div_add_mod]

/-- Images of one length agree where the pair that stands there is permitted in both
or in neither. -/
theorem getElem?_image_congr (length : m.length = m'.length) {k : Nat}
    (same : ∀ i < m.length, ∀ j < m.length, i.toNat * m.length.toNat + j.toNat = k →
      m.allows i j = m'.allows i j) : m.image[k]? = m'.image[k]? := by
  by_cases inside : k < m.length.toNat * m.length.toNat
  · obtain ⟨i, row, j, key, place⟩ := exists_pair inside
    have byte := getElem?_image row key
    have byte' := getElem?_image (m := m') (length ▸ row) (length ▸ key)
    rw [← length] at byte'
    rw [← place, byte, byte', same i row j key place]
  · rw [Array.getElem?_eq_none (by rw [size_image]; omega),
      Array.getElem?_eq_none (by rw [size_image, ← length]; omega)]

/-- Where all pairs but one agree, so do all positions of the images but that of the pair. -/
theorem getElem?_image_of_others (length : m.length = m'.length) {i j : UInt64}
    (same : ∀ i' < m.length, ∀ j' < m.length, i' ≠ i ∨ j' ≠ j → m.allows i' j' = m'.allows i' j')
    {k : Nat} (other : k ≠ i.toNat * m.length.toNat + j.toNat) : m.image[k]? = m'.image[k]? := by
  refine getElem?_image_congr length fun i' row j' key place => same i' row j' key ?_
  by_contra both
  obtain ⟨rfl, rfl⟩ : i' = i ∧ j' = j := by simpa using both
  exact other place.symm

theorem image_ne_of_allows_ne (length : m.length = m'.length) {i j : UInt64} (row : i < m.length)
    (key : j < m.length) (differ : m.allows i j ≠ m'.allows i j) : m.image ≠ m'.image := by
  intro same
  have byte := getElem?_image row key
  have byte' := getElem?_image (m := m') (length ▸ row) (length ▸ key)
  rw [← length, ← same, byte] at byte'
  revert byte' differ
  cases m.allows i j <;> cases m'.allows i j <;> simp

/-- Where eight bytes in a row stand in a message, a change of them shows, and so does a change of
the register before the message. The digests of two masks of one length therefore differ when their
images differ in eight positions in a row and nowhere else, such as in a single pair. -/
theorem digests_tell_apart :
    (∀ (register : UInt64) (before u v after : Array UInt8), u.size = v.size → u.size ≤ 8 → u ≠ v →
      Crc64.update register (before ++ u ++ after) ≠
        Crc64.update register (before ++ v ++ after)) ∧
    (∀ (bytes : Array UInt8) (register register' : UInt64), register ≠ register' →
      Crc64.update register bytes ≠ Crc64.update register' bytes) ∧
    (∀ m m', Derived Storable m → Derived Storable m' → m.length = m'.length →
      m.image ≠ m'.image → ∀ start,
        (∀ k, k < start ∨ start + 8 ≤ k → m.image[k]? = m'.image[k]?) → m.digest ≠ m'.digest) ∧
    ∀ m m', Derived Storable m → Derived Storable m' → m.length = m'.length →
      ∀ i < m.length, ∀ j < m.length, m.allows i j ≠ m'.allows i j →
        (∀ i' < m.length, ∀ j' < m.length, i' ≠ i ∨ j' ≠ j → m.allows i' j' = m'.allows i' j') →
          m.digest ≠ m'.digest := by
  refine ⟨fun register before u v after size short differ =>
      Crc64.update_ne_of_block register size short differ,
    fun bytes register register' differ same => differ (Crc64.update_injective bytes same),
    fun m m' h h' length differ start same => ?_,
    fun m m' h h' length i row j key differ same => ?_⟩
  · obtain ⟨R, own⟩ := h.exists_represents_of_storable
    obtain ⟨R', own'⟩ := h'.exists_represents_of_storable
    exact own.digest_ne own' length differ start same
  · obtain ⟨R, own⟩ := h.exists_represents_of_storable
    obtain ⟨R', own'⟩ := h'.exists_represents_of_storable
    refine own.digest_ne own' length (image_ne_of_allows_ne length row key differ)
      (i.toNat * m.length.toNat + j.toNat) fun k outside => ?_
    exact getElem?_image_of_others length same (by omega)

/-- Thirteen positions with a band one step short of the last key of row zero, and
with that step. -/
theorem exists_single_change :
    ∃ t g, RunTable.build ⟨13, 0, some [12], 23, .unclamped⟩ = .ok t ∧
      Grid.build ⟨13, 0, some [12], 24, .unclamped⟩ = .ok g ∧
      Derived Storable (runs t) ∧ Derived Storable (grid g) ∧
      (runs t).length = 13 ∧ (grid g).length = 13 ∧ (runs t).allows 0 12 ≠ (grid g).allows 0 12 ∧
      ∀ i < 13, ∀ j < 13, i ≠ 0 ∨ j ≠ 12 → (runs t).allows i j = (grid g).allows i j := by
  have ok : Pattern.Accepted ⟨13, 0, some [12], 23, .unclamped⟩ :=
    Pattern.check_eq_ok_iff.mp (by decide)
  have ok' : Pattern.Accepted ⟨13, 0, some [12], 24, .unclamped⟩ :=
    Pattern.check_eq_ok_iff.mp (by decide)
  obtain ⟨t, done, length, table⟩ := RunTable.exists_build ok (ok.room_of_short (by decide))
  obtain ⟨g, done', length', image⟩ := Grid.exists_build ok' (by decide)
  have own : (runs t).Expresses ⟨13, 0, some [12], 23, .unclamped⟩ := ⟨ok, length, table⟩
  have own' : (grid g).Expresses ⟨13, 0, some [12], 24, .unclamped⟩ := ⟨ok', length', image⟩
  have permits (band : Int64) (i j : Nat) :
      Pattern.Permits ⟨13, 0, some [12], band, .unclamped⟩ i j ↔ (i : Int) < 13 ∧ (j : Int) < 13 ∧
        (max 0 (i : Int) ≤ j ∧ j ≤ i ∨
          ((((j : Int) - ((i : Int) - 12)).natAbs : Nat) : Int) ≤ band.toInt) := by
    have inside : (12 : Int64) < 13 := by decide
    simp [Pattern.Permits, Pattern.links, inside]
  have narrow : (23 : Int64).toInt = 23 := rfl
  have wide : (24 : Int64).toInt = 24 := rfl
  refine ⟨t, g, done, done',
    .built (ok.room_of_short (by decide)) (buildAs_runs_iff.mpr ⟨t, done, rfl⟩),
    .built (ok'.room_of_short (by decide)) (buildAs_grid_iff.mpr ⟨g, done', rfl⟩),
    length, length', ?_, fun i row j key other => ?_⟩
  · rw [ne_eq, Bool.eq_iff_iff, own.allows_iff, own'.allows_iff, permits, permits, narrow, wide]
    decide
  · rw [UInt64.lt_iff_toNat_lt] at row key
    rw [← UInt64.toNat_inj.ne, ← UInt64.toNat_inj.ne] at other
    simp only [UInt64.reduceToNat] at row key other
    rw [Bool.eq_iff_iff, own.allows_iff, own'.allows_iff, permits, permits, narrow, wide]
    omega

/-- One step of band more permits one more pair of thirteen positions. The digests of a table
without it and of a matrix with it differ; so do those of eight bytes with their last bit changed,
between others. -/
theorem digests_tell_apart_single :
    (∃ t g, RunTable.build ⟨13, 0, some [12], 23, .unclamped⟩ = .ok t ∧
      Grid.build ⟨13, 0, some [12], 24, .unclamped⟩ = .ok g ∧
      (runs t).digest ≠ (grid g).digest ∧ (grid g).digest ≠ (runs t).digest) ∧
    Crc64.update 7 (#[1, 2] ++ #[0, 0, 0, 0, 0, 0, 0, 0] ++ #[3]) ≠
      Crc64.update 7 (#[1, 2] ++ #[0, 0, 0, 0, 0, 0, 0, 128] ++ #[3]) ∧
    Crc64.update 7 #[1, 2] ≠ Crc64.update 8 #[1, 2] := by
  obtain ⟨t, g, done, done', own, own', count, count', differ, same⟩ := exists_single_change
  have length : (runs t).length = (grid g).length := count.trans count'.symm
  have first : (0 : UInt64) < (runs t).length := count ▸ by decide
  have last : (12 : UInt64) < (runs t).length := count ▸ by decide
  refine ⟨⟨t, g, done, done', ?_, ?_⟩, ?_, ?_⟩
  · refine digests_tell_apart.2.2.1 _ _ own own' length
      (image_ne_of_allows_ne length first last differ) 12 fun k outside => ?_
    have other : k ≠ (0 : UInt64).toNat * (runs t).length.toNat + (12 : UInt64).toNat := by
      rw [UInt64.toNat_zero, Nat.zero_mul, show (12 : UInt64).toNat = 12 from rfl]
      omega
    exact getElem?_image_of_others length
      (fun i row j key => same i (count ▸ row) j (count ▸ key)) other
  · exact digests_tell_apart.2.2.2 _ _ own' own length.symm 0 (length ▸ first) 12 (length ▸ last)
      (Ne.symm differ) fun i row j key other =>
        (same i (count' ▸ row) j (count' ▸ key) other).symm
  · exact digests_tell_apart.1 7 #[1, 2] _ _ #[3] rfl (by decide) (by decide)
  · exact digests_tell_apart.2.1 #[1, 2] 7 8 (by decide)

end AttentionMask.Mask
