import AttentionMask.Grid
import AttentionMask.Proofs.Storage
import AttentionMask.Proofs.Writes

/-! What a matrix of bytes says. It represents a relation when its bytes are one on the
related pairs and zero everywhere else, padding included; one relation has one such matrix
of each length. -/

namespace AttentionMask.Grid

variable {g g' : Grid} {R : Nat → Nat → Prop} {i j i' j' slot : Nat}

/-- The position of byte `j` of row `i` in the image. -/
def place (g : Grid) (i j : Nat) : Nat :=
  i * g.stride.toNat + j

theorem place_lt (row : i < g.length.toNat) (key : j < g.stride.toNat) :
    g.place i j < g.length.toNat * g.stride.toNat := by
  have next : (i + 1) * g.stride.toNat ≤ g.length.toNat * g.stride.toNat :=
    Nat.mul_le_mul_right _ row
  rw [Nat.succ_mul] at next
  rw [place]
  omega

theorem place_unique (key : j < g.stride.toNat) (key' : j' < g.stride.toNat)
    (same : g.place i j = g.place i' j') : i = i' ∧ j = j' := by
  have positive : 0 < g.stride.toNat := Nat.zero_lt_of_lt key
  have row : i = i' := by
    have quotient := congrArg (· / g.stride.toNat) same
    simpa [place, Nat.mul_add_div positive, Nat.mul_comm _ g.stride.toNat,
      Nat.div_eq_of_lt key, Nat.div_eq_of_lt key'] using quotient
  subst row
  exact ⟨rfl, Nat.add_left_cancel same⟩

theorem exists_place (inside : slot < g.length.toNat * g.stride.toNat) :
    ∃ i < g.length.toNat, ∃ j < g.stride.toNat, slot = g.place i j := by
  have positive : 0 < g.stride.toNat := Nat.pos_of_mul_pos_left (Nat.zero_lt_of_lt inside)
  have row : slot / g.stride.toNat < g.length.toNat :=
    (Nat.div_lt_iff_lt_mul positive).mpr inside
  exact ⟨_, row, _, Nat.mod_lt slot positive, (Nat.div_add_mod' slot _).symm⟩

/-- Fewer than `2 ^ 32` rows of bytes at their stride, with zeros after the keys of a row. -/
structure Framed (g : Grid) : Prop where
  short : g.length.toNat < 2 ^ 32
  size_bytes : g.bytes.size = g.length.toNat * g.stride.toNat
  padding : ∀ i < g.length.toNat, ∀ j < g.stride.toNat, g.length.toNat ≤ j →
    g.bytes[g.place i j]? = some 0

instance (g : Grid) : Decidable g.Framed :=
  decidable_of_iff (g.length.toNat < 2 ^ 32 ∧
      g.bytes.size = g.length.toNat * g.stride.toNat ∧
        ∀ i < g.length.toNat, ∀ j < g.stride.toNat, g.length.toNat ≤ j →
          g.bytes[g.place i j]? = some 0)
    ⟨fun ⟨short, size, padding⟩ => ⟨short, size, padding⟩,
      fun h => ⟨h.short, h.size_bytes, h.padding⟩⟩

structure Represents (g : Grid) (R : Nat → Nat → Prop) : Prop where
  framed : g.Framed
  one : ∀ i < g.length.toNat, ∀ j < g.length.toNat, R i j → g.bytes[g.place i j]? = some 1
  zero : ∀ i < g.length.toNat, ∀ j < g.length.toNat, ¬R i j → g.bytes[g.place i j]? = some 0

namespace Framed

theorem length_le_stride (h : g.Framed) : g.length.toNat ≤ g.stride.toNat := by
  have short := h.short
  exact Storage.le_stride (by omega)

theorem toNat_cell (h : g.Framed) {a b : UInt64} (row : a.toNat < g.length.toNat)
    (key : b.toNat ≤ g.stride.toNat) : (g.cell a b).toNat = g.place a.toNat b.toNat :=
  Storage.toNat_cell h.short row key

theorem ext (h : g.Framed) (h' : g'.Framed) (length : g.length = g'.length)
    (same : ∀ i < g.length.toNat, ∀ j < g.length.toNat,
      g.bytes[g.place i j]? = g'.bytes[g'.place i j]?) : g = g' := by
  obtain ⟨n, bytes⟩ := g
  obtain ⟨n', bytes'⟩ := g'
  change n = n' at length
  subst length
  refine congrArg (Grid.mk n) (Array.ext_getElem? fun slot => ?_)
  by_cases inside : slot < n.toNat * (Storage.stride n).toNat
  · obtain ⟨i, row, j, key, rfl⟩ := exists_place (g := ⟨n, bytes⟩) inside
    by_cases live : j < n.toNat
    · exact same i row j live
    · have blank := h.padding i row j key (Nat.not_lt.mp live)
      exact blank.trans (h'.padding i row j key (Nat.not_lt.mp live)).symm
  · have size := h.size_bytes
    have size' := h'.size_bytes
    change bytes.size = n.toNat * (Storage.stride n).toNat at size
    change bytes'.size = n.toNat * (Storage.stride n).toNat at size'
    rw [Array.getElem?_eq_none (by omega), Array.getElem?_eq_none (by omega)]

theorem size_row (h : g.Framed) {a : UInt64} (row : a.toNat < g.length.toNat) :
    (g.row a).size = g.length.toNat := by
  have wide := h.length_le_stride
  have next : (a.toNat + 1) * g.stride.toNat ≤ g.length.toNat * g.stride.toNat :=
    Nat.mul_le_mul_right _ row
  rw [Nat.succ_mul] at next
  have first := h.toNat_cell (b := 0) row (Nat.zero_le _)
  change (g.cell a 0).toNat = a.toNat * g.stride.toNat + 0 at first
  rw [Grid.row, Array.size_extract, h.size_bytes]
  omega

theorem getElem?_row (h : g.Framed) {a : UInt64} (row : a.toNat < g.length.toNat)
    (live : j < g.length.toNat) : (g.row a)[j]? = g.bytes[g.place a.toNat j]? := by
  have size := h.size_row row
  have first := h.toNat_cell (b := 0) row (Nat.zero_le _)
  change (g.cell a 0).toNat = a.toNat * g.stride.toNat + 0 at first
  have inside : j < (g.row a).size := size ▸ live
  rw [Grid.row, Array.getElem?_extract]
  rw [Grid.row, Array.size_extract] at inside
  rw [if_pos (by omega), first]
  rfl

end Framed

theorem Represents.unique (h : g.Represents R) (h' : g'.Represents R)
    (length : g.length = g'.length) : g = g' := by
  refine h.framed.ext h'.framed length fun i row j key => ?_
  have row' : i < g'.length.toNat := length ▸ row
  have key' : j < g'.length.toNat := length ▸ key
  by_cases related : R i j
  · rw [h.one i row j key related, h'.one i row' j key' related]
  · rw [h.zero i row j key related, h'.zero i row' j key' related]

/-- The byte of a pair answers for the relation, and for nothing outside the sequence. -/
theorem Represents.allows_iff (h : g.Represents R) {a b : UInt64} :
    g.allows a b = true ↔ a < g.length ∧ b < g.length ∧ R a.toNat b.toNat := by
  unfold allows
  by_cases outside : g.length ≤ a ∨ g.length ≤ b
  · simp only [outside, if_true, Bool.false_eq_true, false_iff]
    intro ⟨row, key, _⟩
    exact outside.elim (UInt64.not_le.mpr row) (UInt64.not_le.mpr key)
  · obtain ⟨row, key⟩ := not_or.mp outside
    rw [UInt64.not_le] at row key
    have rowNat := UInt64.lt_iff_toNat_lt.mp row
    have keyNat := UInt64.lt_iff_toNat_lt.mp key
    have wide := h.framed.length_le_stride
    rw [if_neg outside, Array.getD_eq_getD_getElem?, h.framed.toNat_cell rowNat (by omega)]
    by_cases related : R a.toNat b.toNat
    · rw [h.one _ rowNat _ keyNat related]
      simp [row, key, related]
    · rw [h.zero _ rowNat _ keyNat related]
      simp [related]

theorem represents_ones {n total : UInt64} {places : List Nat} (short : n.toNat < 2 ^ 32)
    (size : total.toNat = n.toNat * (Storage.stride n).toNat)
    (listed : ∀ slot, slot ∈ places ↔
      ∃ i < n.toNat, ∃ j < n.toNat, R i j ∧ slot = i * (Storage.stride n).toNat + j) :
    (⟨n, Writes.apply (Array.replicate total.toNat 0) (Writes.ones places)⟩ : Grid).Represents
      R := by
  have wide : n.toNat ≤ (Storage.stride n).toNat := Storage.le_stride (by omega)
  generalize made :
    (⟨n, Writes.apply (Array.replicate total.toNat 0) (Writes.ones places)⟩ : Grid) = g
  have length : g.length = n := made ▸ rfl
  have bytes : g.bytes = Writes.apply (Array.replicate total.toNat 0) (Writes.ones places) :=
    made ▸ rfl
  have full : g.bytes.size = g.length.toNat * g.stride.toNat := by
    rw [bytes, Writes.size_apply, Array.size_replicate, size, stride, length]
  -- A place determines its row and key, so an unrelated pair is not written through another.
  have blank (i j : Nat) (row : i < g.length.toNat) (key : j < g.stride.toNat)
      (unset : ¬(j < g.length.toNat ∧ R i j)) : g.bytes[g.place i j]? = some 0 := by
    have inside := place_lt row key
    have absent : g.place i j ∉ places := by
      intro member
      obtain ⟨i', _, j', live, related, same⟩ := (listed _).mp member
      rw [← length] at live same
      have key' : j' < g.stride.toNat := by
        rw [stride, length] at *
        omega
      obtain ⟨rfl, rfl⟩ := place_unique key key' same
      exact unset ⟨live, related⟩
    rw [bytes, Writes.getElem?_ones_of_notMem absent, Array.getElem?_replicate, if_pos]
    rwa [size, ← length]
  refine ⟨⟨length ▸ short, full, fun i row j key past => ?_⟩, fun i row j key related => ?_,
    fun i row j key unrelated => ?_⟩
  · exact blank i j row key fun set => Nat.not_lt.mpr past set.1
  · have inside := place_lt (g := g) row (j := j) (by rw [stride, length] at *; omega)
    rw [bytes]
    refine Writes.getElem?_ones_of_mem ((listed _).mpr ?_) ?_
    · rw [← length]
      exact ⟨i, row, j, key, related, rfl⟩
    · rwa [Array.size_replicate, size, ← length]
  · exact blank i j row (by rw [stride, length] at *; omega) fun set => unrelated set.2

end AttentionMask.Grid
