import AttentionMask.Proofs.RowRule.Marks
import AttentionMask.Proofs.RunTable.Assembly

/-! Rows of parameters that were not checked. Only length, window and band have to be in range:
offsets outside the sequence, zero and negative ones included, are dropped by the reduction itself,
and an absent list is an empty one. The runs of a row and its painted bytes hold the same keys,
those that the other offsets permit, and painting touches no other byte. -/

namespace AttentionMask

namespace Pattern

variable {p : Pattern}

/-- The same parameters without the offsets that link no two positions of the sequence. -/
def inner (p : Pattern) : Pattern :=
  { p with offsets := p.offsets.map (List.filter (RowRule.inside p.length)) }

theorem links_inner (p : Pattern) : p.inner.links = p.links.filter (RowRule.inside p.length) := by
  unfold links inner
  cases p.offsets <;> rfl

/-- The reduction drops the same offsets. -/
theorem rule_inner (p : Pattern) : p.inner.rule = p.rule := by
  have kept : p.inner.links.filter (RowRule.inside p.length) =
      p.links.filter (RowRule.inside p.length) := by
    rw [links_inner, List.filter_filter]
    simp only [Bool.and_self]
  exact congrArg (fun offsets => RowRule.mk p.length p.window (min p.band (2 * p.length))
    p.causality (RowRule.distinct (RowRule.ordered offsets))) kept

theorem Measured.inner (h : p.Measured) : p.inner.Measured :=
  ⟨h.one_le_length, h.length_le_max, h.window_nonneg, h.band_nonneg⟩

theorem one_le_of_mem_inner {o : Int64} (listed : o ∈ p.inner.links) : 1 ≤ o := by
  rw [links_inner, List.mem_filter, RowRule.inside, decide_eq_true_iff] at listed
  exact listed.2.1

theorem Measured.sees_inner_iff (h : p.Measured) {i j : Nat} (row : (i : Int) < p.length.toInt) :
    p.rule.Sees i j ↔ p.inner.Permits i j := by
  rw [← rule_inner]
  exact h.inner.sees_iff (fun _ => one_le_of_mem_inner) row

end Pattern

namespace RowRule

variable {r : RowRule} {i : Int64}

/-- In the row that begins at byte `base` the keys have ones, and no other byte of
the image differs. -/
structure MarksOnly (keys : Nat → Prop) (base : Nat) (image marked : Array UInt8) : Prop where
  size : marked.size = image.size
  one : ∀ j, keys j → marked[base + j]? = some 1
  kept : ∀ slot, (∀ j, keys j → slot ≠ base + j) → marked[slot]? = image[slot]?

theorem marksOnly_paint (h : r.Sound) (row : r.HasRow i) {base : UInt64} {image : Array UInt8}
    (room : base.toNat + r.length.toInt.toNat ≤ image.size) (top : image.size < 2 ^ 64) :
    MarksOnly (fun j => r.Sees i.toInt j) base.toNat image (r.paint i base image) := by
  have place (j : Int64) (seen : r.Sees i.toInt j.toInt) :
      (base + j.toUInt64).toNat = base.toNat + j.toInt.toNat := by
    have key := Words.toNat_toUInt64 seen.1
    have inside := seen.2.1
    rw [Words.toNat_add (by omega), key]
  rw [r.paint_eq_writes]
  refine ⟨Writes.size_apply _ _, fun j seen => ?_, fun slot outside => ?_⟩
  · have inside := seen.2.1
    obtain ⟨-, value⟩ := hasRow_ofNat h (k := j) (by omega)
    have seen' : r.Sees i.toInt (Int64.ofNat j).toInt := by rwa [value]
    refine Writes.getElem?_ones_of_mem (List.mem_map.mpr ⟨_, (mem_marks h row).mpr seen', ?_⟩)
      (by omega)
    rw [place _ seen', value, Int.toNat_natCast]
  · refine Writes.getElem?_ones_of_notMem (fun listed => ?_) image
    obtain ⟨j, marked, same⟩ := List.mem_map.mp listed
    have seen := (mem_marks h row).mp marked
    have cast : ((j.toInt.toNat : Nat) : Int) = j.toInt := Int.toNat_of_nonneg seen.1
    exact outside j.toInt.toNat (by rwa [cast]) (by rw [← same, place j seen])

end RowRule

open KeyRun

/-- Whatever the offsets are and whatever the buffers held, the runs of a row are the separated runs
of the keys that the offsets inside the sequence permit, and painting the row sets the bytes of
these keys and leaves all others. Dropping the offsets outside beforehand changes neither. -/
theorem unchecked_rows_agree {p : Pattern} (measured : p.Measured) {i : Int64} (first : 0 ≤ i)
    (last : i < p.length) :
    (∀ buffer, Canonical (p.rule.load i buffer).toList ∧ ∀ key,
      Covers (p.rule.load i buffer).toList key ↔ p.inner.Permits i.toInt.toNat key.toNat) ∧
    (∀ (base : UInt64) (image : Array UInt8),
      base.toNat + p.length.toInt.toNat ≤ image.size → image.size < 2 ^ 64 →
        RowRule.MarksOnly (p.inner.Permits i.toInt.toNat) base.toNat image
          (p.rule.paint i base image)) ∧
    (∀ buffer, p.inner.rule.load i buffer = p.rule.load i buffer) ∧
    ∀ base image, p.inner.rule.paint i base image = p.rule.paint i base image := by
  have sound := measured.sound
  have row : p.rule.HasRow i := ⟨Int64.le_iff_toInt_le.mp first, Int64.lt_iff_toInt_lt.mp last⟩
  have cast : ((i.toInt.toNat : Nat) : Int) = i.toInt := Int.toNat_of_nonneg row.nonneg
  have inside : ((i.toInt.toNat : Nat) : Int) < p.length.toInt := by
    rw [cast]
    exact row.lt_length
  have sees (j : Nat) : p.rule.Sees i.toInt j ↔ p.inner.Permits i.toInt.toNat j := by
    rw [← measured.sees_inner_iff inside, cast]
  refine ⟨fun buffer => ?_, fun base image room top => ?_, fun buffer => ?_, fun base image => ?_⟩
  · rw [p.rule.load_toList]
    exact ⟨RowRule.canonical_runs sound row,
      fun key => (RowRule.covers_runs sound row).trans (sees key.toNat)⟩
  · have keys : (fun j : Nat => p.rule.Sees i.toInt j) = p.inner.Permits i.toInt.toNat :=
      funext fun j => propext (sees j)
    rw [← keys]
    exact RowRule.marksOnly_paint sound row room top
  · rw [p.rule_inner]
  · rw [p.rule_inner]

/-- A zero, a negative and a far offset beside the seven, a buffer with a run left over, and a row
of sevens that begins two bytes into its image. -/
theorem unchecked_rows_agree_clamped :
    Covers ((Pattern.rule ⟨13, 2, some [0, 7, -5, 40, 7], 1, .clamped⟩).load 9 #[⟨7, 9⟩]).toList 1 ∧
    ((Pattern.rule ⟨13, 2, some [0, 7, -5, 40, 7], 1, .clamped⟩).paint 9 2
      (Array.replicate 15 7))[3]? = some 1 ∧
    ((Pattern.rule ⟨13, 2, some [0, 7, -5, 40, 7], 1, .clamped⟩).paint 9 2
      (Array.replicate 15 7))[6]? = some 7 := by
  have measured : Pattern.Measured ⟨13, 2, some [0, 7, -5, 40, 7], 1, .clamped⟩ :=
    ⟨by decide, by decide, by decide, by decide⟩
  obtain ⟨runs, bytes, _⟩ := unchecked_rows_agree (i := 9) measured (by decide) (by decide)
  have marks := bytes 2 (Array.replicate 15 7) (by decide) (by decide)
  have permitted :
      Pattern.Permits (Pattern.inner ⟨13, 2, some [0, 7, -5, 40, 7], 1, .clamped⟩) 9 1 := by
    unfold Pattern.Permits
    decide
  have denied :
      ¬Pattern.Permits (Pattern.inner ⟨13, 2, some [0, 7, -5, 40, 7], 1, .clamped⟩) 9 4 := by
    unfold Pattern.Permits
    decide
  refine ⟨((runs #[⟨7, 9⟩]).2 1).mpr permitted, marks.one 1 permitted, ?_⟩
  rw [marks.kept 6 fun j held same => denied ?_]
  · rfl
  · obtain rfl : j = 4 := Nat.add_left_cancel (n := 2) same.symm
    exact held

end AttentionMask
