import AttentionMask.RowRule.Painting
import AttentionMask.Proofs.RowRule.Runs
import AttentionMask.Proofs.Writes

/-! A row as marks: the walks up and down from a centre meet exactly the keys of the sequence in the
band, and all marks of a row are the keys the rule sees. -/

namespace AttentionMask.RowRule

variable {r : RowRule} {i o j : Int64}

theorem toInt_firstAbove (h : r.Sound) (row : r.HasRow i) (listed : o ∈ r.offsets) :
    (r.firstAbove i o).toInt = max 1 (o.toInt - i.toInt) := by
  have centre := toInt_centre h row listed
  have start : (-(i - o)).toInt = -(i - o).toInt :=
    Words.toInt_neg (centre ▸ (bandHolds h row listed).below)
  rw [firstAbove, Words.toInt_max, start, centre, Int64.toInt_one]
  omega

theorem toInt_lastAbove (h : r.Sound) (row : r.HasRow i) (listed : o ∈ r.offsets) :
    (r.lastAbove i o).toInt = min r.band.toInt (r.length.toInt - 1 - (i.toInt - o.toInt)) := by
  have centre := toInt_centre h row listed
  have last := toInt_length_sub_one h
  have room : (r.length - 1 - (i - o)).toInt = (r.length - 1).toInt - (i - o).toInt :=
    Words.toInt_sub (centre ▸ last ▸ (bandHolds h row listed).above)
  rw [lastAbove, Words.toInt_min, room, last, centre]

theorem toInt_lastBelow (h : r.Sound) (row : r.HasRow i) (listed : o ∈ r.offsets) :
    (r.lastBelow i o).toInt = min r.band.toInt (i.toInt - o.toInt) := by
  rw [lastBelow, Words.toInt_min, toInt_centre h row listed]

/-- The steps up meet the keys of the sequence above the centre, as far as the band reaches. -/
theorem mem_above (h : r.Sound) (row : r.HasRow i) (listed : o ∈ r.offsets) :
    j ∈ r.above i o ↔ 0 ≤ j.toInt ∧ j.toInt < r.length.toInt ∧
      i.toInt - o.toInt < j.toInt ∧ j.toInt ≤ i.toInt - o.toInt + r.band.toInt := by
  have centre := toInt_centre h row listed
  have first := toInt_firstAbove h row listed
  have last := toInt_lastAbove h row listed
  have room := (bandHolds h row listed).above.high
  have bound := h.length_le
  simp only [above, List.mem_map, Walk.mem_upTo, Int64.le_iff_toInt_le, first, last]
  refine ⟨?_, ?_⟩
  · intro reached
    obtain ⟨k, ⟨atLeast, atMost⟩, same⟩ := reached
    subst same
    have reach : (i - o + k).toInt = (i - o).toInt + k.toInt :=
      Words.toInt_add ⟨by omega, by omega⟩
    omega
  · intro inBand
    obtain ⟨nonneg, inside, above, near⟩ := inBand
    have step : (j - (i - o)).toInt = j.toInt - (i - o).toInt :=
      Words.toInt_sub ⟨by omega, by omega⟩
    have reach : (i - o + (j - (i - o))).toInt = (i - o).toInt + (j - (i - o)).toInt :=
      Words.toInt_add ⟨by omega, by omega⟩
    exact ⟨j - (i - o), ⟨by omega, by omega⟩, Int64.toInt_inj.mp (by omega)⟩

theorem mem_below (h : r.Sound) (row : r.HasRow i) (listed : o ∈ r.offsets) :
    j ∈ r.below i o ↔ 0 ≤ j.toInt ∧ j.toInt < i.toInt - o.toInt ∧
      i.toInt - o.toInt - r.band.toInt ≤ j.toInt := by
  have centre := toInt_centre h row listed
  have last := toInt_lastBelow h row listed
  have top := (bandHolds h row listed).centre.high
  simp only [below, List.mem_map, Walk.mem_upTo, Int64.le_iff_toInt_le, last, Int64.toInt_one]
  refine ⟨?_, ?_⟩
  · intro reached
    obtain ⟨k, ⟨atLeast, atMost⟩, same⟩ := reached
    subst same
    have reach : (i - o - k).toInt = (i - o).toInt - k.toInt :=
      Words.toInt_sub ⟨by omega, by omega⟩
    omega
  · intro inBand
    obtain ⟨nonneg, under, near⟩ := inBand
    have step : (i - o - j).toInt = (i - o).toInt - j.toInt :=
      Words.toInt_sub ⟨by omega, by omega⟩
    have reach : (i - o - (i - o - j)).toInt = (i - o).toInt - (i - o - j).toInt :=
      Words.toInt_sub ⟨by omega, by omega⟩
    exact ⟨i - o - j, ⟨by omega, by omega⟩, Int64.toInt_inj.mp (by omega)⟩

theorem admits_iff : r.admits i j = true ↔ 0 ≤ j.toInt ∧ j.toInt < r.length.toInt ∧
    (r.causality = .clamped → j.toInt ≤ i.toInt) := by
  rw [admits, decide_eq_true_iff, Int64.le_iff_toInt_le, Int64.lt_iff_toInt_lt,
    Int64.le_iff_toInt_le, Int64.toInt_zero]

theorem mem_bandKeys (h : r.Sound) (row : r.HasRow i) (listed : o ∈ r.offsets) :
    j ∈ r.bandKeys i o ↔ (0 ≤ j.toInt ∧ j.toInt < r.length.toInt) ∧
      i.toInt - o.toInt - r.band.toInt ≤ j.toInt ∧ j.toInt ≤ i.toInt - o.toInt + r.band.toInt ∧
        (r.causality = .clamped → j.toInt ≤ i.toInt) := by
  have narrow := h.band_nonneg
  simp only [bandKeys, List.mem_filter, List.mem_cons, List.mem_append, admits_iff,
    mem_above h row listed, mem_below h row listed, ← Int64.toInt_inj, toInt_centre h row listed]
  refine ⟨?_, ?_⟩
  · intro walked
    obtain ⟨near, nonneg, inside, clamp⟩ := walked
    exact ⟨⟨nonneg, inside⟩, by omega, by omega, clamp⟩
  · intro inBand
    obtain ⟨⟨nonneg, inside⟩, low, high, clamp⟩ := inBand
    exact ⟨by omega, nonneg, inside, clamp⟩

theorem mem_marks (h : r.Sound) (row : r.HasRow i) :
    j ∈ r.marks i ↔ r.Sees i.toInt j.toInt := by
  have first := toInt_windowFirst h row
  have inside := row.lt_length
  simp only [marks, List.mem_append, List.mem_flatMap, Walk.mem_upTo, Int64.le_iff_toInt_le, first,
    Sees]
  refine ⟨?_, ?_⟩
  · intro listed
    obtain ⟨low, high⟩ | ⟨o, listed, near⟩ := listed
    · exact ⟨by omega, by omega, .inl ⟨by omega, high⟩⟩
    · obtain ⟨⟨nonneg, short⟩, band⟩ := (mem_bandKeys h row listed).mp near
      exact ⟨nonneg, short, .inr ⟨o, listed, band⟩⟩
  · intro seen
    obtain ⟨nonneg, short, ⟨low, high⟩ | ⟨o, listed, band⟩⟩ := seen
    · exact .inl ⟨by omega, high⟩
    · exact .inr ⟨o, listed, (mem_bandKeys h row listed).mpr ⟨⟨nonneg, short⟩, band⟩⟩

/-- Painting writes a one at each mark, counted from the start of the row. -/
theorem paint_eq_writes (r : RowRule) (i : Int64) (base : UInt64) (image : Array UInt8) :
    r.paint i base image =
      Writes.apply image (Writes.ones ((r.marks i).map fun j => (base + j.toUInt64).toNat)) := by
  rw [paint_eq, Writes.apply, Writes.ones, List.map_map, List.foldl_map]
  rfl

end AttentionMask.RowRule
