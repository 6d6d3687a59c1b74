import AttentionMask.Proofs.KeyRun.Union
import AttentionMask.Proofs.RowRule.Reduction

/-! A row as runs: united ranges in normal form that hold the keys the rule sees. All positions and
band ends are met as exact integers. -/

namespace AttentionMask.RowRule

structure HasRow (r : RowRule) (i : Int64) : Prop where
  nonneg : 0 ≤ i.toInt
  lt_length : i.toInt < r.length.toInt

variable {r : RowRule} {i o : Int64}

theorem holds_length_sub_one (h : r.Sound) : Words.Holds (r.length.toInt - 1) := by
  have low := h.one_le_length
  have bound := h.length_le
  exact ⟨by omega, by omega⟩

theorem holds_windowFirst (h : r.Sound) (row : r.HasRow i) :
    Words.Holds (i.toInt - r.window.toInt) := by
  have wide := h.window_nonneg
  have top := r.window.toInt_lt
  have bound := h.length_le
  obtain ⟨low, high⟩ := row
  exact ⟨by omega, by omega⟩

/-- Signed words hold the centre of offset `o`, the ends of its band, and how far the centre is from
both ends of the sequence. -/
structure BandHolds (r : RowRule) (i o : Int64) : Prop where
  centre : Words.Holds (i.toInt - o.toInt)
  first : Words.Holds (i.toInt - o.toInt - r.band.toInt)
  last : Words.Holds (i.toInt - o.toInt + r.band.toInt)
  below : Words.Holds (-(i.toInt - o.toInt))
  above : Words.Holds (r.length.toInt - 1 - (i.toInt - o.toInt))

theorem bandHolds (h : r.Sound) (row : r.HasRow i) (listed : o ∈ r.offsets) : BandHolds r i o := by
  obtain ⟨positive, short⟩ := h.inside o listed
  have narrow := h.band_nonneg
  have wide := h.band_le
  have bound := h.length_le
  obtain ⟨low, high⟩ := row
  exact ⟨⟨by omega, by omega⟩, ⟨by omega, by omega⟩, ⟨by omega, by omega⟩, ⟨by omega, by omega⟩,
    ⟨by omega, by omega⟩⟩

theorem toInt_length_sub_one (h : r.Sound) : (r.length - 1).toInt = r.length.toInt - 1 :=
  Words.toInt_sub (b := 1) (holds_length_sub_one h)

theorem toInt_windowFirst (h : r.Sound) (row : r.HasRow i) :
    (r.windowFirst i).toInt = max 0 (i.toInt - r.window.toInt) := by
  rw [windowFirst, Words.toInt_max, Words.toInt_sub (holds_windowFirst h row), Int64.toInt_zero]

theorem toInt_centre (h : r.Sound) (row : r.HasRow i) (listed : o ∈ r.offsets) :
    (i - o).toInt = i.toInt - o.toInt :=
  Words.toInt_sub (bandHolds h row listed).centre

/-- The ceiling is the last position, or the row itself under the causal cut. -/
theorem le_ceiling_iff (h : r.Sound) (row : r.HasRow i) {j : Int} :
    j ≤ (r.ceiling i).toInt ↔ j < r.length.toInt ∧ (r.causality = .clamped → j ≤ i.toInt) := by
  have inside := row.lt_length
  unfold ceiling
  cases r.causality with
  | unclamped =>
      simp only [toInt_length_sub_one h, reduceCtorEq, false_implies, and_true]
      omega
  | clamped =>
      simp only [true_implies]
      omega

theorem toInt_bandFirst (h : r.Sound) (row : r.HasRow i) (listed : o ∈ r.offsets) :
    (max 0 (i - o - r.band)).toInt = max 0 (i.toInt - o.toInt - r.band.toInt) := by
  have centre := toInt_centre h row listed
  have step : (i - o - r.band).toInt = (i - o).toInt - r.band.toInt :=
    Words.toInt_sub (centre ▸ (bandHolds h row listed).first)
  rw [Words.toInt_max, step, centre, Int64.toInt_zero]

theorem toInt_bandLast (h : r.Sound) (row : r.HasRow i) (listed : o ∈ r.offsets) :
    (min (r.ceiling i) (i - o + r.band)).toInt =
      min (r.ceiling i).toInt (i.toInt - o.toInt + r.band.toInt) := by
  have centre := toInt_centre h row listed
  have step : (i - o + r.band).toInt = (i - o).toInt + r.band.toInt :=
    Words.toInt_add (centre ▸ (bandHolds h row listed).last)
  rw [Words.toInt_min, step, centre]

theorem proper_windowRun (h : r.Sound) (row : r.HasRow i) : KeyRun.Proper (r.windowRun i) := by
  have first := toInt_windowFirst h row
  have wide := h.window_nonneg
  have low := row.nonneg
  have top := i.toInt_lt
  have first' := Words.toNat_toUInt64 (a := r.windowFirst i) (by omega)
  have last' := Words.toNat_toUInt64 low
  refine ⟨?_, ?_⟩
  · rw [windowRun, UInt64.le_iff_toNat_le, first', last']
    omega
  · rw [windowRun, last']
    omega

theorem mem_windowRun (h : r.Sound) (row : r.HasRow i) {key : UInt64} :
    key ∈ r.windowRun i ↔ i.toInt - r.window.toInt ≤ key.toNat ∧ key.toNat ≤ i.toInt := by
  have first := toInt_windowFirst h row
  have first' := Words.toNat_toUInt64 (a := r.windowFirst i) (by omega)
  have last' := Words.toNat_toUInt64 row.nonneg
  have low := row.nonneg
  rw [KeyRun.mem_iff_toNat, windowRun, first', last']
  omega

theorem proper_bandRun? (h : r.Sound) (row : r.HasRow i) (listed : o ∈ r.offsets) {run : KeyRun}
    (found : r.bandRun? i o = some run) : KeyRun.Proper run := by
  simp only [bandRun?, Option.ite_none_right_eq_some, Option.some.injEq] at found
  obtain ⟨order, rfl⟩ := found
  have first := toInt_bandFirst h row listed
  generalize max 0 (i - o - r.band) = low at first order
  generalize min (r.ceiling i) (i - o + r.band) = high at order
  have top := high.toInt_lt
  rw [Int64.le_iff_toInt_le] at order
  have first' := Words.toNat_toUInt64 (a := low) (by omega)
  have last' := Words.toNat_toUInt64 (a := high) (by omega)
  refine ⟨?_, ?_⟩
  · rw [UInt64.le_iff_toNat_le, first', last']
    omega
  · rw [last']
    omega

theorem mem_bandRun? (h : r.Sound) (row : r.HasRow i) (listed : o ∈ r.offsets) {key : UInt64} :
    (∃ run, r.bandRun? i o = some run ∧ key ∈ run) ↔
      (key.toNat : Int) < r.length.toInt ∧ i.toInt - o.toInt - r.band.toInt ≤ key.toNat ∧
        key.toNat ≤ i.toInt - o.toInt + r.band.toInt ∧
          (r.causality = .clamped → (key.toNat : Int) ≤ i.toInt) := by
  have first := toInt_bandFirst h row listed
  have last := toInt_bandLast h row listed
  have under := le_ceiling_iff h row (j := key.toNat)
  simp only [bandRun?, Option.ite_none_right_eq_some, Option.some.injEq, and_assoc,
    exists_and_left, exists_eq_left', KeyRun.mem_iff_toNat, Int64.le_iff_toInt_le]
  generalize max 0 (i - o - r.band) = low at first
  generalize min (r.ceiling i) (i - o + r.band) = high at last
  refine ⟨?_, ?_⟩
  · intro held
    obtain ⟨order, atLeast, atMost⟩ := held
    have first' := Words.toNat_toUInt64 (a := low) (by omega)
    have last' := Words.toNat_toUInt64 (a := high) (by omega)
    rw [first'] at atLeast
    rw [last'] at atMost
    obtain ⟨inside, clamp⟩ := under.mp (by omega)
    exact ⟨inside, by omega, by omega, clamp⟩
  · intro inBand
    obtain ⟨inside, atLeast, atMost, clamp⟩ := inBand
    have below := under.mpr ⟨inside, clamp⟩
    have first' := Words.toNat_toUInt64 (a := low) (by omega)
    have last' := Words.toNat_toUInt64 (a := high) (by omega)
    rw [first', last']
    exact ⟨by omega, by omega, by omega⟩

theorem mem_ranges {run : KeyRun} :
    run ∈ r.ranges i ↔ run = r.windowRun i ∨ ∃ o ∈ r.offsets, r.bandRun? i o = some run := by
  rw [ranges, List.mem_cons, List.mem_filterMap]

theorem proper_of_mem_ranges (h : r.Sound) (row : r.HasRow i) (run : KeyRun)
    (listed : run ∈ r.ranges i) : KeyRun.Proper run := by
  rcases mem_ranges.mp listed with rfl | ⟨o, kept, found⟩
  · exact proper_windowRun h row
  · exact proper_bandRun? h row kept found

theorem covers_ranges (h : r.Sound) (row : r.HasRow i) {key : UInt64} :
    KeyRun.Covers (r.ranges i) key ↔ r.Sees i.toInt key.toNat := by
  have inside := row.lt_length
  have bands : (∃ run, (∃ o ∈ r.offsets, r.bandRun? i o = some run) ∧ key ∈ run) ↔
      ∃ o ∈ r.offsets, ∃ run, r.bandRun? i o = some run ∧ key ∈ run :=
    ⟨fun ⟨run, ⟨o, listed, found⟩, held⟩ => ⟨o, listed, run, found, held⟩,
      fun ⟨o, listed, run, found, held⟩ => ⟨run, ⟨o, listed, found⟩, held⟩⟩
  simp only [KeyRun.Covers, mem_ranges, or_and_right, exists_or, exists_eq_left, bands,
    mem_windowRun h row, Sees]
  refine ⟨?_, ?_⟩
  · intro held
    obtain ⟨low, high⟩ | ⟨o, listed, found⟩ := held
    · exact ⟨by omega, by omega, .inl ⟨low, high⟩⟩
    · obtain ⟨short, rest⟩ := (mem_bandRun? h row listed).mp found
      exact ⟨by omega, short, .inr ⟨o, listed, rest⟩⟩
  · intro seen
    obtain ⟨_, short, window | ⟨o, listed, rest⟩⟩ := seen
    · exact .inl window
    · exact .inr ⟨o, listed, (mem_bandRun? h row listed).mpr ⟨short, rest⟩⟩

theorem covers_runs (h : r.Sound) (row : r.HasRow i) {key : UInt64} :
    KeyRun.Covers (r.runs i) key ↔ r.Sees i.toInt key.toNat :=
  (KeyRun.covers_union _).trans (covers_ranges h row)

theorem canonical_runs (h : r.Sound) (row : r.HasRow i) : KeyRun.Canonical (r.runs i) :=
  KeyRun.canonical_union _ (proper_of_mem_ranges h row)

end AttentionMask.RowRule
