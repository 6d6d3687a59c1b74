import AttentionMask.Proofs.RowRule.Marks

/-! The walk around the centre of one offset, step by step. Its bounds are exact: the steps up and
down meet each key of the sequence in the band once, and no other. The test before a key is set is
therefore needed for the centre itself, which may lie before the sequence, and for the causal cut
alone, and the number of steps is bounded by the length whatever the band is. -/

namespace AttentionMask

namespace Walk

theorem pairwise_upTo (first last : Int64) : (upTo first last).Pairwise (· < ·) := by
  have top := last.toInt_lt
  refine List.pairwise_map.mpr (List.Pairwise.imp_of_mem ?_ List.pairwise_lt_range)
  intro a b ha hb less
  rw [List.mem_range] at ha hb
  rw [Int64.lt_iff_toInt_lt, toInt_add_ofNat (by omega), toInt_add_ofNat (by omega)]
  omega

theorem nodup_upTo (first last : Int64) : (upTo first last).Nodup :=
  (pairwise_upTo first last).imp Int64.ne_of_lt

end Walk

namespace RowRule

variable {r : RowRule} {i o j : Int64}

/-- The keys that the walk from the centre `i - o` steps to, in order. -/
def steps (r : RowRule) (i o : Int64) : List Int64 :=
  r.above i o ++ r.below i o

/-- How far a key is from the centre `i - o`, over unbounded integers. -/
def distance (i o : Int64) (j : Int) : Int :=
  (j - (i.toInt - o.toInt)).natAbs

/-- The walk around the centre `i - o` with any visitor: the centre itself, up, then down. -/
def walkBand {State : Type} (r : RowRule) (i o : Int64) (visit : State → Int64 → State)
    (state : State) : State :=
  let state := visit state (i - o)
  let state := Walk.through (r.firstAbove i o) (r.lastAbove i o)
    (fun state k => visit state (i - o + k)) state
  Walk.through 1 (r.lastBelow i o) (fun state k => visit state (i - o - k)) state

/-- Painting a band is the walk that sets each key it is allowed to. -/
theorem paintBand_eq_walkBand (r : RowRule) (i : Int64) (base : UInt64) (image : Array UInt8)
    (o : Int64) : r.paintBand i base image o = r.walkBand i o (r.allow i base) image :=
  rfl

theorem walkBand_eq_foldl {State : Type} (r : RowRule) (i o : Int64)
    (visit : State → Int64 → State) (state : State) :
    r.walkBand i o visit state = ((i - o) :: r.steps i o).foldl visit state := by
  simp only [walkBand, steps, above, below, Walk.through_eq_foldl, List.foldl_cons,
    List.foldl_append, List.foldl_map]

theorem nodup_above (r : RowRule) (i o : Int64) : (r.above i o).Nodup :=
  (Walk.nodup_upTo _ _).map fun _ _ => (Int64.add_right_inj (i - o)).mp

theorem nodup_below (r : RowRule) (i o : Int64) : (r.below i o).Nodup :=
  (Walk.nodup_upTo _ _).map fun _ _ => (Int64.sub_right_inj (i - o)).mp

section
variable (h : r.Sound) (row : r.HasRow i) (listed : o ∈ r.offsets)
include h row listed

/-- Steps up end above the centre and steps down below it. -/
theorem nodup_steps : (r.steps i o).Nodup := by
  refine List.nodup_append.mpr ⟨r.nodup_above i o, r.nodup_below i o, ?_⟩
  rintro j up _ down rfl
  obtain ⟨-, -, after, -⟩ := (mem_above h row listed).mp up
  obtain ⟨-, before, -⟩ := (mem_below h row listed).mp down
  omega

theorem mem_steps : j ∈ r.steps i o ↔ 0 ≤ j.toInt ∧ j.toInt < r.length.toInt ∧
    1 ≤ distance i o j.toInt ∧ distance i o j.toInt ≤ r.band.toInt := by
  obtain ⟨positive, -⟩ := h.inside o listed
  have inside := row.lt_length
  rw [steps, List.mem_append, mem_above h row listed, mem_below h row listed, distance]
  omega

/-- The keys of the steps are distinct positions of the sequence. -/
theorem length_steps_le : (r.steps i o).length ≤ r.length.toInt.toNat := by
  have inSequence {j : Int64} (step : j ∈ r.steps i o) : 0 ≤ j.toInt ∧ j.toInt < r.length.toInt :=
    ((mem_steps h row listed).mp step).imp_right And.left
  have distinct : ((r.steps i o).map fun j => j.toInt.toNat).Nodup := by
    refine (nodup_steps h row listed).map_on fun j step j' step' same => Int64.toInt_inj.mp ?_
    have low := (inSequence step).1
    have low' := (inSequence step').1
    omega
  have positions : ((r.steps i o).map fun j => j.toInt.toNat) ⊆
      List.range r.length.toInt.toNat := by
    intro k reached
    obtain ⟨j, step, rfl⟩ := List.mem_map.mp reached
    have bounds := inSequence step
    rw [List.mem_range]
    omega
  simpa using (distinct.subperm positions).length_le

theorem admits_step_iff (step : j ∈ r.steps i o) :
    r.admits i j = true ↔ (r.causality = .clamped → j.toInt ≤ i.toInt) := by
  obtain ⟨low, high, -⟩ := (mem_steps h row listed).mp step
  rw [admits_iff]
  exact ⟨fun admitted => admitted.2.2, fun clamp => ⟨low, high, clamp⟩⟩

/-- The centre lies before the row, so only the start of the sequence can shut it out. -/
theorem admits_centre_iff : r.admits i (i - o) = true ↔ o.toInt ≤ i.toInt := by
  obtain ⟨positive, -⟩ := h.inside o listed
  have inside := row.lt_length
  rw [admits_iff, toInt_centre h row listed]
  constructor
  · rintro ⟨low, -⟩
    omega
  · intro reached
    exact ⟨by omega, by omega, fun _ => by omega⟩

end

/-- The same rule with the narrowest window. Walks do not look at the window. -/
def narrowed (r : RowRule) : RowRule :=
  { r with window := 0 }

end RowRule

namespace Pattern

variable {p : Pattern}

theorem sound_narrowed (one_le : 1 ≤ p.length) (le_max : p.length ≤ maxLength) (wide : 0 ≤ p.band) :
    p.rule.narrowed.Sound :=
  Measured.sound (p := { p with window := 0 }) ⟨one_le, le_max, Int64.le_refl 0, wide⟩

/-- The cap on the band is beyond every key of the sequence. -/
theorem distance_le_band_iff (one_le : 1 ≤ p.length) (le_max : p.length ≤ maxLength) {i o : Int64}
    (row : p.rule.HasRow i) (listed : o ∈ p.rule.offsets) {j : Int} (low : 0 ≤ j)
    (high : j < p.length.toInt) :
    RowRule.distance i o j ≤ p.rule.band.toInt ↔ RowRule.distance i o j ≤ p.band.toInt := by
  have capped := toInt_rule_band one_le le_max
  obtain ⟨-, positive, short⟩ := mem_rule_offsets.mp listed
  rw [Int64.le_iff_toInt_le] at positive
  rw [Int64.lt_iff_toInt_lt] at short
  obtain ⟨nonneg, inside⟩ := row
  change i.toInt < p.length.toInt at inside
  change 1 ≤ o.toInt at positive
  rw [RowRule.distance]
  omega

end Pattern

open RowRule

/-- Of the parameters only length and band have to be in range. The walk around the centre of an
offset of the rule, whatever is done at a key, visits the centre and then the keys of its steps:
each key of the sequence at a distance from one up to the band, once, and no other. The cap on the
band takes no key away. A step is refused only by the causal cut, the centre only before the
sequence, and however wide the band is there are no more steps than the sequence has keys. -/
theorem walk_meets_band_once {p : Pattern} (one_le : 1 ≤ p.length)
    (le_max : p.length ≤ Pattern.maxLength) (wide : 0 ≤ p.band) {i o : Int64} (first : 0 ≤ i)
    (last : i < p.length) (listed : o ∈ p.rule.offsets) :
    (∀ base image,
      p.rule.paintBand i base image o = p.rule.walkBand i o (p.rule.allow i base) image) ∧
    (∀ (State : Type) (visit : State → Int64 → State) (state : State),
      p.rule.walkBand i o visit state = ((i - o) :: p.rule.steps i o).foldl visit state) ∧
    (p.rule.steps i o).Nodup ∧
    (∀ j : Int, j ∈ (p.rule.steps i o).map Int64.toInt ↔ 0 ≤ j ∧ j < p.length.toInt ∧
      1 ≤ distance i o j ∧ distance i o j ≤ p.rule.band.toInt) ∧
    (∀ j : Int, 0 ≤ j → j < p.length.toInt →
      (distance i o j ≤ p.rule.band.toInt ↔ distance i o j ≤ p.band.toInt)) ∧
    (∀ j ∈ p.rule.steps i o, p.rule.admits i j = false ↔
      p.causality = .clamped ∧ i.toInt < j.toInt) ∧
    (p.rule.admits i (i - o) = false ↔ i.toInt < o.toInt) ∧
    (p.rule.steps i o).length ≤ p.length.toInt.toNat := by
  have sound := Pattern.sound_narrowed one_le le_max wide
  have row : p.rule.narrowed.HasRow i :=
    ⟨Int64.le_iff_toInt_le.mp first, Int64.lt_iff_toInt_lt.mp last⟩
  have member {j : Int64} : j ∈ p.rule.steps i o ↔ 0 ≤ j.toInt ∧ j.toInt < p.length.toInt ∧
      1 ≤ distance i o j.toInt ∧ distance i o j.toInt ≤ p.rule.band.toInt :=
    mem_steps (r := p.rule.narrowed) sound row listed
  have top : p.length.toInt ≤ 1099511627776 := sound.length_le
  refine ⟨fun base image => p.rule.paintBand_eq_walkBand i base image o,
    fun State visit state => p.rule.walkBand_eq_foldl i o visit state,
    nodup_steps (r := p.rule.narrowed) sound row listed, fun j => ⟨?_, fun near => ?_⟩,
    fun j low high => ?_, fun j step => ?_, ?_,
    length_steps_le (r := p.rule.narrowed) sound row listed⟩
  · intro reached
    obtain ⟨_, step, rfl⟩ := List.mem_map.mp reached
    exact member.mp step
  · have value : (Int64.ofInt j).toInt = j := Int64.toInt_ofInt_of_le (by omega) (by omega)
    exact List.mem_map.mpr ⟨Int64.ofInt j, member.mpr (by rwa [value]), value⟩
  · exact Pattern.distance_le_band_iff one_le le_max ⟨row.nonneg, row.lt_length⟩ listed low high
  · have admitted : p.rule.admits i j = true ↔ (p.causality = .clamped → j.toInt ≤ i.toInt) :=
      admits_step_iff (r := p.rule.narrowed) sound row listed step
    rw [← Bool.not_eq_true, admitted, Classical.not_imp, Int.not_le]
  · have admitted : p.rule.admits i (i - o) = true ↔ o.toInt ≤ i.toInt :=
      admits_centre_iff (r := p.rule.narrowed) sound row listed
    rw [← Bool.not_eq_true, admitted, Int.not_le]

/-- The widest band around a centre before the sequence, in a row with a negative window. The steps
up reach the last key, which the causal cut refuses, and there are at most thirteen. -/
theorem walk_meets_band_once_before :
    12 ∈ (Pattern.rule ⟨13, -1, some [7, 0, 40, 7], 9223372036854775807, .clamped⟩).steps 3 7 ∧
    (Pattern.rule ⟨13, -1, some [7, 0, 40, 7], 9223372036854775807, .clamped⟩).admits 3 12 = false ∧
    (Pattern.rule ⟨13, -1, some [7, 0, 40, 7], 9223372036854775807, .clamped⟩).admits 3 (3 - 7) =
      false ∧
    ((Pattern.rule ⟨13, -1, some [7, 0, 40, 7], 9223372036854775807, .clamped⟩).steps 3 7).length ≤
      13 := by
  have listed :
      7 ∈ (Pattern.rule ⟨13, -1, some [7, 0, 40, 7], 9223372036854775807, .clamped⟩).offsets :=
    Pattern.mem_rule_offsets.mpr ⟨by decide, by decide, by decide⟩
  obtain ⟨-, -, -, reached, -, refused, centre, bound⟩ := walk_meets_band_once
    (p := ⟨13, -1, some [7, 0, 40, 7], 9223372036854775807, .clamped⟩) (i := 3)
    (by decide) (by decide) (by decide) (by decide) (by decide) listed
  obtain ⟨j, step, value⟩ := List.mem_map.mp ((reached 12).mpr (by decide))
  obtain rfl : j = 12 := Int64.toInt_inj.mp value
  exact ⟨step, (refused 12 step).mpr (by decide), centre.mpr (by decide), bound⟩

end AttentionMask
