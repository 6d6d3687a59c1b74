import AttentionMask.Proofs.Recorded.Rows
import AttentionMask.Proofs.RowRule.Marks

/-! Painting a row over unbounded integers, with a record of what is calculated on the way, the
steps of all counters included. With the runs of the row this settles that accepted parameters never
leave the words: rows in words are rows over the integers. -/

namespace AttentionMask

open Recorded

namespace IntegerRule

def mark (base : Nat) (image : Array UInt8) (j : Int) : Recorded (Array UInt8) := do
  let key ← position j
  pure (image.setIfInBounds (base + key) 1)

def allow (r : IntegerRule) (i : Int) (base : Nat) (image : Array UInt8) (j : Int) :
    Recorded (Array UInt8) :=
  if 0 ≤ j ∧ j < r.length ∧ (r.causality = .clamped → j ≤ i) then mark base image j else pure image

/-- Walk through steps of a key and set those that the row admits. -/
def walk (r : IntegerRule) (i : Int) (base : Nat) (reach : Int → Int) (first last : Int)
    (image : Array UInt8) : Recorded (Array UInt8) :=
  climb (fun image k => do
    let j ← value (reach k)
    r.allow i base image j) last first image

def paintBand (r : IntegerRule) (i : Int) (base : Nat) (image : Array UInt8) (o : Int) :
    Recorded (Array UInt8) := do
  let centre ← value (i - o)
  let image ← r.allow i base image centre
  let final ← value (r.length - 1)
  let room ← value (final - centre)
  let opposite ← value (-centre)
  let image ← r.walk i base (fun k => centre + k) (max 1 opposite) (min r.band room) image
  r.walk i base (fun k => centre - k) 1 (min r.band centre) image

def paint (r : IntegerRule) (i : Int) (base : Nat) (image : Array UInt8) :
    Recorded (Array UInt8) := do
  let start ← value (i - r.window)
  let image ← climb (mark base) i (max 0 start) image
  r.offsets.foldlM (r.paintBand i base) image

variable (r : IntegerRule) (i : Int)

theorem result_allow (base : Nat) (image : Array UInt8) (j : Int) :
    (r.allow i base image j).result =
      if 0 ≤ j ∧ j < r.length ∧ (r.causality = .clamped → j ≤ i) then
        image.setIfInBounds (base + j.toNat) 1
      else image :=
  apply_ite Recorded.result _ _ _

theorem result_paint (base : Nat) (image : Array UInt8) : (r.paint i base image).result =
    r.offsets.foldl (fun image o => (r.paintBand i base image o).result)
      (climb (mark base) i (max 0 (i - r.window)) image).result :=
  result_foldlM _ _ _

variable {r i}

theorem inWords_allow (base : Nat) (image : Array UInt8) (j : Int) :
    (r.allow i base image j).InWords :=
  inWords_ite (fun admitted => (inWords_position admitted.1).bind (inWords_pure _))
    fun _ => inWords_pure image

theorem inWords_walk {reach : Int → Int} {first last : Int} (low : -9223372036854775808 ≤ first)
    (high : last + 1 < 9223372036854775808)
    (each : ∀ k, first ≤ k → k ≤ last → Words.Holds (reach k)) (base : Nat) (image : Array UInt8) :
    (r.walk i base reach first last image).InWords :=
  inWords_climb low high (fun image k atLeast atMost =>
    (inWords_value (each k atLeast atMost)).bind (inWords_allow base image _)) image

end IntegerRule

namespace RowRule

variable {r : RowRule} {i o j : Int64} {base : UInt64}

section
variable (room : base.toNat + r.length.toInt.toNat ≤ 2 ^ 64)
include room

theorem result_mark (key : r.HasRow j) (image : Array UInt8) :
    (IntegerRule.mark base.toNat image j.toInt).result = mark base image j := by
  have value := Words.toNat_toUInt64 key.nonneg
  obtain ⟨low, high⟩ := key
  rw [mark, Words.toNat_add (by omega), value]
  rfl

theorem result_allow (image : Array UInt8) :
    (r.integers.allow i.toInt base.toNat image j.toInt).result = r.allow i base image j := by
  rw [IntegerRule.result_allow, allow]
  by_cases admitted : r.admits i j
  · obtain ⟨low, high, clamp⟩ := admits_iff.mp admitted
    rw [if_pos admitted, ← result_mark room ⟨low, high⟩]
    exact if_pos ⟨low, high, clamp⟩
  · rw [if_neg admitted]
    exact if_neg (mt admits_iff.mpr admitted)

theorem result_walk {reach : Int → Int} {reach' : Int64 → Int64} {first last : Int64}
    (high : last.toInt + 1 < 9223372036854775808)
    (each : ∀ k : Int64, first.toInt ≤ k.toInt → k.toInt ≤ last.toInt →
      (reach' k).toInt = reach k.toInt) (image : Array UInt8) :
    (r.integers.walk i.toInt base.toNat reach first.toInt last.toInt image).result =
      Walk.through first last (fun image k => r.allow i base image (reach' k)) image := by
  refine result_climb high (fun image k atLeast atMost => ?_) image
  rw [← result_allow room image, each k atLeast atMost]
  rfl

variable (h : r.Sound) (row : r.HasRow i)
include h row

theorem result_paintBand (listed : o ∈ r.offsets) (image : Array UInt8) :
    (r.integers.paintBand i.toInt base.toNat image o.toInt).result =
      r.paintBand i base image o := by
  have centre := toInt_centre h row listed
  have start := toInt_firstAbove h row listed
  have up := toInt_lastAbove h row listed
  have down := toInt_lastBelow h row listed
  have bound := h.length_le
  have wide := h.band_le
  have top := (bandHolds h row listed).centre.high
  have opposite : (r.firstAbove i o).toInt = max 1 (-(i.toInt - o.toInt)) := by omega
  -- Steps stop where they leave the sequence, so the centre and a step add up in a word.
  have above (k : Int64) (atLeast : (r.firstAbove i o).toInt ≤ k.toInt)
      (atMost : k.toInt ≤ (r.lastAbove i o).toInt) :
      (i - o + k).toInt = i.toInt - o.toInt + k.toInt := by
    rw [← centre]
    exact Words.toInt_add ⟨by omega, by omega⟩
  have below (k : Int64) (atLeast : (1 : Int64).toInt ≤ k.toInt)
      (atMost : k.toInt ≤ (r.lastBelow i o).toInt) :
      (i - o - k).toInt = i.toInt - o.toInt - k.toInt := by
    rw [Int64.toInt_one] at atLeast
    rw [← centre]
    exact Words.toInt_sub ⟨by omega, by omega⟩
  rw [paintBand, ← result_walk room (by omega) below, ← result_walk room (by omega) above,
    ← result_allow room image, opposite, up, down, centre]
  rfl

theorem result_paint (image : Array UInt8) :
    (r.integers.paint i.toInt base.toNat image).result = r.paint i base image := by
  have first := toInt_windowFirst h row
  have bound := h.length_le
  obtain ⟨low, high⟩ := id row
  have window : (climb (IntegerRule.mark base.toNat) i.toInt (r.windowFirst i).toInt image).result =
      Walk.through (r.windowFirst i) i (mark base) image :=
    result_climb (by omega) (fun image j atLeast atMost =>
      result_mark room ⟨by omega, by omega⟩ image) image
  rw [IntegerRule.result_paint, paint, ← window, first]
  change (r.offsets.map Int64.toInt).foldl _ _ = _
  rw [List.foldl_map]
  exact List.foldl_ext _ _ _ fun image o listed => result_paintBand room h row listed image

end

section
variable (h : r.Sound) (row : r.HasRow i)
include h row

theorem inWords_paintBand (listed : o ∈ r.offsets) (base : Nat) (image : Array UInt8) :
    (r.integers.paintBand i.toInt base image o.toInt).InWords := by
  have fits := bandHolds h row listed
  have top := fits.centre.high
  have bound := h.length_le
  have wide := h.band_le
  have up (image : Array UInt8) : (r.integers.walk i.toInt base (fun k => i.toInt - o.toInt + k)
      (max 1 (-(i.toInt - o.toInt)))
      (min r.band.toInt (r.length.toInt - 1 - (i.toInt - o.toInt))) image).InWords :=
    IntegerRule.inWords_walk (by omega) (by omega)
      (fun k atLeast atMost => ⟨by omega, by omega⟩) base image
  have down (image : Array UInt8) : (r.integers.walk i.toInt base (fun k => i.toInt - o.toInt - k)
      1 (min r.band.toInt (i.toInt - o.toInt)) image).InWords :=
    IntegerRule.inWords_walk (by omega) (by omega)
      (fun k atLeast atMost => ⟨by omega, by omega⟩) base image
  exact (inWords_value fits.centre).bind ((IntegerRule.inWords_allow base image _).bind
    ((inWords_value (holds_length_sub_one h)).bind ((inWords_value fits.above).bind
      ((inWords_value fits.below).bind ((up _).bind (down _))))))

theorem inWords_paint (base : Nat) (image : Array UInt8) :
    (r.integers.paint i.toInt base image).InWords := by
  have bound := h.length_le
  have high := row.lt_length
  have window : (climb (IntegerRule.mark base) i.toInt (max 0 (i.toInt - r.window.toInt))
      image).InWords := by
    refine inWords_climb (by omega) (by omega) (fun image j atLeast _ => ?_) image
    exact (inWords_position (by omega)).bind (inWords_pure _)
  refine (inWords_value (holds_windowFirst h row)).bind
    (window.bind (inWords_foldlM (fun image o' listed => ?_) _))
  obtain ⟨o, kept, rfl⟩ := List.mem_map.mp listed
  exact inWords_paintBand h row kept base image

end

end RowRule

/-- The rows of accepted parameters need no more than signed words. Over unbounded integers,
nothing that the reduction, the runs of a row and its painted bytes calculate leaves the words,
steps of counters included, and all positions are natural numbers; so the words give the rows
of the integers. -/
theorem rows_stay_in_words {p : Pattern} (checked : p.check = .ok ()) {i : Int64} (first : 0 ≤ i)
    (last : i < p.length) :
    p.integerRule.InWords ∧ p.integerRule.result = p.rule.integers ∧
    (p.integerRule.result.runs i.toInt).InWords ∧
    (∀ buffer, (p.rule.load i buffer).toList.map KeyRun.bounds =
      (p.integerRule.result.runs i.toInt).result) ∧
    ∀ (base : UInt64) (image : Array UInt8),
      (p.integerRule.result.paint i.toInt base.toNat image).InWords ∧
      (base.toNat + p.length.toInt.toNat ≤ 2 ^ 64 →
        p.rule.paint i base image =
          (p.integerRule.result.paint i.toInt base.toNat image).result) := by
  have measured := (Pattern.check_eq_ok_iff.mp checked).measured
  have sound := measured.sound
  have row : p.rule.HasRow i := ⟨Int64.le_iff_toInt_le.mp first, Int64.lt_iff_toInt_lt.mp last⟩
  rw [measured.result_integerRule]
  refine ⟨measured.inWords_integerRule, rfl, RowRule.inWords_runs sound row, fun buffer => ?_,
    fun base image => ⟨RowRule.inWords_paint sound row base.toNat image, fun room => ?_⟩⟩
  · rw [p.rule.load_toList, RowRule.result_runs sound row]
  · exact (RowRule.result_paint (r := p.rule) room sound row image).symm

/-- The last row of the longest sequence, with the widest window and band and the largest offset,
and the last row of a short sequence, painted between two bytes that stay. -/
theorem rows_stay_in_words_longest :
    (Pattern.integerRule ⟨1099511627776, 9223372036854775807, some [1, 9223372036854775807],
      9223372036854775807, .unclamped⟩).InWords ∧
    ((Pattern.integerRule ⟨1099511627776, 9223372036854775807, some [1, 9223372036854775807],
      9223372036854775807, .unclamped⟩).result.runs 1099511627775).InWords ∧
    ((Pattern.integerRule ⟨1099511627776, 9223372036854775807, some [1, 9223372036854775807],
      9223372036854775807, .unclamped⟩).result.paint 1099511627775 0 #[]).InWords ∧
    (Pattern.rule ⟨1099511627776, 9223372036854775807, some [1, 9223372036854775807],
        9223372036854775807, .unclamped⟩).paint 1099511627775 0 #[] =
      ((Pattern.integerRule ⟨1099511627776, 9223372036854775807, some [1, 9223372036854775807],
        9223372036854775807, .unclamped⟩).result.paint 1099511627775 0 #[]).result ∧
    ((Pattern.integerRule ⟨6, 0, some [3], 1, .clamped⟩).result.paint 5 1
        #[9, 0, 0, 0, 0, 0, 0, 9]).result =
      #[9, 0, 1, 1, 1, 0, 1, 9] := by
  obtain ⟨rule, _, runs, _, paint⟩ := rows_stay_in_words (p := ⟨1099511627776, 9223372036854775807,
    some [1, 9223372036854775807], 9223372036854775807, .unclamped⟩) (i := 1099511627775)
    (by decide) (by decide) (by decide)
  obtain ⟨-, -, -, -, short⟩ := rows_stay_in_words (p := ⟨6, 0, some [3], 1, .clamped⟩) (i := 5)
    (by decide) (by decide) (by decide)
  have painted : (Pattern.rule ⟨6, 0, some [3], 1, .clamped⟩).paint 5 1 #[9, 0, 0, 0, 0, 0, 0, 9] =
      #[9, 0, 1, 1, 1, 0, 1, 9] := by decide +kernel
  exact ⟨rule, runs, (paint 0 #[]).1, (paint 0 #[]).2 (by decide),
    ((short 1 #[9, 0, 0, 0, 0, 0, 0, 9]).2 (by decide)).symm.trans painted⟩

end AttentionMask
