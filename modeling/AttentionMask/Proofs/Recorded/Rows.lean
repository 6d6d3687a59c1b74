import AttentionMask.Proofs.Recorded
import AttentionMask.Proofs.RowRule.Runs
import Mathlib.Data.List.Destutter

/-! The reduction of the parameters and the runs of a row over unbounded integers, with a record
of what is calculated on the way. For parameters in range it stays in words, and the runs are
those in words. -/

namespace AttentionMask

namespace KeyRun

/-- The ends of a run. -/
def bounds (run : KeyRun) : Nat × Nat :=
  (run.first.toNat, run.last.toNat)

/-- The sweep over ranges of natural numbers, with `current` open. -/
def sweepRanges (current : Nat × Nat) : List (Nat × Nat) → List (Nat × Nat)
  | [] => [current]
  | next :: rest =>
    if next.1 ≤ current.2 + 1 then sweepRanges (current.1, max current.2 next.2) rest
    else current :: sweepRanges next rest

/-- The union of ranges of natural numbers. -/
def uniteRanges (ranges : List (Nat × Nat)) : List (Nat × Nat) :=
  match ranges.mergeSort fun a b => decide (a.1 ≤ b.1) with
  | [] => []
  | range :: rest => sweepRanges range rest

theorem bounds_extend (current next : KeyRun) :
    (current.extend next).bounds = (current.bounds.1, max current.bounds.2 next.bounds.2) := by
  rw [bounds, toNat_extend_last]
  rfl

theorem map_bounds_coalesce (current : KeyRun) (rest : List KeyRun)
    (proper : ∀ run ∈ current :: rest, Proper run) :
    (coalesce current rest).map bounds = sweepRanges current.bounds (rest.map bounds) := by
  induction rest generalizing current with
  | nil => rfl
  | cons next rest ih =>
      obtain ⟨own, later, others⟩ :=
        (List.forall_mem_cons.mp proper).imp_right List.forall_mem_cons.mp
      have join : current.touches next = true ↔ next.bounds.1 ≤ current.bounds.2 + 1 := by
        rw [touches_iff, Nat.mod_eq_of_lt own.last_lt]
        rfl
      rw [coalesce, List.map_cons, sweepRanges]
      by_cases touch : current.touches next
      · rw [if_pos touch, if_pos (join.mp touch), ← bounds_extend]
        exact ih _ (List.forall_mem_cons.mpr ⟨own.extend later, others⟩)
      · rw [if_neg touch, if_neg (mt join.mpr touch), List.map_cons]
        exact congrArg _ (ih next (List.forall_mem_cons.mpr ⟨later, others⟩))

/-- Runs that stop short of the last word are united as natural numbers are. -/
theorem map_bounds_union {runs : List KeyRun} (proper : ∀ run ∈ runs, Proper run) :
    (union runs).map bounds = uniteRanges (runs.map bounds) := by
  have sorted : (runs.mergeSort startsBefore).map bounds =
      (runs.map bounds).mergeSort fun a b => decide (a.1 ≤ b.1) :=
    List.map_mergeSort fun a _ b _ => decide_eq_decide.mpr UInt64.le_iff_toNat_le
  have proper' (run : KeyRun) (listed : run ∈ runs.mergeSort startsBefore) : Proper run :=
    proper run (List.mem_mergeSort.mp listed)
  rw [union, uniteRanges, ← sorted]
  cases order : runs.mergeSort startsBefore with
  | nil => rfl
  | cons run rest => exact map_bounds_coalesce run rest (order ▸ proper')

end KeyRun

/-- A rule over unbounded integers. -/
structure IntegerRule where
  length : Int
  window : Int
  band : Int
  causality : Causality
  offsets : List Int

open Recorded

def Pattern.integerRule (p : Pattern) : Recorded IntegerRule := do
  let n := p.length.toInt
  let reach ← value (2 * n)
  let inside := (p.links.map Int64.toInt).filter fun o => 1 ≤ o ∧ o < n
  pure {
    length := n
    window := p.window.toInt
    band := min p.band.toInt reach
    causality := p.causality
    offsets := (inside.mergeSort fun a b => decide (a ≤ b)).destutter (· ≠ ·) }

namespace IntegerRule

def ceiling (r : IntegerRule) (i : Int) : Recorded Int :=
  match r.causality with
  | .unclamped => value (r.length - 1)
  | .clamped => pure i

/-- Add the range around the centre of one offset, unless it is empty. -/
def addRange (r : IntegerRule) (i ceiling : Int) (ranges : List (Nat × Nat)) (o : Int) :
    Recorded (List (Nat × Nat)) := do
  let centre ← value (i - o)
  let low ← value (centre - r.band)
  let high ← value (centre + r.band)
  if max 0 low ≤ min ceiling high then
    let first ← position (max 0 low)
    let last ← position (min ceiling high)
    pure (ranges ++ [(first, last)])
  else pure ranges

def runs (r : IntegerRule) (i : Int) : Recorded (List (Nat × Nat)) := do
  let start ← value (i - r.window)
  let first ← position (max 0 start)
  let last ← position i
  let ceiling ← r.ceiling i
  let ranges ← r.offsets.foldlM (r.addRange i ceiling) [(first, last)]
  pure (KeyRun.uniteRanges ranges)

end IntegerRule

/-- The rule with its words read as integers. -/
def RowRule.integers (r : RowRule) : IntegerRule where
  length := r.length.toInt
  window := r.window.toInt
  band := r.band.toInt
  causality := r.causality
  offsets := r.offsets.map Int64.toInt

namespace RowRule

variable {r : RowRule} {i o : Int64}

theorem distinct_eq_destutter (offsets : List Int64) :
    distinct offsets = offsets.destutter (· ≠ ·) := by
  fun_induction distinct offsets with
  | case1 a rest ih =>
      rw [ih, List.destutter_cons_cons, if_neg (not_not.mpr rfl), List.destutter_cons']
  | case2 a b rest differ ih =>
      rw [ih, List.destutter_cons_cons, if_pos differ, List.destutter_cons']
  | case3 offsets short =>
      cases offsets with
      | nil => rfl
      | cons a rest =>
          cases rest with
          | nil => rfl
          | cons b rest => exact absurd rfl (short a b rest)

theorem map_toInt_ordered (offsets : List Int64) :
    (ordered offsets).map Int64.toInt =
      (offsets.map Int64.toInt).mergeSort fun a b => decide (a ≤ b) :=
  List.map_mergeSort fun _ _ _ _ => decide_eq_decide.mpr Int64.le_iff_toInt_le

end RowRule

namespace Pattern

variable {p : Pattern}

theorem map_toInt_filter_inside (p : Pattern) :
    (p.links.filter (RowRule.inside p.length)).map Int64.toInt =
      (p.links.map Int64.toInt).filter fun o => decide (1 ≤ o ∧ o < p.length.toInt) := by
  rw [List.filter_map]
  exact congrArg _ (List.filter_congr fun o _ =>
    decide_eq_decide.mpr (and_congr Int64.le_iff_toInt_le Int64.lt_iff_toInt_lt))

theorem Measured.result_integerRule (h : p.Measured) : p.integerRule.result = p.rule.integers := by
  have band := toInt_rule_band h.one_le_length h.length_le_max
  have offsets : p.rule.offsets.map Int64.toInt =
      (((p.links.map Int64.toInt).filter fun o => decide (1 ≤ o ∧ o < p.length.toInt)).mergeSort
        fun a b => decide (a ≤ b)).destutter (· ≠ ·) := by
    rw [← map_toInt_filter_inside, ← RowRule.map_toInt_ordered, rule,
      RowRule.distinct_eq_destutter]
    exact List.map_destutter_ne _ fun _ _ => Int64.toInt_inj.mp
  rw [RowRule.integers, band, offsets]
  rfl

theorem Measured.inWords_integerRule (h : p.Measured) : p.integerRule.InWords := by
  have sound := h.sound
  have low : 1 ≤ p.length.toInt := sound.one_le_length
  have high : p.length.toInt ≤ 1099511627776 := sound.length_le
  exact (inWords_value ⟨by omega, by omega⟩).bind (inWords_pure _)

end Pattern

namespace IntegerRule

variable (r : IntegerRule) (i : Int)

theorem result_addRange (ceiling : Int) (ranges : List (Nat × Nat)) (o : Int) :
    (r.addRange i ceiling ranges o).result =
      if max 0 (i - o - r.band) ≤ min ceiling (i - o + r.band) then
        ranges ++ [((max 0 (i - o - r.band)).toNat, (min ceiling (i - o + r.band)).toNat)]
      else ranges :=
  apply_ite Recorded.result _ _ _

theorem result_runs : (r.runs i).result = KeyRun.uniteRanges
    (r.offsets.foldl (fun ranges o => (r.addRange i (r.ceiling i).result ranges o).result)
      [((max 0 (i - r.window)).toNat, i.toNat)]) :=
  congrArg KeyRun.uniteRanges (result_foldlM _ _ _)

end IntegerRule

namespace RowRule

variable {r : RowRule} {i o : Int64}

theorem result_ceiling (h : r.Sound) :
    (r.integers.ceiling i.toInt).result = (r.ceiling i).toInt := by
  have final := toInt_length_sub_one h
  unfold IntegerRule.ceiling ceiling integers
  cases r.causality with
  | unclamped => exact final.symm
  | clamped => rfl

theorem inWords_ceiling (h : r.Sound) : (r.integers.ceiling i.toInt).InWords := by
  unfold IntegerRule.ceiling integers
  cases r.causality with
  | unclamped => exact inWords_value (holds_length_sub_one h)
  | clamped => exact inWords_pure _

section
variable (h : r.Sound) (row : r.HasRow i)
include h row

theorem map_bounds_bandRun? (listed : o ∈ r.offsets) : (r.bandRun? i o).map KeyRun.bounds =
    if max 0 (i.toInt - o.toInt - r.band.toInt) ≤
        min (r.ceiling i).toInt (i.toInt - o.toInt + r.band.toInt) then
      some ((max 0 (i.toInt - o.toInt - r.band.toInt)).toNat,
        (min (r.ceiling i).toInt (i.toInt - o.toInt + r.band.toInt)).toNat)
    else none := by
  have first := toInt_bandFirst h row listed
  rw [← first, ← toInt_bandLast h row listed]
  by_cases held : max 0 (i - o - r.band) ≤ min (r.ceiling i) (i - o + r.band)
  · have order := Int64.le_iff_toInt_le.mp held
    have first' := Words.toNat_toUInt64 (a := max 0 (i - o - r.band)) (by omega)
    have last' := Words.toNat_toUInt64 (a := min (r.ceiling i) (i - o + r.band)) (by omega)
    rw [if_pos order, show r.bandRun? i o = some ⟨_, _⟩ from if_pos held, Option.map_some,
      KeyRun.bounds, first', last']
  · rw [if_neg (mt Int64.le_iff_toInt_le.mpr held), show r.bandRun? i o = none from if_neg held]
    rfl

theorem result_addRange (listed : o ∈ r.offsets) (ranges : List (Nat × Nat)) :
    (r.integers.addRange i.toInt (r.ceiling i).toInt ranges o.toInt).result =
      ranges ++ ((r.bandRun? i o).map KeyRun.bounds).toList := by
  rw [IntegerRule.result_addRange, map_bounds_bandRun? h row listed, integers]
  split
  · rfl
  · exact (List.append_nil ranges).symm

theorem inWords_addRange (listed : o ∈ r.offsets) (ranges : List (Nat × Nat)) :
    (r.integers.addRange i.toInt (r.ceiling i).toInt ranges o.toInt).InWords := by
  have fits := bandHolds h row listed
  refine (inWords_value fits.centre).bind ((inWords_value fits.first).bind
    ((inWords_value fits.last).bind (inWords_ite (fun order => ?_) fun _ => ?_)))
  · exact (inWords_position (Int.le_max_left 0 _)).bind
      ((inWords_position (Int.le_trans (Int.le_max_left 0 _) order)).bind (inWords_pure _))
  · exact inWords_pure ranges

end

theorem foldl_append_bandRun? (offsets : List Int64) (ranges : List (Nat × Nat)) :
    offsets.foldl (fun ranges o => ranges ++ ((r.bandRun? i o).map KeyRun.bounds).toList) ranges =
      ranges ++ (offsets.filterMap (r.bandRun? i)).map KeyRun.bounds := by
  rw [List.foldl_append_eq_append, ← List.flatMap_def, ← List.filterMap_eq_flatMap_toList,
    List.map_filterMap]

section
variable (h : r.Sound) (row : r.HasRow i)
include h row

theorem bounds_windowRun :
    (r.windowRun i).bounds = ((max 0 (i.toInt - r.window.toInt)).toNat, i.toInt.toNat) := by
  have first := toInt_windowFirst h row
  have first' := Words.toNat_toUInt64 (a := r.windowFirst i) (by omega)
  rw [KeyRun.bounds, windowRun, first', first, Words.toNat_toUInt64 row.nonneg]

theorem result_runs : (r.integers.runs i.toInt).result = (r.runs i).map KeyRun.bounds := by
  have ranges : (r.ranges i).map KeyRun.bounds =
      [((max 0 (i.toInt - r.window.toInt)).toNat, i.toInt.toNat)] ++
        (r.offsets.filterMap (r.bandRun? i)).map KeyRun.bounds := by
    rw [← bounds_windowRun h row]
    rfl
  rw [IntegerRule.result_runs, runs, KeyRun.map_bounds_union (proper_of_mem_ranges h row), ranges,
    ← foldl_append_bandRun?, result_ceiling h]
  refine congrArg KeyRun.uniteRanges ?_
  change (r.offsets.map Int64.toInt).foldl _ _ = _
  rw [List.foldl_map]
  exact List.foldl_ext _ _ _ fun ranges o listed => result_addRange h row listed ranges

theorem inWords_runs : (r.integers.runs i.toInt).InWords := by
  refine (inWords_value (holds_windowFirst h row)).bind
    ((inWords_position (Int.le_max_left 0 _)).bind ((inWords_position row.nonneg).bind
      ((inWords_ceiling h).bind (InWords.bind (inWords_foldlM ?_ _) (inWords_pure _)))))
  rw [result_ceiling h]
  intro ranges o' listed
  obtain ⟨o, kept, rfl⟩ := List.mem_map.mp listed
  exact inWords_addRange h row kept ranges

end

end RowRule
end AttentionMask
