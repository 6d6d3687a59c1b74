import AttentionMask.Proofs.CopyTask
import AttentionMask.Proofs.Report.Reading

/-! The demonstration agrees with itself. Its picture comes from single answers, its pairs from a
count of bytes and its intervals from the other form; all three are read off the same relation, at
every half length that is accepted. -/

namespace AttentionMask

open KeyRun

namespace Report

variable {R : Nat → Nat → Prop} {m : Mask} {p : Pattern} {i : UInt64} {h : Nat}

/-- The number of maximal blocks of marks in a row of cells. -/
noncomputable def blocks (cells : List Char) : Nat :=
  {run | KeyRun.Maximal (fun j => cells[j.toNat]? = some '#') run}.ncard

/-- The text shows a square with a row and a column for each of `2 * h + 1` positions, and its
figures are counted off that square. -/
structure Demonstrates (h : Nat) (out : String) : Prop where
  rows : (readPicture out).length = 2 * h + 1
  numbered : ∀ k line, (readPicture out)[k]? = some line → readNumber line = Nat.toDigits 10 k
  width : ∀ line ∈ readPicture out, (readCells line).length = 2 * h + 1
  cell : ∀ line ∈ readPicture out, ∀ c ∈ readCells line, c = '#' ∨ c = '.'
  pairs : readFigure "Permitted pairs: " out =
    [Nat.toDigits 10 ((readPicture out).map fun line => (readCells line).count '#').sum]
  intervals : readFigure "Intervals: " out =
    [Nat.toDigits 10 ((readPicture out).map fun line => blocks (readCells line)).sum]

theorem count_cells (image : m.Represents R) (row : i < m.length) :
    (cells m i).count '#' = (m.rowKeys i).length := by
  have marked : (fun j => (if m.allows i j then '#' else '.') == '#') = m.allows i := by
    funext j
    cases m.allows i j <;> rfl
  rw [image.length_rowKeys row, cells, List.count_eq_countP, List.countP_map]
  exact congrArg (fun test => (Walk.below m.length).countP test) marked

theorem getElem?_cells (image : m.Represents R) (j : UInt64) :
    (cells m i)[j.toNat]? = some '#' ↔ m.allows i j = true := by
  by_cases key : j < m.length
  · have inside := UInt64.lt_iff_toNat_lt.mp key
    have place : (Walk.below m.length)[j.toNat]? = some j := by
      simp [Walk.below, inside]
    rw [cells, List.getElem?_map, place, Option.map_some]
    cases m.allows i j <;> decide
  · have past : (cells m i)[j.toNat]? = none := by
      rw [List.getElem?_eq_none_iff, cells, List.length_map, Walk.length_below]
      exact Nat.le_of_not_lt fun inside => key (UInt64.lt_iff_toNat_lt.mpr inside)
    rw [past]
    exact iff_of_false (Option.some_ne_none '#').symm fun allowed =>
      key (image.allows_iff.mp allowed).2.1

/-- The runs of a row of the table are the blocks of the row of the picture. -/
theorem blocks_cells (own : m.Expresses p) (row : i < m.length) :
    blocks (cells m i) = (m.toRunTable.row i).size := by
  have table : m.toRunTable.Represents p.Permits := own.compacted.represents
  have row' : i < m.toRunTable.length := own.length_toRunTable ▸ row
  have same : (fun j : UInt64 => (cells m i)[j.toNat]? = some '#') =
      Covers (m.toRunTable.row i).toList := by
    funext j
    rw [getElem?_cells own.represents, table.covers_eq_allows row']
    exact congrArg (· = true)
      (own.represents.allows_eq own.compacted.represents own.length_toRunTable.symm i j)
  rw [blocks, same, ← (table.canonical i row').length_eq_ncard, Array.length_toList]

theorem sum_blocks (own : m.Expresses p) :
    ((Walk.below m.length).map fun i => blocks (cells m i)).sum = m.toRunTable.runCount.toNat := by
  have table : m.toRunTable.Represents p.Permits := own.compacted.represents
  have word : m.toRunTable.runs.size < 2 ^ 64 := by
    rw [← table.laid.start_length]
    exact UInt64.toNat_lt _
  have sizes (i : UInt64) (listed : i ∈ Walk.below m.length) :
      blocks (cells m i) = (m.toRunTable.row i).toList.length := by
    rw [blocks_cells own (Walk.mem_below.mp listed), Array.length_toList]
  rw [List.map_congr_left sizes, RunTable.runCount, Words.toNat_ofNat word, ← Array.length_toList,
    table.laid.toList_runs, List.length_flatten, RunTable.rows, List.map_map,
    own.length_toRunTable]
  rfl

theorem sum_count (own : m.Expresses p) (short : m.length.toNat < 2 ^ 32) :
    ((Walk.below m.length).map fun i => (cells m i).count '#').sum = m.pairCount.toNat := by
  have counts (i : UInt64) (listed : i ∈ Walk.below m.length) :
      (cells m i).count '#' = (m.rowKeys i).length :=
    count_cells own.represents (Walk.mem_below.mp listed)
  have keys : m.pairs.card = m.keyCount := own.represents.card_pairs
  have few : m.keyCount < 2 ^ 64 := keys ▸ Mask.card_pairs_lt short
  rw [List.map_congr_left counts, own.represents.toNat_pairCount, Nat.mod_eq_of_lt few]
  rfl

theorem sum_readCells (f : List Char → Nat) :
    ((readPicture (text (lines p m))).map fun line => f (readCells line)).sum =
      ((Walk.below m.length).map fun i => f (cells m i)).sum := by
  simp only [readPicture_lines, picture, List.map_map, Function.comp_def, readCells_rowLine]

theorem demonstrates_lines (own : m.Expresses p) (length : m.length.toNat = 2 * h + 1)
    (short : m.length.toNat < 2 ^ 32) : Demonstrates h (text (lines p m)) := by
  have row (line : List Char) (listed : line ∈ readPicture (text (lines p m))) :
      ∃ i, readCells line = cells m i := by
    rw [readPicture_lines, picture, List.map_map] at listed
    obtain ⟨i, -, rfl⟩ := List.mem_map.mp listed
    exact ⟨i, readCells_rowLine m i⟩
  refine {
    rows := ?_
    numbered := fun k line shown => ?_
    width := fun line listed => ?_
    cell := fun line listed c inside => ?_
    pairs := ?_
    intervals := ?_ }
  · rw [readPicture_lines, picture, List.length_map, List.length_map, Walk.length_below, length]
  · have inside : k < m.length.toNat := by
      simpa [readPicture_lines, picture] using (List.getElem?_eq_some_iff.mp shown).1
    have place : (UInt64.ofNat k).toNat = k := Words.toNat_ofNat (by omega)
    have own : (rowLine m (UInt64.ofNat k)).toList = line := by
      simpa [readPicture_lines, picture, Walk.below, inside] using shown
    rw [← own, readNumber_rowLine, place]
  · obtain ⟨i, own⟩ := row line listed
    rw [own, cells, List.length_map, Walk.length_below, length]
  · obtain ⟨i, own⟩ := row line listed
    exact eq_of_mem_cells (own ▸ inside)
  · rw [sum_readCells (List.count '#'), sum_count own short, readFigure_pairs]
  · rw [sum_readCells blocks, sum_blocks own, readFigure_intervals]

theorem ofHalf_of_accepted {half : Int64} (ok : (Pattern.copyTask half).Accepted)
    (short : (Pattern.copyTask half).length.toInt < 2 ^ 32) :
    ∃ m, m.Expresses (.copyTask half) ∧ ofHalf half = ⟨0, text (lines (.copyTask half) m), ""⟩ := by
  obtain ⟨g, done, length, image⟩ := Grid.exists_build ok short
  have built : Mask.buildAs .grid (.copyTask half) = .ok (.grid g) :=
    Mask.buildAs_grid_iff.mpr ⟨g, done, rfl⟩
  refine ⟨.grid g, ⟨ok, length, image⟩, ?_⟩
  unfold ofHalf
  simp only [built]

theorem text_singleton (line : String) : text [line] = line ++ "\n" := by
  refine String.toList_inj.mp ?_
  rw [text, String.toList_join, List.map_singleton, List.flatMap_singleton]

/-- A half whose matrix is not built leaves one line that tells why. -/
theorem ofHalf_of_refused {half : Int64}
    (refused : ∀ m, Mask.buildAs .grid (.copyTask half) ≠ .ok m) :
    ∃ line : String, '\n' ∉ line.toList ∧ ofHalf half = ⟨1, "", line ++ "\n"⟩ := by
  cases built : Mask.buildAs .grid (.copyTask half) with
  | ok m => exact absurd built (refused m)
  | error fault =>
      refine ⟨"Mask build failed: " ++ fault.message, ?_, ?_⟩
      · simp [newline_not_mem_message]
      · unfold ofHalf
        simp only [built, text_singleton]

/-- How a run for the half length `h` ends. -/
structure Consistent (h : Int) (outcome : Outcome) : Prop where
  exit_eq_zero_iff : outcome.exit = 0 ↔ 0 ≤ h ∧ h < 2 ^ 31
  failed : outcome.exit ≠ 0 → outcome.exit = 1 ∧ outcome.out = "" ∧
    ∃ line : String, '\n' ∉ line.toList ∧ outcome.err = line ++ "\n"
  shown : outcome.exit = 0 → outcome.err = "" ∧ Demonstrates h.toNat outcome.out

theorem consistent_shown {h : Int} {out : String} (inside : 0 ≤ h ∧ h < 2 ^ 31)
    (square : Demonstrates h.toNat out) : Consistent h ⟨0, out, ""⟩ :=
  ⟨iff_of_true rfl inside, fun failed => absurd rfl failed, fun _ => ⟨rfl, square⟩⟩

theorem consistent_failed {h : Int} {line : String} (outside : ¬(0 ≤ h ∧ h < 2 ^ 31))
    (whole : '\n' ∉ line.toList) : Consistent h ⟨1, "", line ++ "\n"⟩ := by
  have failed : (1 : UInt32) ≠ 0 := by decide
  exact ⟨iff_of_false failed outside, fun _ => ⟨rfl, rfl, line, whole, rfl⟩,
    fun zero => absurd zero failed⟩

theorem consistent_ofHalf (half : Int64) : Consistent half.toInt (ofHalf half) := by
  have bounded := Pattern.toInt_boundedHalf half
  have length := Pattern.toInt_length_copyTask half
  by_cases inside : 0 ≤ half.toInt ∧ half.toInt < 2 ^ 31
  · have ok := Pattern.copyTask_accepted_iff.mpr ⟨inside.1, by omega⟩
    obtain ⟨m, own, ended⟩ := ofHalf_of_accepted ok (by omega)
    have count : m.length.toNat = 2 * half.toInt.toNat + 1 := by
      rw [own.length, ok.toNat_length]
      omega
    rw [ended]
    exact consistent_shown inside (demonstrates_lines own count (by omega))
  · have refused (m : Mask) : Mask.buildAs .grid (.copyTask half) ≠ .ok m := fun built => by
      obtain ⟨g, done, _⟩ := Mask.buildAs_grid_iff.mp built
      obtain ⟨ok, short⟩ := Grid.accepted_of_build done
      have range := Pattern.copyTask_accepted_iff.mp ok
      exact inside ⟨range.1, by omega⟩
    obtain ⟨line, whole, ended⟩ := ofHalf_of_refused refused
    rw [ended]
    exact consistent_failed inside whole

theorem halfOf_eq {first : String} {rest : List String} {h : Int}
    (reads : Decimal.Reads first.toList h) (fits : Words.Holds h) :
    (halfOf (first :: rest)).toInt = h := by
  rw [halfOf, Decimal.leading_eq_iff.mpr reads, Decimal.toInt_nearestWord fits]

/-- Whatever the first argument, the number it starts with decides the run, and the
run is consistent. -/
theorem consistent_run (first : String) (rest : List String) (h : Int)
    (reads : Decimal.Reads first.toList h) (fits : Words.Holds h) :
    Consistent h (run (first :: rest)) ∧
      ∀ first' rest', Decimal.Reads first'.toList h →
        run (first' :: rest') = run (first :: rest) := by
  have value : (halfOf (first :: rest)).toInt = h := halfOf_eq reads fits
  refine ⟨?_, fun first' rest' reads' => ?_⟩
  · have ended := consistent_ofHalf (halfOf (first :: rest))
    rwa [value] at ended
  · have same : halfOf (first' :: rest') = halfOf (first :: rest) :=
      Int64.toInt_inj.mp ((halfOf_eq reads' fits).trans value.symm)
    rw [run, run, same]

/-- A number between other characters, the same number alone, and a negative one. -/
theorem consistent_run_three :
    ((run [" +3x", "5"]).exit = 0 ∧ Demonstrates 3 (run [" +3x", "5"]).out ∧
      run ["3"] = run [" +3x", "5"]) ∧ (run ["-1"]).exit = 1 := by
  obtain ⟨ended, same⟩ := consistent_run " +3x" ["5"] 3 (Decimal.leading_eq_iff.mp (by decide))
    ⟨by decide, by decide⟩
  obtain ⟨ended', _⟩ := consistent_run "-1" [] (-1) (Decimal.leading_eq_iff.mp (by decide))
    ⟨by decide, by decide⟩
  have done := ended.exit_eq_zero_iff.mpr (by decide)
  have failed : (run ["-1"]).exit ≠ 0 := fun zero =>
    absurd (ended'.exit_eq_zero_iff.mp zero) (by decide)
  exact ⟨⟨done, (ended.shown done).2, same "3" [] (Decimal.leading_eq_iff.mp (by decide))⟩,
    (ended'.failed failed).1⟩

end Report
end AttentionMask
