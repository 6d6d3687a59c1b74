import AttentionMask.Proofs.Decimal
import AttentionMask.Report
import Mathlib.Data.List.Basic

/-! The printed demonstration read back. A text falls into lines; the picture stands between the
first two empty ones, a row shows its number before its cells, and a figure follows its label. -/

namespace AttentionMask.Report

variable {p : Pattern} {m : Mask} {i : UInt64}

/-- The lines of a text in which every line is ended. -/
def readLines (out : String) : List (List Char) :=
  (out.toList.splitOn '\n').dropLast

/-- The lines between the first two empty ones. -/
def readPicture (out : String) : List (List Char) :=
  (((readLines out).dropWhile (!·.isEmpty)).drop 1).takeWhile (!·.isEmpty)

def readNumber (line : List Char) : List Char :=
  (line.dropWhile Decimal.isBlank).takeWhile Char.isDigit

/-- What follows the number of a row and one blank. -/
def readCells (line : List Char) : List Char :=
  ((line.dropWhile Decimal.isBlank).dropWhile Char.isDigit).drop 1

/-- What follows the label, for each line that starts with it. -/
def readFigure (label out : String) : List (List Char) :=
  (readLines out).filterMap fun line => line.dropPrefix? label.toList

theorem toList_text (lines : List String) : (text lines).toList =
    ['\n'].intercalate (lines.map String.toList ++ [[]]) := by
  rw [text, String.toList_join]
  induction lines with
  | nil => rfl
  | cons line rest ih =>
      rw [List.map_cons, List.flatMap_cons, ih, List.map_cons, List.cons_append,
        List.intercalate_cons_of_ne_nil (by simp), String.toList_append]
      rfl

theorem readLines_text {lines : List String} (whole : ∀ line ∈ lines, '\n' ∉ line.toList) :
    readLines (text lines) = lines.map String.toList := by
  have ended : ∀ line ∈ lines.map String.toList ++ [[]], '\n' ∉ line := by
    simpa [or_imp, forall_and] using whole
  rw [readLines, toList_text, List.splitOn_intercalate _ ended (by simp), List.dropLast_concat]

theorem eq_of_mem_cells {c : Char} (inside : c ∈ cells m i) : c = '#' ∨ c = '.' := by
  obtain ⟨j, -, rfl⟩ := List.mem_map.mp inside
  split
  · exact .inl rfl
  · exact .inr rfl

theorem toList_rowLine (m : Mask) (i : UInt64) : ∃ indent, (rowLine m i).toList =
    List.replicate indent ' ' ++ (Nat.toDigits 10 i.toNat ++ ' ' :: cells m i) := by
  refine ⟨3 - (Decimal.ofUnsigned i).length, ?_⟩
  simp [rowLine, Decimal.padLeft, Decimal.ofUnsigned]

theorem dropWhile_rowLine (m : Mask) (i : UInt64) : (rowLine m i).toList.dropWhile Decimal.isBlank =
    Nat.toDigits 10 i.toNat ++ ' ' :: cells m i := by
  obtain ⟨indent, line⟩ := toList_rowLine m i
  rw [line]
  refine dropWhile_span (fun c inside => ?_) fun c first => ?_
  · rw [List.eq_of_mem_replicate inside]
    rfl
  · exact (Decimal.plain_of_isDigit (Decimal.isDigit_of_head first)).1

theorem readNumber_rowLine (m : Mask) (i : UInt64) :
    readNumber (rowLine m i).toList = Nat.toDigits 10 i.toNat := by
  rw [readNumber, dropWhile_rowLine]
  exact takeWhile_span Decimal.isDigit_of_mem_digits (by simp)

theorem readCells_rowLine (m : Mask) (i : UInt64) : readCells (rowLine m i).toList = cells m i := by
  rw [readCells, dropWhile_rowLine, dropWhile_span Decimal.isDigit_of_mem_digits (by simp)]
  rfl

/-- A row line begins with its indent or with its number. -/
theorem head_rowLine (m : Mask) (i : UInt64) :
    ∃ c cs, (rowLine m i).toList = c :: cs ∧ (c = ' ' ∨ c.isDigit = true) := by
  obtain ⟨indent, line⟩ := toList_rowLine m i
  obtain ⟨d, ds, digits⟩ :=
    List.exists_cons_of_ne_nil (Nat.toDigits_ne_nil (n := i.toNat) (b := 10))
  rw [line]
  cases indent with
  | zero =>
      refine ⟨d, ds ++ ' ' :: cells m i, by rw [digits]; rfl, .inr ?_⟩
      exact Decimal.isDigit_of_mem_digits d (digits ▸ List.mem_cons_self)
  | succ indent => exact ⟨' ', _, rfl, .inl rfl⟩

theorem newline_not_mem_rowLine (m : Mask) (i : UInt64) : '\n' ∉ (rowLine m i).toList := by
  obtain ⟨indent, line⟩ := toList_rowLine m i
  have cells : '\n' ∉ cells m i := fun inside => by
    rcases eq_of_mem_cells inside with same | same <;> exact absurd same (by decide)
  have digits := newline_not_mem_toDigits (b := 10) (by decide) i.toNat
  simp [line, digits, cells]

theorem forgotten_eq : forgotten =
    ["", "Expected failure: " ++ Fault.missing.render, "  " ++ Fault.missing.message] := by
  have refused : Mask.build { length := 16 } = .error .missing := rfl
  unfold forgotten
  rw [refused]

theorem newline_not_mem_message (fault : Fault) : '\n' ∉ fault.message.toList := by
  unfold Fault.message
  split <;> simp

theorem newline_not_mem_render (fault : Fault) : '\n' ∉ fault.render.toList := by
  have kind : '\n' ∉ fault.kind.name.toList := by
    unfold Fault.Kind.name
    split <;> simp
  have field : '\n' ∉ fault.field.name.toList := by
    unfold Fault.Field.name
    split <;> simp
  unfold Fault.render
  simp [kind, field]

theorem newline_not_mem_short (word : UInt64) : '\n' ∉ (Hex.short word).toList := by
  rw [Hex.short, String.toList_ofList]
  exact newline_not_mem_toDigits (by decide) _

theorem newline_not_mem_lines : ∀ line ∈ lines p m, '\n' ∉ line.toList := by
  simp [lines, heading, picture, figures, forgotten_eq, or_imp, forall_and, newline_not_mem_rowLine,
    newline_not_mem_short, newline_not_mem_message, newline_not_mem_render]

theorem readLines_lines : readLines (text (lines p m)) = (lines p m).map String.toList :=
  readLines_text newline_not_mem_lines

theorem readPicture_lines : readPicture (text (lines p m)) = (picture m).map String.toList := by
  have shape : (lines p m).map String.toList = ((heading p m).dropLast.map String.toList) ++ [] ::
      ((picture m).map String.toList ++
        [] :: ((figures m).tail ++ forgotten).map String.toList) := by
    simp [lines, heading, figures]
  have rows : ∀ line ∈ (picture m).map String.toList, (!line.isEmpty) = true := by
    intro line listed
    obtain ⟨_, inside, rfl⟩ := List.mem_map.mp listed
    obtain ⟨i, -, rfl⟩ := List.mem_map.mp inside
    obtain ⟨c, cs, own, -⟩ := head_rowLine m i
    rw [own]
    rfl
  rw [readPicture, readLines_lines, shape, dropWhile_span (by simp [heading]) (by simp),
    List.drop_one, List.tail_cons, takeWhile_span rows (by simp)]

theorem dropPrefix?_eq_none {c : Char} {cs line : List Char} (apart : line.head? ≠ some c) :
    line.dropPrefix? (c :: cs) = none := by
  cases line with
  | nil => rfl
  | cons d line =>
      have differ : d ≠ c := fun same => apart (congrArg some same)
      simp [List.dropPrefix?, differ]

/-- A label with a letter of its own at the front is read where it stands. -/
theorem readFigure_text {label number : String} {c : Char} {cs : List Char}
    {before after : List String}
    (letter : label.toList = c :: cs) (apart : ∀ line ∈ before ++ after, line.toList.head? ≠ some c)
    (whole : ∀ line ∈ before ++ (label ++ number) :: after, '\n' ∉ line.toList) :
    readFigure label (text (before ++ (label ++ number) :: after)) = [number.toList] := by
  have own : (label ++ number).toList.dropPrefix? label.toList = some number.toList := by
    rw [String.toList_append]
    exact List.dropPrefix?_append_of_beq _ (beq_self_eq_true _)
  have none (part : List String) (inside : ∀ line ∈ part, line ∈ before ++ after) :
      part.filterMap (fun line => line.toList.dropPrefix? label.toList) = [] := by
    refine List.filterMap_eq_nil_iff.mpr fun line listed => ?_
    rw [letter]
    exact dropPrefix?_eq_none (apart line (inside line listed))
  rw [readFigure, readLines_text whole, List.filterMap_map, Function.comp_def,
    List.filterMap_append, List.filterMap_cons, none before fun _ => List.mem_append_left _,
    none after fun _ => List.mem_append_right _, own, List.nil_append]

/-- No row of the picture begins with a letter. -/
theorem head_picture {c : Char} (letter : c ≠ ' ' ∧ c.isDigit = false) :
    ∀ line ∈ picture m, line.toList.head? ≠ some c := by
  intro line listed same
  obtain ⟨i, -, rfl⟩ := List.mem_map.mp listed
  obtain ⟨d, cs, own, kind⟩ := head_rowLine m i
  rw [own] at same
  obtain rfl := Option.some.inj same
  rcases kind with blank | digit
  · exact letter.1 blank
  · rw [letter.2] at digit
    cases digit

theorem readFigure_pairs : readFigure "Permitted pairs: " (text (lines p m)) =
    [Nat.toDigits 10 m.pairCount.toNat] := by
  have shape : lines p m = (heading p m ++ picture m ++ [""]) ++
      ("Permitted pairs: " ++ Decimal.ofUnsigned m.pairCount) ::
        ((figures m).drop 2 ++ forgotten) := by
    simp [lines, figures]
  have whole := newline_not_mem_lines (p := p) (m := m)
  rw [shape] at whole
  rw [shape, readFigure_text (c := 'P') rfl ?_ whole, Decimal.ofUnsigned, Nat.toList_repr]
  simpa [heading, figures, forgotten_eq, or_imp, forall_and] using head_picture (by decide)

theorem readFigure_intervals : readFigure "Intervals: " (text (lines p m)) =
    [Nat.toDigits 10 m.toRunTable.runCount.toNat] := by
  have shape : lines p m = (heading p m ++ picture m ++ (figures m).take 3) ++
      ("Intervals: " ++ Decimal.ofUnsigned m.toRunTable.runCount) :: forgotten := by
    simp [lines, figures]
  have whole := newline_not_mem_lines (p := p) (m := m)
  rw [shape] at whole
  rw [shape, readFigure_text (c := 'I') rfl ?_ whole, Decimal.ofUnsigned, Nat.toList_repr]
  simpa [heading, figures, forgotten_eq, or_imp, forall_and] using head_picture (by decide)

end AttentionMask.Report
