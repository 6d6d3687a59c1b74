import AttentionMask.Proofs.Decimal
import AttentionMask.Proofs.Requirement

/-! The texts of faults tell them apart. The rendered line has four parts without commas, so it
splits into them again, and it keeps the whole of a fault whose kind and field have names. The
message leaves out the kind and, offsets apart, the index; of the faults that the check reports it
still names the requirement by its opening and the value by the number that follows. -/

namespace AttentionMask

namespace Fault

variable {a b : Fault}

def Kind.isNamed : Kind → Bool
  | unnamed _ => false
  | _ => true

def Field.isNamed : Field → Bool
  | unnamed _ => false
  | _ => true

structure Named (f : Fault) : Prop where
  kind : f.kind.isNamed = true
  field : f.field.isNamed = true

theorem Kind.name_inj {k l : Kind} (hk : k.isNamed = true) (hl : l.isNamed = true)
    (same : k.name = l.name) : k = l := by
  cases k <;> cases l <;> simp_all [isNamed, name]

theorem Field.name_inj {f g : Field} (hf : f.isNamed = true) (hg : g.isNamed = true)
    (same : f.name = g.name) : f = g := by
  cases f <;> cases g <;> simp_all [isNamed, name]

/-- The parts of the rendered line between its commas. -/
def parts (f : Fault) : List String :=
  ["MaskError\x7bcode=" ++ f.kind.name, " parameter=" ++ f.field.name,
    " value=" ++ Decimal.ofSigned f.value, " index=" ++ Decimal.ofUnsigned f.index ++ "\x7d"]

theorem toList_render (f : Fault) :
    f.render.toList = [','].intercalate (f.parts.map String.toList) := by
  unfold render parts
  simp

theorem comma_not_mem_parts (f : Fault) : ∀ part ∈ f.parts.map String.toList, ',' ∉ part := by
  have kind : ',' ∉ f.kind.name.toList := by
    unfold Kind.name
    split <;> simp
  have field : ',' ∉ f.field.name.toList := by
    unfold Field.name
    split <;> simp
  have value : ',' ∉ (Decimal.ofSigned f.value).toList := fun inside =>
    absurd (Decimal.isDigit_or_minus_of_mem_ofSigned inside) (by decide)
  have index : ',' ∉ (Decimal.ofUnsigned f.index).toList := fun inside =>
    absurd (Decimal.isDigit_of_mem_ofUnsigned inside) (by decide)
  simp [parts, kind, field, value, index]

theorem splitOn_render (f : Fault) : f.render.toList.splitOn ',' = f.parts.map String.toList := by
  rw [toList_render, List.splitOn_intercalate _ f.comma_not_mem_parts (by simp [parts])]

theorem render_eq_iff : a.render = b.render ↔ a.kind.name = b.kind.name ∧
    a.field.name = b.field.name ∧ a.value = b.value ∧ a.index = b.index := by
  constructor
  · intro same
    have split : a.parts.map String.toList = b.parts.map String.toList := by
      rw [← splitOn_render, ← splitOn_render, same]
    have joined : a.parts = b.parts :=
      (List.map_inj_right fun _ _ => String.toList_inj.mp).mp split
    simpa [parts, Decimal.ofSigned_inj, Decimal.ofUnsigned_inj] using joined
  · rintro ⟨kind, field, value, index⟩
    unfold render
    rw [kind, field, value, index]

theorem Named.render_eq_iff (ha : a.Named) (hb : b.Named) : a.render = b.render ↔ a = b := by
  rw [Fault.render_eq_iff]
  constructor
  · rintro ⟨kind, field, value, index⟩
    have kind' := Kind.name_inj ha.kind hb.kind kind
    have field' := Field.name_inj ha.field hb.field field
    cases a
    cases b
    simp_all
  · rintro rfl
    exact ⟨rfl, rfl, rfl, rfl⟩

end Fault

namespace Pattern

variable {p q : Pattern} {a b fault : Fault} {r s : Requirement}

/-- The message of a fault up to its first number. -/
def Requirement.opening : Requirement → String
  | given => "offsets must be provided: specify at least one relative offset"
  | length => "sequence_length must be in [1, 2^40] (got "
  | window => "local_window must be non-negative (got "
  | band => "band must be non-negative (got "
  | positive => "offsets["

/-- The message from its first number on: the value, and for an offset its position before it. -/
def Requirement.numbers (f : Fault) : Requirement → String
  | given => ""
  | positive => Decimal.ofUnsigned f.index ++
      ("] must be positive (got " ++ (Decimal.ofSigned f.value ++ ")"))
  | _ => Decimal.ofSigned f.value ++ ")"

/-- No opening begins another. -/
theorem Requirement.opening_not_prefix : r ≠ s → ¬r.opening.toList <+: s.opening.toList := by
  cases r <;> cases s <;> decide

theorem Reports.message_eq (report : p.Reports r fault) :
    fault.message = r.opening ++ r.numbers fault := by
  cases report with
  | given => exact String.append_empty.symm
  | length => exact String.append_assoc
  | window => exact String.append_assoc
  | band => exact String.append_assoc
  | positive =>
      simp [Fault.message, Requirement.opening, Requirement.numbers, String.append_assoc]

theorem Reports.opening_prefix (report : p.Reports r fault) :
    r.opening.toList <+: fault.message.toList := by
  rw [report.message_eq, String.toList_append]
  exact List.prefix_append _ _

theorem Reports.requirement_eq (ha : p.Reports r a) (hb : q.Reports s b)
    (same : a.message = b.message) : r = s := by
  have opens := ha.opening_prefix
  rw [same] at opens
  by_contra differ
  rcases List.prefix_or_prefix_of_prefix opens hb.opening_prefix with before | before
  · exact Requirement.opening_not_prefix differ before
  · exact Requirement.opening_not_prefix (Ne.symm differ) before

/-- A fault of one requirement is determined by its numbers. -/
theorem Reports.eq_of_numbers (ha : p.Reports r a) (hb : q.Reports r b)
    (same : r.numbers a = r.numbers b) : a = b := by
  cases ha with
  | given => cases hb with
    | given => rfl
  | length => cases hb with
    | length =>
      exact congrArg (Fault.invalid .length · 0) (Decimal.ofSigned_append_left_inj.mp same)
  | window => cases hb with
    | window =>
      exact congrArg (Fault.invalid .window · 0) (Decimal.ofSigned_append_left_inj.mp same)
  | band => cases hb with
    | band =>
      exact congrArg (Fault.invalid .band · 0) (Decimal.ofSigned_append_left_inj.mp same)
  | positive => cases hb with
    | positive =>
      have bracket (rest : String) :
          ∀ c ∈ ("] must be positive (got " ++ rest).toList.head?, c.isDigit = false := by
        simp
      obtain ⟨index, rest⟩ := Decimal.ofUnsigned_append_inj (bracket _) (bracket _) same
      have value := Decimal.ofSigned_append_left_inj.mp ((String.append_right_inj _).mp rest)
      exact congrArg₂ (Fault.invalid .offsets) value index

theorem message_eq_iff (found : p.check = .error a) (found' : q.check = .error b) :
    a.message = b.message ↔ a = b := by
  refine ⟨fun same => ?_, congrArg Fault.message⟩
  obtain ⟨r, -, -, report⟩ := check_eq_error_iff.mp found
  obtain ⟨s, -, -, report'⟩ := check_eq_error_iff.mp found'
  obtain rfl := report.requirement_eq report' same
  rw [report.message_eq, report'.message_eq] at same
  exact report.eq_of_numbers report' ((String.append_right_inj _).mp same)

end Pattern

/-- The rendered lines of two faults whose kinds and fields have names are equal only if the faults
are. So are the messages of two faults that the check reports, of whatever parameters, although a
message leaves out the kind, the name of the field and mostly the index. -/
theorem texts_tell_faults_apart :
    (∀ a b : Fault, a.Named → b.Named → (a.render = b.render ↔ a = b)) ∧
    ∀ (p q : Pattern) (a b : Fault), p.check = .error a → q.check = .error b →
      (a.message = b.message ↔ a = b) :=
  ⟨fun _ _ ha hb => ha.render_eq_iff hb,
    fun _ _ _ _ found found' => Pattern.message_eq_iff found found'⟩

/-- Digits that stand on either side of the boundary between value and index. -/
theorem texts_tell_faults_apart_close :
    Fault.render ⟨.invalidParameter, .offsets, -1, 12⟩ ≠
      Fault.render ⟨.invalidParameter, .offsets, -11, 2⟩ ∧
    Fault.message ⟨.invalidParameter, .offsets, -12, 0⟩ ≠
      Fault.message ⟨.invalidParameter, .offsets, -2, 1⟩ := by
  obtain ⟨rendered, reported⟩ := texts_tell_faults_apart
  constructor
  · exact mt (rendered _ _ ⟨rfl, rfl⟩ ⟨rfl, rfl⟩).mp (by decide)
  · exact mt (reported ⟨13, 4, some [-12], 1, .clamped⟩
      ⟨13, 4, some [7, -2], 1, .clamped⟩ _ _ rfl rfl).mp (by decide)

-- No check reports the second of these, a length at an index.
example : Fault.message ⟨.invalidParameter, .length, 0, 0⟩ =
    Fault.message ⟨.invalidParameter, .length, 0, 1⟩ := rfl

end AttentionMask
