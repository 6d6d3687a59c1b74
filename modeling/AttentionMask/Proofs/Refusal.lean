import AttentionMask.Proofs.Mask.Padding
import AttentionMask.Proofs.Requirement

/-! Which parameters the builders refuse, and whether the fault says what is wrong with them.
Tables of runs are refused by the check alone; a matrix is refused as well when accepted
parameters have `2 ^ 32` positions or more. The faults of the check break the requirement in
their message. The fault of an accepted length does not: it reports a length inside the range
that its message asks for. -/

namespace AttentionMask

namespace Pattern

variable {p : Pattern} {fault : Fault} {text : String}

/-- Accepted parameters with too many positions for a matrix. -/
structure Outgrown (p : Pattern) : Prop where
  checked : p.check = .ok ()
  long : 2 ^ 32 ≤ p.length.toInt

/-- A fault that the parameters have, with the sentence that says so: the value is the one given, it
breaks the requirement, and for an offset the index is its position, counted in a word. -/
inductive Breaks (p : Pattern) : Fault → String → Prop where
  | missing (none : p.offsets = none ∨ p.offsets = some []) :
      Breaks p .missing "offsets must be provided: specify at least one relative offset"
  | length (outside : p.length.toInt < 1 ∨ 2 ^ 40 < p.length.toInt) :
      Breaks p (.invalid .length p.length 0)
        ("sequence_length must be in [1, 2^40] (got " ++ Decimal.ofSigned p.length ++ ")")
  | window (negative : p.window.toInt < 0) :
      Breaks p (.invalid .window p.window 0)
        ("local_window must be non-negative (got " ++ Decimal.ofSigned p.window ++ ")")
  | band (negative : p.band.toInt < 0) :
      Breaks p (.invalid .band p.band 0)
        ("band must be non-negative (got " ++ Decimal.ofSigned p.band ++ ")")
  | offset {k : Nat} {o : Int64} (listed : p.links[k]? = some o) (low : o.toInt < 1) :
      Breaks p (.invalid .offsets o (UInt64.ofNat k))
        ("offsets[" ++ Decimal.ofUnsigned (UInt64.ofNat k) ++ "] must be positive (got " ++
          Decimal.ofSigned o ++ ")")

/-- The first violated condition is a fault that the parameters have. -/
theorem breaks_of_check (found : p.check = .error fault) : p.Breaks fault fault.message := by
  obtain ⟨r, missed, _, report⟩ := check_eq_error_iff.mp found
  cases report with
  | given => exact .missing (not_not.mp missed)
  | length =>
      rw [Meets] at missed
      exact .length (by omega)
  | window => exact .window (Int.not_le.mp missed)
  | band => exact .band (Int.not_le.mp missed)
  | positive first listed =>
      obtain ⟨o, listed', low⟩ := first.1
      obtain rfl := Option.some.inj (listed.symm.trans listed')
      exact .offset listed low

theorem Breaks.not_accepted (h : p.Breaks fault text) : ¬p.Accepted := by
  intro ok
  cases h with
  | missing none => exact ok.links_ne_nil (links_eq_nil_iff.mpr none)
  | length outside =>
      have low := Int64.le_iff_toInt_le.mp ok.one_le_length
      have high := Int64.le_iff_toInt_le.mp ok.length_le_max
      change 1 ≤ p.length.toInt at low
      change p.length.toInt ≤ 2 ^ 40 at high
      omega
  | window negative =>
      exact absurd (Int64.le_iff_toInt_le.mp ok.window_nonneg) (Int.not_le.mpr negative)
  | band negative =>
      exact absurd (Int64.le_iff_toInt_le.mp ok.band_nonneg) (Int.not_le.mpr negative)
  | offset listed low =>
      have positive := ok.one_le_offset _ (List.mem_of_getElem? listed)
      exact absurd (Int64.le_iff_toInt_le.mp positive) (Int.not_le.mpr low)

/-- Of all faults that may be reported, those of the check are the ones the parameters have. -/
theorem breaks_message_iff (reported : p.check = .error fault ∨ p.Outgrown) :
    p.Breaks fault fault.message ↔ ¬p.Outgrown := by
  constructor
  · intro broken long
    exact broken.not_accepted (check_eq_ok_iff.mp long.checked)
  · intro short
    exact breaks_of_check (reported.resolve_right short)

end Pattern

namespace RunTable

variable {p : Pattern} {fault : Fault}

theorem build_eq_error_iff : build p = .error fault ↔ p.check = .error fault := by
  unfold build
  cases p.check <;> simp

end RunTable

namespace Grid

variable {p : Pattern} {fault : Fault}

/-- Of the lengths that the check accepts, those of `2 ^ 32` positions and more outgrow a
word of bytes. -/
theorem imageBytes_eq_error_iff (ok : p.Accepted) :
    (∃ overflow, Storage.imageBytes p.length.toUInt64 = .error overflow) ↔
      2 ^ 32 ≤ p.length.toInt := by
  have count := ok.toNat_length
  have bound := ok.toNat_length_le
  constructor
  · rintro ⟨overflow, failed⟩
    by_contra short
    obtain ⟨total, done, _⟩ := Storage.imageBytes_of_short (n := p.length.toUInt64) (by omega)
    rw [failed] at done
    cases done
  · intro long
    cases size : Storage.imageBytes p.length.toUInt64 with
    | error overflow => exact ⟨overflow, rfl⟩
    | ok total =>
        have short := Storage.short_of_imageBytes (by omega) size
        omega

theorem build_eq_error_iff : build p = .error fault ↔
    p.check = .error fault ∨ p.Outgrown ∧ fault = .invalid .length p.length 0 := by
  cases checked : p.check with
  | error found =>
      have refused : ¬p.Outgrown := fun long => by cases checked.symm.trans long.checked
      simp [build, checked, refused]
  | ok =>
      have limit := imageBytes_eq_error_iff (Pattern.check_eq_ok_iff.mp checked)
      have outgrown : p.Outgrown ↔ 2 ^ 32 ≤ p.length.toInt :=
        ⟨fun h => h.long, fun h => ⟨checked, h⟩⟩
      rw [outgrown, ← limit, build, checked]
      cases Storage.imageBytes p.length.toUInt64 <;> simp [eq_comm]

end Grid

namespace Mask

variable {p : Pattern} {fault : Fault} {form : Form} {m : Mask}

theorem buildAs_grid_eq_error_iff :
    buildAs .grid p = .error fault ↔ Grid.build p = .error fault := by
  rw [buildAs]
  cases Grid.build p <;> simp [Except.map]

theorem buildAs_runs_eq_error_iff :
    buildAs .runs p = .error fault ↔ RunTable.build p = .error fault := by
  rw [buildAs]
  cases RunTable.build p <;> simp [Except.map]

theorem form_of_buildAs (done : buildAs form p = .ok m) : m.form = form := by
  cases form with
  | grid =>
      obtain ⟨g, _, rfl⟩ := buildAs_grid_iff.mp done
      rfl
  | runs =>
      obtain ⟨t, _, rfl⟩ := buildAs_runs_iff.mp done
      rfl

theorem StemsFrom.toNat_length (h : m.StemsFrom p) : (m.length.toNat : Int) = p.length.toInt := by
  have low : 1 ≤ p.length.toInt := h.accepted.sound.one_le_length
  rw [h.length, h.accepted.toNat_length]
  omega

end Mask

/-- All ways to a table are refused by the check alone, all ways to a matrix also for accepted
parameters that outgrow it, with their length as the fault. What is not refused gives one mask
whichever way it is built, in the form asked for and of the length given. -/
theorem builders_gate (p : Pattern) :
    (∀ fault, (Mask.build p = .error fault ↔ p.check = .error fault) ∧
      (Mask.buildAs .runs p = .error fault ↔ p.check = .error fault) ∧
      (RunTable.build p = .error fault ↔ p.check = .error fault)) ∧
    (∀ fault,
      (Mask.buildAs .grid p = .error fault ↔
        p.check = .error fault ∨ p.Outgrown ∧ fault = .invalid .length p.length 0) ∧
      (Grid.build p = .error fault ↔
        p.check = .error fault ∨ p.Outgrown ∧ fault = .invalid .length p.length 0)) ∧
    (∀ m, (Mask.build p = .ok m ↔ ∃ t, RunTable.build p = .ok t ∧ .runs t = m) ∧
      (Mask.buildAs .runs p = .ok m ↔ ∃ t, RunTable.build p = .ok t ∧ .runs t = m) ∧
      (Mask.buildAs .grid p = .ok m ↔ ∃ g, Grid.build p = .ok g ∧ .grid g = m)) ∧
    ∀ form m, Mask.buildAs form p = .ok m →
      m.form = form ∧ (m.length.toNat : Int) = p.length.toInt := by
  refine ⟨fun fault => ?_, fun fault => ?_, fun m => ?_, fun form m done => ?_⟩
  · have table : Mask.buildAs .runs p = .error fault ↔ p.check = .error fault :=
      Mask.buildAs_runs_eq_error_iff.trans RunTable.build_eq_error_iff
    exact ⟨table, table, RunTable.build_eq_error_iff⟩
  · exact ⟨Mask.buildAs_grid_eq_error_iff.trans Grid.build_eq_error_iff, Grid.build_eq_error_iff⟩
  · exact ⟨Mask.buildAs_runs_iff, Mask.buildAs_runs_iff, Mask.buildAs_grid_iff⟩
  · exact ⟨Mask.form_of_buildAs done, (Mask.stemsFrom_of_build done).toNat_length⟩

/-- A refused table always reports what its parameters break. A refused matrix does so unless the
parameters are accepted and only outgrow it. -/
theorem refusals_break_iff (p : Pattern) (fault : Fault) :
    (Mask.build p = .error fault → p.Breaks fault fault.message) ∧
    (Mask.buildAs .runs p = .error fault → p.Breaks fault fault.message) ∧
    (RunTable.build p = .error fault → p.Breaks fault fault.message) ∧
    (Mask.buildAs .grid p = .error fault → (p.Breaks fault fault.message ↔ ¬p.Outgrown)) ∧
    (Grid.build p = .error fault → (p.Breaks fault fault.message ↔ ¬p.Outgrown)) := by
  have table (refused : RunTable.build p = .error fault) : p.Breaks fault fault.message :=
    Pattern.breaks_of_check (RunTable.build_eq_error_iff.mp refused)
  have matrix (refused : Grid.build p = .error fault) :
      p.Breaks fault fault.message ↔ ¬p.Outgrown :=
    Pattern.breaks_message_iff ((Grid.build_eq_error_iff.mp refused).imp_right And.left)
  exact ⟨fun refused => table (Mask.buildAs_runs_eq_error_iff.mp refused),
    fun refused => table (Mask.buildAs_runs_eq_error_iff.mp refused), table,
    fun refused => matrix (Mask.buildAs_grid_eq_error_iff.mp refused), matrix⟩

/-- The second of three offsets is the first that is not positive. -/
theorem refusals_break_offset :
    RunTable.build ⟨13, 4, some [7, 0, -2], 1, .clamped⟩ = .error (.invalid .offsets 0 1) ∧
      Pattern.Breaks ⟨13, 4, some [7, 0, -2], 1, .clamped⟩ (.invalid .offsets 0 1)
        (Fault.message (.invalid .offsets 0 1)) := by
  have refused : RunTable.build ⟨13, 4, some [7, 0, -2], 1, .clamped⟩ =
      .error (.invalid .offsets 0 1) := RunTable.build_eq_error_iff.mpr (by decide)
  exact ⟨refused, (refusals_break_iff _ _).2.2.1 refused⟩

/-- The least length that outgrows a matrix is reported with a range that contains it. -/
theorem outgrown_message_untrue :
    Mask.buildAs .grid ⟨4294967296, 4, some [1], 1, .unclamped⟩ =
        .error (.invalid .length 4294967296 0) ∧
      Fault.message (.invalid .length 4294967296 0) =
        "sequence_length must be in [1, 2^40] (got 4294967296)" ∧
      (1 ≤ (4294967296 : Int64) ∧ (4294967296 : Int64) ≤ Pattern.maxLength) ∧
      ¬Pattern.Breaks ⟨4294967296, 4, some [1], 1, .unclamped⟩ (.invalid .length 4294967296 0)
        (Fault.message (.invalid .length 4294967296 0)) := by
  have long : Pattern.Outgrown ⟨4294967296, 4, some [1], 1, .unclamped⟩ :=
    ⟨by decide, by decide⟩
  refine ⟨?_, by decide, by decide, fun broken => ?_⟩
  · exact Mask.buildAs_grid_eq_error_iff.mpr (Grid.build_eq_error_iff.mpr (.inr ⟨long, rfl⟩))
  · exact broken.not_accepted (Pattern.check_eq_ok_iff.mp long.checked)

end AttentionMask
