import AttentionMask.Proofs.Construction

/-! Masks of either form and the parameters they came from. A mask expresses parameters when it
represents the pairs they permit; builds make such masks and conversions keep them so, hence every
obtainable mask expresses the parameters of the build it goes back to. -/

namespace AttentionMask.Mask

variable {m : Mask} {p : Pattern} {allowed : Pattern → Prop}

def Represents (m : Mask) (R : Nat → Nat → Prop) : Prop :=
  match m with
  | grid g => g.Represents R
  | runs t => t.Represents R

theorem Represents.allows_iff {R : Nat → Nat → Prop} (h : m.Represents R) {i j : UInt64} :
    m.allows i j = true ↔ i < m.length ∧ j < m.length ∧ R i.toNat j.toNat := by
  cases m with
  | grid g => exact Grid.Represents.allows_iff h
  | runs t => exact RunTable.Represents.allows_iff h

theorem Represents.allows_ofNat {R : Nat → Nat → Prop} (h : m.Represents R) {i : UInt64}
    (row : i < m.length) {k : Nat} (key : k < m.length.toNat) :
    m.allows i (UInt64.ofNat k) = true ↔ R i.toNat k := by
  have top := m.length.toNat_lt
  have value := Words.toNat_ofNat (k := k) (by omega)
  rw [h.allows_iff, value]
  exact ⟨fun held => held.2.2, fun related => ⟨row, Words.ofNat_lt key, related⟩⟩

/-- Masks of one length for one relation answer alike, whatever their forms. -/
theorem Represents.allows_eq {R : Nat → Nat → Prop} {m' : Mask} (h : m.Represents R)
    (h' : m'.Represents R) (length : m.length = m'.length) (i j : UInt64) :
    m.allows i j = m'.allows i j := by
  rw [Bool.eq_iff_iff, h.allows_iff, h'.allows_iff, length]

/-- One relation has one mask of each form and length. -/
theorem Represents.unique {R : Nat → Nat → Prop} {m' : Mask} (h : m.Represents R)
    (h' : m'.Represents R) (form : m.form = m'.form) (length : m.length = m'.length) : m = m' := by
  cases m with
  | grid g =>
      cases m' with
      | grid g' => exact congrArg grid (Grid.Represents.unique h h' length)
      | runs t' => cases form
  | runs t =>
      cases m' with
      | grid g' => cases form
      | runs t' => exact congrArg runs (RunTable.Represents.unique h h' length)

structure Expresses (m : Mask) (p : Pattern) : Prop where
  accepted : p.Accepted
  length : m.length = p.length.toUInt64
  represents : m.Represents p.Permits

theorem Expresses.allows_iff (h : m.Expresses p) {i j : UInt64} :
    m.allows i j = true ↔ p.Permits i.toNat j.toNat := by
  rw [h.represents.allows_iff, h.length, h.accepted.permits_iff]

theorem Expresses.lt_length_iff (h : m.Expresses p) {i : UInt64} :
    i < m.length ↔ (i.toNat : Int) < p.length.toInt := by
  rw [h.length, h.accepted.lt_length_iff]

theorem Expresses.toNat_length_le (h : m.Expresses p) : m.length.toNat ≤ 1099511627776 := by
  rw [h.length]
  exact h.accepted.toNat_length_le

theorem buildAs_grid_iff : buildAs .grid p = .ok m ↔ ∃ g, Grid.build p = .ok g ∧ grid g = m := by
  rw [buildAs]
  cases Grid.build p <;> simp [Except.map]

theorem buildAs_runs_iff :
    buildAs .runs p = .ok m ↔ ∃ t, RunTable.build p = .ok t ∧ runs t = m := by
  rw [buildAs]
  cases RunTable.build p <;> simp [Except.map]

theorem expresses_of_build {form : Form}
    (room : p.Accepted → p.rule.runRows.flatten.length < 2 ^ 64) (done : buildAs form p = .ok m) :
    m.Expresses p := by
  cases form with
  | grid =>
      obtain ⟨g, built, rfl⟩ := buildAs_grid_iff.mp done
      obtain ⟨ok, short⟩ := Grid.accepted_of_build built
      obtain ⟨_, built', length, image⟩ := Grid.exists_build ok short
      obtain rfl := Except.ok.inj (built.symm.trans built')
      exact ⟨ok, length, image⟩
  | runs =>
      obtain ⟨t, built, rfl⟩ := buildAs_runs_iff.mp done
      have ok := RunTable.accepted_of_build built
      obtain ⟨_, built', length, table⟩ := RunTable.exists_build ok (room ok)
      obtain rfl := Except.ok.inj (built.symm.trans built')
      exact ⟨ok, length, table⟩

theorem Expresses.expanded (h : m.Expresses p) {g : Grid} (done : m.toGrid = .ok g) :
    (grid g).Expresses p := by
  cases m with
  | grid g' =>
      cases done
      exact h
  | runs t =>
      have small := h.toNat_length_le
      change t.length.toNat ≤ _ at small
      have short := RunTable.short_of_toGrid (by omega) done
      obtain ⟨_, done', length, image⟩ := RunTable.Represents.exists_toGrid h.represents short
      obtain rfl := Except.ok.inj (done'.symm.trans done)
      exact ⟨h.accepted, length.trans h.length, image⟩

theorem Expresses.compacted (h : m.Expresses p) : (runs m.toRunTable).Expresses p := by
  cases m with
  | grid g =>
      exact ⟨h.accepted, g.length_toRunTable.trans h.length,
        Grid.Represents.represents_toRunTable h.represents⟩
  | runs t => exact h

theorem Expresses.length_toRunTable (h : m.Expresses p) : m.toRunTable.length = m.length :=
  h.compacted.length.trans h.length.symm

/-- Every mask that builds and conversions lead to expresses the parameters it goes back to. -/
theorem Derived.exists_expresses_of_room (h : Derived allowed m)
    (room : ∀ p, allowed p → p.Accepted → p.rule.runRows.flatten.length < 2 ^ 64) :
    ∃ p, allowed p ∧ Derived (· = p) m ∧ m.Expresses p := by
  induction h with
  | built fit done => exact ⟨_, fit, .built rfl done, expresses_of_build (room _ fit) done⟩
  | expanded source done ih =>
      obtain ⟨p, fit, own, expresses⟩ := ih
      exact ⟨p, fit, .expanded own done, expresses.expanded done⟩
  | compacted source ih =>
      obtain ⟨p, fit, own, expresses⟩ := ih
      exact ⟨p, fit, .compacted own, expresses.compacted⟩

theorem Derived.exists_expresses (h : Derived allowed m) (fits : ∀ p, allowed p → Fits p) :
    ∃ p, allowed p ∧ Derived (· = p) m ∧ m.Expresses p :=
  h.exists_expresses_of_room fun p fit ok => ok.room_of_fits (fits p fit)

theorem Derived.expresses (h : Derived (· = p) m) (fits : Fits p) : m.Expresses p := by
  obtain ⟨p', same, _, expresses⟩ := h.exists_expresses fun p' same => same ▸ fits
  exact same ▸ expresses

/-- Accepted parameters whose table fits lead to a table. -/
theorem exists_runs (ok : p.Accepted) (fits : Fits p) :
    ∃ t, RunTable.build p = .ok t ∧ Obtainable (runs t) ∧ (runs t).Expresses p := by
  obtain ⟨t, done, length, table⟩ := RunTable.exists_build ok (ok.room_of_fits fits)
  exact ⟨t, done, .built fits (buildAs_runs_iff.mpr ⟨t, done, rfl⟩), ok, length, table⟩

/-- Accepted parameters for fewer than `2 ^ 32` positions lead to a matrix. -/
theorem exists_grid (ok : p.Accepted) (fits : Fits p) (short : p.length.toInt < 2 ^ 32) :
    ∃ g, Grid.build p = .ok g ∧ Obtainable (grid g) ∧ (grid g).Expresses p := by
  obtain ⟨g, done, length, image⟩ := Grid.exists_build ok short
  exact ⟨g, done, .built fits (buildAs_grid_iff.mpr ⟨g, done, rfl⟩), ok, length, image⟩

theorem exists_buildAs (ok : p.Accepted) (fits : Fits p) (form : Form)
    (short : form = .grid → p.length.toInt < 2 ^ 32) :
    ∃ m, buildAs form p = .ok m ∧ m.form = form ∧ Obtainable m ∧ m.Expresses p := by
  cases form with
  | grid =>
      obtain ⟨g, done, own, expresses⟩ := exists_grid ok fits (short rfl)
      exact ⟨grid g, buildAs_grid_iff.mpr ⟨g, done, rfl⟩, rfl, own, expresses⟩
  | runs =>
      obtain ⟨t, done, own, expresses⟩ := exists_runs ok fits
      exact ⟨runs t, buildAs_runs_iff.mpr ⟨t, done, rfl⟩, rfl, own, expresses⟩

end AttentionMask.Mask
