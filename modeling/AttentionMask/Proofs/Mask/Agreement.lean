import AttentionMask.Proofs.Mask.RowKeys

/-! Membership, listed keys and stored rows of a mask tell one story, in either form: a byte that is
set, a run that holds the key, the search that finds it and the list that contains it all stand for
the same pair. A mask and its conversions cannot be told apart by any of these questions. -/

namespace AttentionMask

variable {R : Nat → Nat → Prop}

namespace Mask

variable {m m' : Mask} {p : Pattern}

/-- The row as it is stored holds key `j`: its byte is set, or one of its runs contains it. -/
def StoredRow.Holds : StoredRow → UInt64 → Prop
  | bytes row, j => ∃ byte, row[j.toNat]? = some byte ∧ byte ≠ 0
  | runs row, j => KeyRun.Covers row.toList j

/-- Listed keys, stored rows and membership agree, and there is nothing outside the sequence. -/
structure Coherent (m : Mask) : Prop where
  ascending : ∀ i, (m.rowKeys i).Pairwise (· < ·)
  listed : ∀ i j, j ∈ m.rowKeys i ↔ m.allows i j = true
  stored : ∀ i < m.length, ∀ j, (m.storedRow i).Holds j ↔ m.allows i j = true
  rowKeys_outside : ∀ i, m.length ≤ i → m.rowKeys i = []
  allows_outside : ∀ i j, m.length ≤ i ∨ m.length ≤ j → m.allows i j = false

/-- No question about length, pairs or keys tells the masks apart. -/
structure Agrees (m m' : Mask) : Prop where
  length : m.length = m'.length
  allows : ∀ i j, m.allows i j = m'.allows i j
  rowKeys : ∀ i, m.rowKeys i = m'.rowKeys i

theorem rowKeys_of_length_le {i : UInt64} (outside : m.length ≤ i) : m.rowKeys i = [] := by
  unfold rowKeys
  exact if_pos outside

theorem allows_of_length_le {i j : UInt64} (outside : m.length ≤ i ∨ m.length ≤ j) :
    m.allows i j = false := by
  cases m with
  | grid g => exact if_pos outside
  | runs t => exact if_pos outside

theorem Represents.holds_storedRow (h : m.Represents R) {i : UInt64} (row : i < m.length)
    (j : UInt64) : (m.storedRow i).Holds j ↔ m.allows i j = true := by
  cases m with
  | grid g =>
      have image : g.Represents R := h
      change (∃ byte, (g.row i)[j.toNat]? = some byte ∧ byte ≠ 0) ↔ g.allows i j = true
      by_cases key : j < g.length
      · have value := getElem?_imageRow (.grid g) i (UInt64.lt_iff_toNat_lt.mp key)
        rw [← Grid.Represents.row_eq image row, UInt64.ofNat_toNat] at value
        change _ = some (if g.allows i j then (1 : UInt8) else 0) at value
        rw [value]
        cases g.allows i j <;> simp
      · have size := image.framed.size_row (UInt64.lt_iff_toNat_lt.mp row)
        have past := UInt64.le_iff_toNat_le.mp (UInt64.not_lt.mp key)
        have outside := allows_of_length_le (m := .grid g) (i := i) (.inr (UInt64.not_lt.mp key))
        change g.allows i j = false at outside
        rw [Array.getElem?_eq_none (by omega), outside]
        simp
  | runs t =>
      have table : t.Represents R := h
      exact iff_of_eq (congrFun (table.covers_eq_allows row) j)

theorem Represents.coherent (h : m.Represents R) : m.Coherent := by
  refine ⟨fun i => ?_, fun i j => ?_, fun i row j => h.holds_storedRow row j,
    fun i => rowKeys_of_length_le, fun i j => allows_of_length_le⟩
  · by_cases row : i < m.length
    · rw [h.rowKeys_eq_filter row]
      exact (Walk.pairwise_below m.length).filter (m.allows i)
    · rw [rowKeys_of_length_le (UInt64.not_lt.mp row)]
      exact List.Pairwise.nil
  · by_cases row : i < m.length
    · rw [h.rowKeys_eq_filter row, List.mem_filter, Walk.mem_below]
      exact and_iff_right_of_imp fun permitted => (h.allows_iff.mp permitted).2.1
    · have outside := UInt64.not_lt.mp row
      rw [rowKeys_of_length_le outside, allows_of_length_le (.inl outside)]
      simp

theorem Represents.agrees (h : m.Represents R) (h' : m'.Represents R)
    (length : m.length = m'.length) : m.Agrees m' := by
  have same := h.allows_eq h' length
  refine ⟨length, same, fun i => ?_⟩
  by_cases row : i < m.length
  · rw [h.rowKeys_eq_filter row, h'.rowKeys_eq_filter (length ▸ row), length, funext (same i)]
  · have outside := UInt64.not_lt.mp row
    rw [rowKeys_of_length_le outside, rowKeys_of_length_le (length ▸ outside)]

/-- A mask expands exactly when it has fewer than `2 ^ 32` positions. -/
theorem Expresses.exists_toGrid_iff (h : m.Expresses p) :
    (∃ g, m.toGrid = .ok g) ↔ m.length.toNat < 2 ^ 32 := by
  cases m with
  | grid g => exact iff_of_true ⟨g, rfl⟩ (Grid.Represents.framed h.represents).short
  | runs t =>
      have small := h.toNat_length_le
      change t.length.toNat ≤ _ at small
      constructor
      · rintro ⟨g, done⟩
        exact RunTable.short_of_toGrid (by omega) done
      · intro short
        obtain ⟨g, done, _⟩ := RunTable.Represents.exists_toGrid h.represents short
        exact ⟨g, done⟩

/-- Every obtainable mask is coherent and agrees with its conversions, of which the one to runs
always succeeds and the one to a matrix below `2 ^ 32` positions. -/
theorem obtainable_agrees : ∀ m, Obtainable m →
    m.Coherent ∧ (runs m.toRunTable).Agrees m ∧ (∀ g, m.toGrid = .ok g → (grid g).Agrees m) ∧
      ((∃ g, m.toGrid = .ok g) ↔ m.length.toNat < 2 ^ 32) := by
  intro m h
  obtain ⟨p, _, _, own⟩ := h.exists_expresses fun _ fits => fits
  refine ⟨own.represents.coherent, ?_, fun g done => ?_, own.exists_toGrid_iff⟩
  · have compact := own.compacted
    exact compact.represents.agrees own.represents (compact.length.trans own.length.symm)
  · have image := own.expanded done
    exact image.represents.agrees own.represents (image.length.trans own.length.symm)

/-- A table, the matrix it expands to, and the table that this compacts to. -/
theorem obtainable_agrees_small :
    ∃ t g, RunTable.build ⟨13, 4, some [7, 7, 20], 1, .clamped⟩ = .ok t ∧ t.toGrid = .ok g ∧
      (runs t).Coherent ∧ (grid g).Coherent ∧ (grid g).Agrees (runs t) ∧
        (runs g.toRunTable).Agrees (grid g) := by
  have ok : Pattern.Accepted ⟨13, 4, some [7, 7, 20], 1, .clamped⟩ :=
    Pattern.check_eq_ok_iff.mp (by decide)
  have fits : Fits ⟨13, 4, some [7, 7, 20], 1, .clamped⟩ := by
    unfold Fits
    decide
  obtain ⟨t, done, table, own⟩ := exists_runs ok fits
  have short : (runs t).length.toNat < 2 ^ 32 := by
    rw [own.length]
    decide
  obtain ⟨coherent, _, agrees, expands⟩ := obtainable_agrees _ table
  obtain ⟨g, done'⟩ := expands.mpr short
  obtain ⟨coherent', compacted, _⟩ := obtainable_agrees _ (.expanded table done')
  exact ⟨t, g, done, done', coherent, coherent', agrees g done', compacted⟩

end Mask
end AttentionMask
