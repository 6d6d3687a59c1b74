import AttentionMask.Proofs.Mask.Relation

/-! The form of every obtainable table of runs. Its starts rise strictly from zero to the number of
runs, each row is the list of the maximal runs of permitted keys, the query's own key is in one of
them, and there are no more runs than the capacity of a worker's buffer. -/

namespace AttentionMask

open KeyRun

namespace Pattern

variable {p : Pattern} {i j : Nat}

theorem Accepted.permits_self (ok : p.Accepted) (row : (i : Int) < p.length.toInt) :
    p.Permits i i := by
  have wide := ok.sound.window_nonneg
  change 0 ≤ p.window.toInt at wide
  exact ⟨row, row, .inl ⟨by omega, Nat.le_refl i⟩⟩

theorem Permits.le_of_clamped (h : p.Permits i j) (clamped : p.causality = .clamped) : j ≤ i := by
  obtain ⟨_, _, near | ⟨o, _, _, _, cut⟩⟩ := h
  · exact near.2
  · exact cut clamped

end Pattern

namespace RunTable

theorem Laid.start_lt {t : RunTable} (h : t.Laid) {i : UInt64} (inside : i < t.length)
    (full : 0 < (t.row i).size) : t.start i < t.start (i + 1) := by
  rw [h.row_eq inside, Array.size_extract] at full
  rw [UInt64.lt_iff_toNat_lt]
  omega

theorem Laid.strict {t : RunTable} (h : t.Laid) (full : ∀ i < t.length, 0 < (t.row i).size) :
    t.starts.toList.Pairwise (· < ·) := by
  have size := h.size_starts
  have top := t.length.toNat_lt
  refine List.pairwise_iff_getElem.mpr fun a b ha hb less => ?_
  rw [Array.length_toList] at ha hb
  have row : UInt64.ofNat a < t.length := Words.ofNat_lt (by omega)
  have step := h.start_lt row (full _ row)
  have later := h.start_mono (show a + 1 ≤ b from less) (by omega)
  have next : UInt64.ofNat (a + 1) = UInt64.ofNat a + 1 := UInt64.ofNat_add a 1
  rw [next] at later
  rw [Array.getElem_toList, Array.getElem_toList, getElem_starts ha (by omega),
    getElem_starts hb (by omega)]
  exact UInt64.lt_iff_toNat_lt.mpr (Nat.lt_of_lt_of_le (UInt64.lt_iff_toNat_lt.mp step) later)

theorem Laid.getElem?_zero {t : RunTable} (h : t.Laid) : t.starts[0]? = some 0 := by
  have size := h.size_starts
  rw [Array.getElem?_eq_getElem (by omega), getElem_starts (by omega) (by decide)]
  exact congrArg some h.start_zero

theorem Laid.toNat_back? {t : RunTable} (h : t.Laid) :
    t.starts.back?.map UInt64.toNat = some t.runs.size := by
  have size := h.size_starts
  have top := t.length.toNat_lt
  rw [Array.back?_eq_getElem?, Array.getElem?_eq_getElem (by omega), Option.map_some,
    getElem_starts (by omega) (by omega), size, Nat.add_sub_cancel, UInt64.ofNat_toNat,
    h.start_length]

/-- The starts and rows of a table of runs for these parameters. -/
structure Shaped (t : RunTable) (p : Pattern) : Prop where
  length : t.length = p.length.toUInt64
  size_starts : t.starts.size = t.length.toNat + 1
  start_zero : t.starts[0]? = some 0
  start_strict : t.starts.toList.Pairwise (· < ·)
  start_last : t.starts.back?.map UInt64.toNat = some t.runs.size
  row_nonempty : ∀ i < t.length, 0 < (t.row i).size
  run_nonempty : ∀ i < t.length, ∀ run ∈ (t.row i).toList, run.first ≤ run.last
  run_inside : ∀ i < t.length, ∀ run ∈ (t.row i).toList, run.last < t.length
  separated : ∀ i < t.length, Separated (t.row i).toList
  own_key : ∀ i < t.length, ∃ run ∈ (t.row i).toList, i ∈ run
  causal : p.causality = .clamped → ∀ i < t.length, ∀ run ∈ (t.row i).toList, run.last ≤ i
  size_row : ∀ i < t.length,
    (t.row i).size = {run | KeyRun.Maximal (fun j => t.allows i j = true) run}.ncard
  size_row_le : ∀ i < t.length, (t.row i).size ≤ p.rule.capacity
  capacity : p.rule.capacity = 1 + (p.links.toFinset.filter (· < p.length)).card

end RunTable

namespace Mask

variable {p : Pattern} {t : RunTable}

theorem Expresses.shaped (h : (runs t).Expresses p) : t.Shaped p := by
  have ok := h.accepted
  have table : t.Represents p.Permits := h.represents
  have length : t.length = p.length.toUInt64 := h.length
  have own (i : UInt64) (row : i < t.length) : Covers (t.row i).toList i := by
    refine (table.covers i row i).mpr ⟨row, ok.permits_self ?_⟩
    rwa [← ok.lt_length_iff, ← length]
  have full (i : UInt64) (row : i < t.length) : 0 < (t.row i).size := by
    obtain ⟨run, listed, _⟩ := own i row
    rw [← Array.length_toList]
    exact List.length_pos_of_mem listed
  refine {
    length
    size_starts := table.laid.size_starts
    start_zero := table.laid.getElem?_zero
    start_strict := table.laid.strict full
    start_last := table.laid.toNat_back?
    row_nonempty := full
    run_nonempty := fun i row => (table.canonical i row).first_le_last
    run_inside := table.normal.inside
    separated := fun i row => (table.canonical i row).separated
    own_key := own
    causal := fun clamped i row run listed => ?_
    size_row := fun i row => ?_
    size_row_le := fun i row => ?_
    capacity := Pattern.capacity_rule ok }
  · have permitted := (table.covers i row run.last).mp ((table.canonical i row).covers_last listed)
    exact UInt64.le_iff_toNat_le.mpr (permitted.2.le_of_clamped clamped)
  · rw [← table.covers_eq_allows row, ← (table.canonical i row).length_eq_ncard,
      Array.length_toList]
  · rw [← Array.length_toList, table.row_eq_runs ok length row]
    exact p.rule.length_runs_le _

/-- An obtainable table goes back to a build, and has the form of its parameters. -/
theorem obtainable_shaped (h : Obtainable (runs t)) :
    (∃ p, Fits p ∧ Derived (· = p) (runs t)) ∧
      ∀ p, Fits p → Derived (· = p) (runs t) → t.Shaped p := by
  refine ⟨?_, fun p fits derived => (derived.expresses fits).shaped⟩
  obtain ⟨p, fits, derived, _⟩ := h.exists_expresses fun _ fits => fits
  exact ⟨p, fits, derived⟩

theorem obtainable_shaped_clamped :
    ∃ t, RunTable.build ⟨13, 4, some [7, 7, 20], 1, .clamped⟩ = .ok t ∧
      t.Shaped ⟨13, 4, some [7, 7, 20], 1, .clamped⟩ := by
  have ok : Pattern.Accepted ⟨13, 4, some [7, 7, 20], 1, .clamped⟩ :=
    Pattern.check_eq_ok_iff.mp (by decide)
  have fits : Fits ⟨13, 4, some [7, 7, 20], 1, .clamped⟩ := by
    unfold Fits
    decide
  obtain ⟨t, done, _⟩ := RunTable.exists_build ok (ok.room_of_fits fits)
  have built : buildAs .runs ⟨13, 4, some [7, 7, 20], 1, .clamped⟩ = .ok (runs t) := by
    rw [buildAs, done]
    rfl
  exact ⟨t, done, (obtainable_shaped (.built fits built)).2 _ fits (.built rfl built)⟩

end Mask
end AttentionMask
