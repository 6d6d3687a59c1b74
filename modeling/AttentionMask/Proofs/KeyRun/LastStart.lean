import AttentionMask.Proofs.KeyRun.LastWord
import AttentionMask.Proofs.KeyRun.Search

/-! The halving search agrees with reading every run. For runs in order of their starts it answers
as the last run that starts at or before the key does, so it never finds a key that no run holds. It
may miss a key that an earlier, longer run holds, unless the ends are in order too. -/

namespace AttentionMask.KeyRun

variable {runs : Array KeyRun} {key : UInt64}

/-- Every run is read, and of those that start at or before the key the last one is kept. -/
def lastStart? (runs : List KeyRun) (key : UInt64) : Option KeyRun :=
  runs.findRev? fun run => run.first ≤ key

theorem lastStart?_eq_some_iff {run : KeyRun} :
    lastStart? runs.toList key = some run ↔
      ∃ p, ∃ h : p < runs.size, LastStart runs key p ∧ runs[p] = run := by
  -- Read from the end, run `p` comes at place `runs.size - 1 - p`.
  simp only [lastStart?, List.findRev?_eq_find?_reverse, List.find?_eq_some_iff_getElem,
    decide_eq_true_eq, List.length_reverse, Array.length_toList, List.getElem_reverse,
    Array.getElem_toList, Bool.not_eq_true', decide_eq_false_iff_not, UInt64.not_le]
  constructor
  · rintro ⟨first, i, inside, rfl, after⟩
    refine ⟨runs.size - 1 - i, by omega, ⟨⟨by omega, first⟩, fun q inside' later => ?_⟩, rfl⟩
    have start := after (runs.size - 1 - q) (by omega)
    simpa only [show runs.size - 1 - (runs.size - 1 - q) = q by omega] using start
  · rintro ⟨p, inside, ⟨⟨_, first⟩, after⟩, rfl⟩
    have place : runs.size - 1 - (runs.size - 1 - p) = p := by omega
    refine ⟨first, runs.size - 1 - p, by omega, ?_, fun j before => ?_⟩
    · simp only [place]
    · exact after (runs.size - 1 - j) (by omega) (by omega)

theorem found_eq_any_lastStart? (sorted : StartSorted runs.toList) :
    found runs key = (lastStart? runs.toList key).any fun run => key ≤ run.last := by
  rw [Bool.eq_iff_iff, found_iff_lastStart sorted, Option.any_eq_true]
  simp only [lastStart?_eq_some_iff, decide_eq_true_eq]
  constructor
  · rintro ⟨p, inside, last, ends⟩
    exact ⟨runs[p], ⟨p, inside, last, rfl⟩, ends⟩
  · rintro ⟨_, ⟨p, inside, last, rfl⟩, ends⟩
    exact ⟨p, inside, last, ends⟩

theorem covers_of_found (sorted : StartSorted runs.toList) (h : found runs key = true) :
    Covers runs.toList key := by
  obtain ⟨p, inside, ⟨⟨_, first⟩, -⟩, ends⟩ := (found_iff_lastStart sorted).mp h
  exact ⟨runs[p], Array.getElem_mem_toList inside, first, ends⟩

/-- Runs in order of their starts may overlap, be empty or reach the last word: the search answers
for the last one that starts at or before the key. Where the ends are in order too, as in the union
of proper runs, this is to ask each run for the key. -/
theorem halving_agrees_with_scan :
    (∀ (runs : Array KeyRun) (key : UInt64), StartSorted runs.toList →
      (found runs key = (lastStart? runs.toList key).any fun run => key ≤ run.last) ∧
      (found runs key = true → Covers runs.toList key) ∧
      (EndSorted runs.toList → (found runs key = true ↔ Covers runs.toList key))) ∧
    ∀ given : List KeyRun, (∀ run ∈ given, Proper run) →
      StartSorted (union given) ∧ EndSorted (union given) ∧
      (∀ key, found (union given).toArray key = true ↔ Covers (union given) key) ∧
      ∀ sorted : List KeyRun, sorted.Perm given → StartSorted sorted →
        sweep sorted = union given := by
  refine ⟨fun runs key sorted => ⟨found_eq_any_lastStart? sorted, covers_of_found sorted,
    found_iff_covers sorted⟩, fun given proper => ?_⟩
  have normal := canonical_union given proper
  exact ⟨normal.startSorted, normal.endSorted,
    fun _ => found_iff_covers normal.startSorted normal.endSorted, (isUnion_union proper).swept⟩

/-- A run that reaches the last word is hidden by the empty run with the same start and by the short
one after them. -/
theorem halving_agrees_with_scan_hidden :
    (found #[⟨2, 18446744073709551615⟩, ⟨2, 1⟩, ⟨5, 6⟩] 7 = false ∧
      found #[⟨2, 18446744073709551615⟩, ⟨2, 1⟩, ⟨5, 6⟩] 3 = false ∧
      Covers [⟨2, 18446744073709551615⟩, ⟨2, 1⟩, ⟨5, 6⟩] 7) ∧
    found #[⟨0, 4⟩, ⟨3, 4⟩, ⟨3, 18446744073709551615⟩] 18446744073709551615 = true ∧
    sweep [⟨0, 2⟩, ⟨3, 3⟩, ⟨5, 6⟩] = union [⟨5, 6⟩, ⟨3, 3⟩, ⟨0, 2⟩] ∧
    found (union [⟨5, 6⟩, ⟨3, 3⟩, ⟨0, 2⟩]).toArray 6 = true := by
  have search := halving_agrees_with_scan.1
  have hidden (key : UInt64) := search #[⟨2, 18446744073709551615⟩, ⟨2, 1⟩, ⟨5, 6⟩] key
    (by unfold StartSorted; decide)
  have ordered := search #[⟨0, 4⟩, ⟨3, 4⟩, ⟨3, 18446744073709551615⟩] 18446744073709551615
    (by unfold StartSorted; decide)
  have united := halving_agrees_with_scan.2 [⟨5, 6⟩, ⟨3, 3⟩, ⟨0, 2⟩] (by
    simp only [List.forall_mem_cons]
    exact ⟨⟨by decide, by decide⟩, ⟨by decide, by decide⟩, ⟨by decide, by decide⟩, nofun⟩)
  have swept : sweep [⟨0, 2⟩, ⟨3, 3⟩, ⟨5, 6⟩] = union [⟨5, 6⟩, ⟨3, 3⟩, ⟨0, 2⟩] :=
    united.2.2.2 _ (by decide) (by unfold StartSorted; decide)
  have covered : Covers (sweep [⟨0, 2⟩, ⟨3, 3⟩, ⟨5, 6⟩]) 6 := by decide
  refine ⟨⟨(hidden 7).1.trans (by decide), (hidden 3).1.trans (by decide), by decide⟩, ?_,
    swept, ?_⟩
  · exact (ordered.2.2 (by unfold EndSorted; decide)).mpr (by decide)
  · exact (united.2.2.1 6).mpr (swept ▸ covered)

end AttentionMask.KeyRun
