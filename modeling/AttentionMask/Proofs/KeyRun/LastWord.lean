import AttentionMask.Proofs.KeyRun.Uniqueness

/-! The union of any runs at all, also of empty ones and of runs that reach the last word. No key is
lost or invented and the starts stay in order. But the word after a run that reaches the last one is
zero, so nothing that starts later joins it: runs with different starts are united to a normal form
exactly when no run but the one that starts last reaches the last word. -/

namespace AttentionMask.KeyRun

variable {runs sorted : List KeyRun}

theorem any_contains {key : UInt64} :
    runs.any (fun run => run.contains key) = true ↔ Covers runs key := by
  simp [Covers]

theorem startSorted_coalesce (current : KeyRun) (rest : List KeyRun)
    (order : StartSorted (current :: rest)) : StartSorted (coalesce current rest) := by
  induction rest generalizing current with
  | nil => exact order
  | cons next rest ih =>
      obtain ⟨head, tail⟩ := List.pairwise_cons.mp order
      unfold coalesce
      split
      · exact ih _ (startSorted_extend order)
      · refine List.pairwise_cons.mpr ⟨fun run listed => ?_, ih next tail⟩
        exact UInt64.le_trans (head next List.mem_cons_self)
          (first_le_of_mem_coalesce next rest tail listed)

/-- What holds of the united runs whatever runs are united. -/
structure Gathers (runs result : List KeyRun) : Prop where
  contains : ∀ key, result.any (fun run => run.contains key) = runs.any fun run => run.contains key
  length_le : result.length ≤ runs.length
  ascending : result.Pairwise fun a b => a.first ≤ b.first

theorem gathers_sweep (perm : sorted.Perm runs) (order : StartSorted sorted) :
    Gathers runs (sweep sorted) := by
  refine ⟨fun key => ?_, ?_, ?_⟩
  · rw [Bool.eq_iff_iff, any_contains, any_contains, covers_sweep sorted order, covers_perm perm]
  · exact perm.length_eq ▸ length_sweep_le sorted
  · cases sorted with
    | nil => exact List.Pairwise.nil
    | cons run rest => exact startSorted_coalesce run rest order

/-- No run is too odd to be united: a key is held by the result exactly when one of the runs holds
it, whichever order the sort leaves equal starts in. -/
theorem union_gathers (runs : List KeyRun) :
    (∀ sorted : List KeyRun, sorted.Perm runs → StartSorted sorted → Gathers runs (sweep sorted)) ∧
      Gathers runs (union runs) :=
  ⟨fun _ => gathers_sweep,
    gathers_sweep (List.mergeSort_perm runs startsBefore) (startSorted_mergeSort runs)⟩

/-- Two empty runs, one of them at the start of a run that reaches the last word. The two orders of
their starts are swept to different lists over the same keys. -/
theorem union_gathers_empty :
    (sweep [⟨0, 6⟩, ⟨5, 2⟩, ⟨5, 18446744073709551615⟩, ⟨9, 9⟩, ⟨12, 10⟩] =
        [⟨0, 18446744073709551615⟩, ⟨9, 9⟩, ⟨12, 10⟩] ∧
      Gathers [⟨12, 10⟩, ⟨5, 18446744073709551615⟩, ⟨0, 6⟩, ⟨5, 2⟩, ⟨9, 9⟩]
        [⟨0, 18446744073709551615⟩, ⟨9, 9⟩, ⟨12, 10⟩]) ∧
    sweep [⟨0, 6⟩, ⟨5, 18446744073709551615⟩, ⟨5, 2⟩, ⟨9, 9⟩, ⟨12, 10⟩] =
        [⟨0, 18446744073709551615⟩, ⟨5, 2⟩, ⟨9, 9⟩, ⟨12, 10⟩] ∧
      Gathers [⟨12, 10⟩, ⟨5, 18446744073709551615⟩, ⟨0, 6⟩, ⟨5, 2⟩, ⟨9, 9⟩]
        [⟨0, 18446744073709551615⟩, ⟨5, 2⟩, ⟨9, 9⟩, ⟨12, 10⟩] := by
  have early : sweep [⟨0, 6⟩, ⟨5, 2⟩, ⟨5, 18446744073709551615⟩, ⟨9, 9⟩, ⟨12, 10⟩] =
      [⟨0, 18446744073709551615⟩, ⟨9, 9⟩, ⟨12, 10⟩] := by decide
  have late : sweep [⟨0, 6⟩, ⟨5, 18446744073709551615⟩, ⟨5, 2⟩, ⟨9, 9⟩, ⟨12, 10⟩] =
      [⟨0, 18446744073709551615⟩, ⟨5, 2⟩, ⟨9, 9⟩, ⟨12, 10⟩] := by decide
  refine ⟨⟨early, ?_⟩, late, ?_⟩
  · exact early ▸ (union_gathers _).1 _ (by decide) (by unfold StartSorted; decide)
  · exact late ▸ (union_gathers _).1 _ (by decide) (by unfold StartSorted; decide)

/-- A run that reaches the last word starts after all others. -/
def ReachesLast (runs : List KeyRun) : Prop :=
  ∀ run ∈ runs, run.last.toNat = 2 ^ 64 - 1 → ∀ other ∈ runs, other.first ≤ run.first

def Ascending (runs : List KeyRun) : Prop :=
  runs.Pairwise fun a b => a.first < b.first

theorem Ascending.startSorted (h : Ascending runs) : StartSorted runs :=
  h.imp UInt64.le_of_lt

theorem Ascending.extend {current next : KeyRun} {rest : List KeyRun}
    (h : Ascending (current :: next :: rest)) : Ascending (current.extend next :: rest) := by
  obtain ⟨head, tail⟩ := List.pairwise_cons.mp h
  exact List.pairwise_cons.mpr
    ⟨fun run listed => head run (List.mem_cons_of_mem next listed), (List.pairwise_cons.mp tail).2⟩

/-- A run that reaches the last word is joined by none that starts later. -/
theorem room_of_touches {current next : KeyRun} (later : current.first < next.first)
    (join : current.touches next = true) : current.last.toNat + 1 < 2 ^ 64 := by
  rw [touches_iff] at join
  rw [UInt64.lt_iff_toNat_lt] at later
  have top := current.last.toNat_lt
  omega

/-- A run that reaches the last word and has another one after it is left open to the end and
overlaps the next. -/
theorem room_of_canonical_coalesce (current : KeyRun) (rest : List KeyRun)
    (ascending : Ascending (current :: rest)) (normal : Canonical (coalesce current rest)) :
    (current :: rest).Pairwise fun run _ => run.last.toNat + 1 < 2 ^ 64 := by
  induction rest generalizing current with
  | nil => exact List.pairwise_singleton _ _
  | cons next rest ih =>
      obtain ⟨head, tail⟩ := List.pairwise_cons.mp ascending
      unfold coalesce at normal
      split at normal
      · rename_i join
        have short := room_of_touches (head next List.mem_cons_self) join
        obtain ⟨joined, after⟩ := List.pairwise_cons.mp (ih _ ascending.extend normal)
        have inner (run : KeyRun) (listed : run ∈ rest) : next.last.toNat + 1 < 2 ^ 64 := by
          have bound := joined run listed
          rw [toNat_extend_last] at bound
          omega
        exact List.pairwise_cons.mpr ⟨fun _ _ => short, List.pairwise_cons.mpr ⟨inner, after⟩⟩
      · obtain ⟨-, gap, normal'⟩ := canonical_cons.mp normal
        obtain ⟨run, listed⟩ := List.exists_mem_of_ne_nil _ (coalesce_ne_nil next rest)
        have apart := gap run listed
        have top := run.first.toNat_lt
        exact List.pairwise_cons.mpr ⟨fun _ _ => by omega, ih next tail normal'⟩

/-- A word must follow each run but the last. -/
theorem canonical_sweep_iff (ascending : Ascending sorted)
    (ordered : ∀ run ∈ sorted, run.first ≤ run.last) :
    Canonical (sweep sorted) ↔ sorted.Pairwise fun run _ => run.last.toNat + 1 < 2 ^ 64 := by
  cases sorted with
  | nil => exact iff_of_true canonical_nil List.Pairwise.nil
  | cons run rest =>
      exact ⟨room_of_canonical_coalesce run rest ascending,
        canonical_coalesce run rest ascending.startSorted ordered⟩

theorem reachesLast_iff (ascending : Ascending sorted) :
    ReachesLast sorted ↔ sorted.Pairwise fun run _ => run.last.toNat + 1 < 2 ^ 64 := by
  constructor
  · intro last
    refine ascending.imp_of_mem fun {a b} listed listed' later => ?_
    have top := a.last.toNat_lt
    rw [UInt64.lt_iff_toNat_lt] at later
    by_contra reach
    have early := UInt64.le_iff_toNat_le.mp (last a listed (by omega) b listed')
    omega
  · intro room run listed reach other listed'
    obtain ⟨i, inside, rfl⟩ := List.getElem_of_mem listed
    obtain ⟨j, inside', rfl⟩ := List.getElem_of_mem listed'
    rcases Nat.lt_trichotomy i j with before | rfl | after
    · have short := List.pairwise_iff_getElem.mp room i j inside inside' before
      omega
    · exact UInt64.le_refl _
    · exact UInt64.le_of_lt (List.pairwise_iff_getElem.mp ascending j i inside' inside after)

theorem ascending_of_perm (distinct : (runs.map first).Nodup) (perm : sorted.Perm runs)
    (order : StartSorted sorted) : Ascending sorted := by
  have apart := List.pairwise_map.mp ((perm.map first).nodup_iff.mpr distinct)
  exact (order.and apart).imp fun ⟨le, ne⟩ => UInt64.lt_of_le_of_ne le ne

theorem Ascending.eq_of_perm {other : List KeyRun} (h : Ascending sorted) (h' : Ascending other)
    (perm : sorted.Perm other) : sorted = other :=
  perm.eq_of_pairwise (fun _ _ _ _ less more => absurd less (UInt64.lt_asymm more)) h h'

theorem first_le_last_of_mem_coalesce (current : KeyRun) (rest : List KeyRun)
    (ordered : ∀ run ∈ current :: rest, run.first ≤ run.last) :
    ∀ run ∈ coalesce current rest, run.first ≤ run.last := by
  induction rest generalizing current with
  | nil => exact ordered
  | cons next rest ih =>
      obtain ⟨own, others⟩ := List.forall_mem_cons.mp ordered
      unfold coalesce
      split
      · exact ih _ (List.forall_mem_cons.mpr
          ⟨first_le_last_extend next own, (List.forall_mem_cons.mp others).2⟩)
      · exact List.forall_mem_cons.mpr ⟨own, ih next others⟩

theorem first_le_last_of_mem_sweep (ordered : ∀ run ∈ sorted, run.first ≤ run.last) :
    ∀ run ∈ sweep sorted, run.first ≤ run.last := by
  cases sorted with
  | nil => exact ordered
  | cons run rest => exact first_le_last_of_mem_coalesce run rest ordered

/-- Nonempty runs with different starts are united to runs in order, each beyond the word after the
one before it, exactly when no run but the one that starts last reaches the last word. -/
theorem canonical_union_iff (runs : List KeyRun) (ordered : ∀ run ∈ runs, run.first ≤ run.last)
    (distinct : (runs.map first).Nodup) :
    ((union runs).IsChain (fun a b => a.last.toNat + 1 < b.first.toNat) ↔ ReachesLast runs) ∧
      (Canonical (union runs) ↔ ReachesLast runs) ∧
      ∀ sorted : List KeyRun, sorted.Perm runs → StartSorted sorted →
        sweep sorted = union runs := by
  have perm : (runs.mergeSort startsBefore).Perm runs := List.mergeSort_perm runs startsBefore
  have ascending := ascending_of_perm distinct perm (startSorted_mergeSort runs)
  have ordered' (run : KeyRun) (listed : run ∈ runs.mergeSort startsBefore) :
      run.first ≤ run.last :=
    ordered run (perm.mem_iff.mp listed)
  have same : ReachesLast (runs.mergeSort startsBefore) ↔ ReachesLast runs := by
    simp only [ReachesLast, perm.mem_iff]
  have normal : Canonical (union runs) ↔ ReachesLast runs := by
    rw [union, canonical_sweep_iff ascending ordered', ← reachesLast_iff ascending, same]
  have chain : (union runs).IsChain (fun a b => a.last.toNat + 1 < b.first.toNat) ↔
      Canonical (union runs) :=
    ⟨canonical_of_isChain (first_le_last_of_mem_sweep ordered'), fun h => h.separated.isChain⟩
  refine ⟨chain.trans normal, normal, fun sorted perm' order => ?_⟩
  rw [union, (ascending_of_perm distinct perm' order).eq_of_perm ascending (perm'.trans perm.symm)]

/-- A run to the last word that joins the two before it, and one that is followed
by another start. -/
theorem canonical_union_iff_three :
    Canonical (union [⟨5, 18446744073709551615⟩, ⟨0, 2⟩, ⟨3, 7⟩]) ∧
      ¬(union [⟨5, 18446744073709551615⟩, ⟨0, 2⟩, ⟨9, 9⟩]).IsChain
        (fun a b => a.last.toNat + 1 < b.first.toNat) := by
  constructor
  · exact (canonical_union_iff _ (by decide) (by decide)).2.1.mpr (by unfold ReachesLast; decide)
  · exact (canonical_union_iff _ (by decide) (by decide)).1.not.mpr (by unfold ReachesLast; decide)

end AttentionMask.KeyRun
