import AttentionMask.Proofs.Guarded.Rows

/-! The union of runs is a normal form of the keys they cover. Nonempty runs that stop short of the
last word have one union, whatever order the sort leaves equal starts in and whether the sweep
builds a list or works in place: no other list of separated runs covers the same keys. So runs may
be reordered, repeated, cut in two or united in part beforehand. -/

namespace AttentionMask.KeyRun

variable {runs : List KeyRun}

/-- It is enough that each run keeps clear of the one before it. -/
theorem canonical_of_isChain (ordered : ∀ run ∈ runs, run.first ≤ run.last)
    (apart : runs.IsChain fun a b => a.last.toNat + 1 < b.first.toNat) : Canonical runs := by
  induction runs with
  | nil => exact canonical_nil
  | cons run rest ih =>
      obtain ⟨own, others⟩ := List.forall_mem_cons.mp ordered
      obtain ⟨head, tail⟩ := List.isChain_cons.mp apart
      have normal := ih others tail
      refine canonical_cons.mpr ⟨own, fun later listed => ?_, normal⟩
      cases rest with
      | nil => cases listed
      | cons next rest =>
          have gap := head next rfl
          rcases List.mem_cons.mp listed with rfl | listed
          · exact gap
          · have order := normal.toNat_first_le List.mem_cons_self
            have gap' := (canonical_cons.mp normal).2.1 later listed
            omega

/-- Runs in normal form that cover what proper runs cover stop short of the last word too. -/
theorem Canonical.proper {others : List KeyRun} (h : Canonical others)
    (proper : ∀ run ∈ runs, Proper run) (same : ∀ key, Covers others key ↔ Covers runs key) :
    ∀ run ∈ others, Proper run := by
  intro run listed
  obtain ⟨own, listed', inside⟩ := (same run.last).mp (h.covers_last listed)
  have room := (proper own listed').last_lt
  rw [mem_iff_toNat] at inside
  exact ⟨h.first_le_last run listed, by omega⟩

theorem covers_perm {others : List KeyRun} (same : others.Perm runs) (key : UInt64) :
    Covers others key ↔ Covers runs key := by
  simp only [Covers, same.mem_iff]

/-- Two neighbouring pieces of a run hold its keys. -/
theorem covers_pieces {run : KeyRun} {cut key : UInt64} (low : run.first ≤ cut)
    (high : cut < run.last) :
    Covers [⟨run.first, cut⟩, ⟨cut + 1, run.last⟩] key ↔ Covers [run] key := by
  rw [UInt64.le_iff_toNat_le] at low
  rw [UInt64.lt_iff_toNat_lt] at high
  have top := run.last.toNat_lt
  have next : (cut + 1).toNat = cut.toNat + 1 := Words.toNat_add_one (by omega)
  simp only [covers_cons, covers_nil, or_false, mem_iff_toNat, next]
  omega

theorem Proper.pieces {run : KeyRun} {cut : UInt64} (own : Proper run) (low : run.first ≤ cut)
    (high : cut < run.last) : ∀ piece ∈ [⟨run.first, cut⟩, ⟨cut + 1, run.last⟩], Proper piece := by
  have high' := UInt64.lt_iff_toNat_lt.mp high
  have top := run.last.toNat_lt
  have next : (cut + 1).toNat = cut.toNat + 1 := Words.toNat_add_one (by omega)
  have second : cut + 1 ≤ run.last := UInt64.le_iff_toNat_le.mpr (by omega)
  simp only [List.forall_mem_cons]
  exact ⟨⟨low, by change cut.toNat + 1 < 2 ^ 64; omega⟩, ⟨second, own.last_lt⟩, nofun⟩

/-- The result is the only separated list over the keys of the runs, and each order that a sort by
first keys may choose is swept to it, in place as well. -/
structure IsUnion (runs result : List KeyRun) : Prop where
  canonical : Canonical result
  covers : ∀ key, Covers result key ↔ Covers runs key
  unique : ∀ other : List KeyRun, (∀ run ∈ other, run.first ≤ run.last) →
    (other.IsChain fun a b => a.last.toNat + 1 < b.first.toNat) →
    (∀ key, Covers other key ↔ Covers runs key) → other = result
  swept : ∀ sorted : List KeyRun, sorted.Perm runs → StartSorted sorted → sweep sorted = result
  swept_in_place : ∀ sorted : Array KeyRun, sorted.size < 2 ^ 64 → sorted.toList.Perm runs →
    StartSorted sorted.toList → sweepAll? sorted = some result.toArray

/-- Separated runs are the union of all proper runs over the same keys. -/
theorem Canonical.isUnion {result : List KeyRun} (h : Canonical result)
    (proper : ∀ run ∈ runs, Proper run) (same : ∀ key, Covers result key ↔ Covers runs key) :
    IsUnion runs result := by
  have swept (sorted : List KeyRun) (perm : sorted.Perm runs) (order : StartSorted sorted) :
      sweep sorted = result := by
    have members (run : KeyRun) (listed : run ∈ sorted) : Proper run :=
      proper run (perm.mem_iff.mp listed)
    refine (canonical_sweep sorted order members).eq_of_covers h fun key => ?_
    rw [covers_sweep sorted order, covers_perm perm, same]
  refine ⟨h, same, fun other ordered apart same' => ?_, swept,
    fun sorted room perm order => ?_⟩
  · refine (canonical_of_isChain ordered apart).eq_of_covers h fun key => ?_
    rw [same', same]
  · rw [sweepAll?_eq room fun run listed => proper run (perm.mem_iff.mp listed),
      swept _ perm order]

theorem isUnion_union (proper : ∀ run ∈ runs, Proper run) : IsUnion runs (union runs) :=
  (canonical_union runs proper).isUnion proper fun _ => covers_union runs

/-- Proper runs over the same keys have the same union. -/
theorem union_congr {others : List KeyRun} (proper : ∀ run ∈ runs, Proper run)
    (proper' : ∀ run ∈ others, Proper run) (same : ∀ key, Covers others key ↔ Covers runs key) :
    union others = union runs := by
  refine (canonical_union others proper').eq_of_covers (canonical_union runs proper) fun key => ?_
  rw [covers_union, covers_union, same]

/-- Some of the runs may be exchanged for others over their keys. -/
theorem union_replace {before part others after : List KeyRun}
    (proper : ∀ run ∈ before ++ (part ++ after), Proper run) (proper' : ∀ run ∈ others, Proper run)
    (same : ∀ key, Covers others key ↔ Covers part key) :
    union (before ++ (others ++ after)) = union (before ++ (part ++ after)) := by
  refine union_congr proper ?_ fun key => ?_
  · simp only [List.forall_mem_append] at proper ⊢
    exact ⟨proper.1, proper', proper.2.2⟩
  · simp only [covers_append, same]

/-- Proper runs are united to the one separated list over their keys, and all proper runs over these
keys are united to that list: the same runs in another order, with repetitions, with one of them cut
in two, with some of them united already, and the union itself. -/
theorem union_normal_form (runs : List KeyRun) (proper : ∀ run ∈ runs, Proper run) :
    IsUnion runs (union runs) ∧
    (∀ others : List KeyRun, (∀ run ∈ others, Proper run) →
      (∀ key, Covers others key ↔ Covers runs key) → IsUnion others (union runs)) ∧
    (∀ others : List KeyRun, others.Perm runs → union others = union runs) ∧
    (∀ more, more ⊆ runs → union (runs ++ more) = union runs) ∧
    (∀ before run after cut, runs = before ++ run :: after → run.first ≤ cut → cut < run.last →
      union (before ++ ⟨run.first, cut⟩ :: ⟨cut + 1, run.last⟩ :: after) = union runs) ∧
    (∀ before part after, runs = before ++ (part ++ after) →
      union (before ++ (union part ++ after)) = union runs) ∧
    union (union runs) = union runs := by
  have normal := canonical_union runs proper
  have united (key : UInt64) : Covers (union runs) key ↔ Covers runs key := covers_union runs
  refine ⟨isUnion_union proper, fun others proper' same => ?_, fun others perm => ?_,
    fun more listed => ?_, fun before run after cut whole low high => ?_,
    fun before part after whole => ?_, ?_⟩
  · exact normal.isUnion proper' fun key => (united key).trans (same key).symm
  · exact union_congr proper (fun run listed => proper run (perm.mem_iff.mp listed))
      (covers_perm perm)
  · refine union_congr proper (fun run member => proper run ?_) fun key => ?_
    · exact (List.mem_append.mp member).elim id fun also => listed also
    · rw [covers_append]
      exact or_iff_left_of_imp fun ⟨run, also, inside⟩ => ⟨run, listed also, inside⟩
  · subst whole
    have own := proper run (List.mem_append_right before List.mem_cons_self)
    exact @union_replace before [run] _ after proper (own.pieces low high)
      fun _ => covers_pieces low high
  · subst whole
    have own (run : KeyRun) (listed : run ∈ part) : Proper run :=
      proper run (List.mem_append_right before (List.mem_append_left after listed))
    exact union_replace proper ((canonical_union part own).proper own fun _ => covers_union part)
      fun _ => covers_union part
  · exact union_congr proper (normal.proper proper united) united

/-- Five runs, two of them with one start and two that touch. Both orders of the equal starts are
swept to the same two runs, and so is what is left when the covered keys are cut another way. -/
theorem union_normal_form_small :
    union [⟨5, 9⟩, ⟨0, 2⟩, ⟨5, 6⟩, ⟨3, 3⟩, ⟨8, 8⟩] = [⟨0, 3⟩, ⟨5, 9⟩] ∧
    sweep [⟨0, 2⟩, ⟨3, 3⟩, ⟨5, 6⟩, ⟨5, 9⟩, ⟨8, 8⟩] =
      union [⟨5, 9⟩, ⟨0, 2⟩, ⟨5, 6⟩, ⟨3, 3⟩, ⟨8, 8⟩] ∧
    sweepAll? #[⟨0, 2⟩, ⟨3, 3⟩, ⟨5, 9⟩, ⟨5, 6⟩, ⟨8, 8⟩] =
      some (union [⟨5, 9⟩, ⟨0, 2⟩, ⟨5, 6⟩, ⟨3, 3⟩, ⟨8, 8⟩]).toArray ∧
    union [⟨5, 6⟩, ⟨7, 9⟩, ⟨0, 2⟩, ⟨5, 6⟩, ⟨3, 3⟩, ⟨8, 8⟩] =
      union [⟨5, 9⟩, ⟨0, 2⟩, ⟨5, 6⟩, ⟨3, 3⟩, ⟨8, 8⟩] := by
  have proper : ∀ run ∈ ([⟨5, 9⟩, ⟨0, 2⟩, ⟨5, 6⟩, ⟨3, 3⟩, ⟨8, 8⟩] : List KeyRun), Proper run := by
    simp only [List.forall_mem_cons]
    exact ⟨⟨by decide, by decide⟩, ⟨by decide, by decide⟩, ⟨by decide, by decide⟩,
      ⟨by decide, by decide⟩, ⟨by decide, by decide⟩, nofun⟩
  obtain ⟨whole, _, _, _, cut, _⟩ := union_normal_form _ proper
  have swept : sweep [⟨0, 2⟩, ⟨3, 3⟩, ⟨5, 6⟩, ⟨5, 9⟩, ⟨8, 8⟩] =
      union [⟨5, 9⟩, ⟨0, 2⟩, ⟨5, 6⟩, ⟨3, 3⟩, ⟨8, 8⟩] :=
    whole.swept _ (by decide) (by unfold StartSorted; decide)
  refine ⟨swept.symm.trans (by decide), swept, ?_, ?_⟩
  · exact whole.swept_in_place _ (by decide) (by decide) (by unfold StartSorted; decide)
  · exact cut [] ⟨5, 9⟩ [⟨0, 2⟩, ⟨5, 6⟩, ⟨3, 3⟩, ⟨8, 8⟩] 6 rfl (by decide) (by decide)

end AttentionMask.KeyRun
