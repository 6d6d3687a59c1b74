import AttentionMask.Proofs.KeyRun.Union

/-! The halving search finds the last run that starts at or before the key. Where the ends of the
runs are in order too, as in the normal form, no other run can hold the key. -/

namespace AttentionMask.KeyRun

def EndSorted (runs : List KeyRun) : Prop :=
  runs.Pairwise fun a b => a.last ≤ b.last

/-- Runs below `low` start at or before the key, and runs from `high` on start after it. -/
structure Bracketed (runs : Array KeyRun) (key : UInt64) (low high : Nat) : Prop where
  low_le_high : low ≤ high
  before : ∀ k (h : k < runs.size), k < low → runs[k].first ≤ key
  after : ∀ k (h : k < runs.size), high ≤ k → key < runs[k].first

theorem first_le_of_le {runs : Array KeyRun} (sorted : StartSorted runs.toList) {a b : Nat}
    (order : a ≤ b) (inside : b < runs.size) : runs[a].first ≤ runs[b].first := by
  rcases Nat.lt_or_eq_of_le order with less | rfl
  · exact List.pairwise_iff_getElem.mp sorted a b _ inside less
  · exact UInt64.le_refl _

theorem last_le_of_le {runs : Array KeyRun} (sorted : EndSorted runs.toList) {a b : Nat}
    (order : a ≤ b) (inside : b < runs.size) : runs[a].last ≤ runs[b].last := by
  rcases Nat.lt_or_eq_of_le order with less | rfl
  · exact List.pairwise_iff_getElem.mp sorted a b _ inside less
  · exact UInt64.le_refl _

theorem bracketed_firstAfter {runs : Array KeyRun} {key : UInt64} (sorted : StartSorted runs.toList)
    (low high : Nat) (bound : high ≤ runs.size) (h : Bracketed runs key low high) :
    Bracketed runs key (firstAfter runs key low high bound)
      (firstAfter runs key low high bound) := by
  -- Halving keeps the bracket, and the bracket is closed when it ends.
  fun_induction firstAfter runs key low high bound with
  | case1 low high bound wide middle before ih =>
      refine ih ⟨by omega, h.before, fun k inside above => ?_⟩
      exact UInt64.lt_of_lt_of_le before (first_le_of_le sorted above inside)
  | case2 low high bound wide middle after ih =>
      refine ih ⟨by omega, fun k inside below => ?_, h.after⟩
      exact UInt64.le_trans (first_le_of_le sorted (Nat.le_of_lt_succ below) (by omega))
        (UInt64.not_lt.mp after)
  | case3 low high bound done =>
      have closed : low = high := Nat.le_antisymm h.low_le_high (Nat.not_lt.mp done)
      exact ⟨Nat.le_refl low, h.before, fun k inside above => h.after k inside (by omega)⟩

theorem bracketed_search {runs : Array KeyRun} (key : UInt64) (sorted : StartSorted runs.toList) :
    Bracketed runs key (firstAfter runs key 0 runs.size (Nat.le_refl _))
      (firstAfter runs key 0 runs.size (Nat.le_refl _)) :=
  bracketed_firstAfter sorted 0 runs.size (Nat.le_refl _)
    ⟨Nat.zero_le _, fun k _ below => absurd below (Nat.not_lt_zero k),
      fun _ inside above => absurd inside (Nat.not_lt.mpr above)⟩

/-- Run `p` is the last one that starts at or before the key. -/
def LastStart (runs : Array KeyRun) (key : UInt64) (p : Nat) : Prop :=
  (∃ h : p < runs.size, runs[p].first ≤ key) ∧
    ∀ q (h : q < runs.size), p < q → key < runs[q].first

theorem lastStart_unique {runs : Array KeyRun} {key : UInt64} {p q : Nat}
    (hp : LastStart runs key p) (hq : LastStart runs key q) : p = q := by
  obtain ⟨⟨insideP, firstP⟩, afterP⟩ := hp
  obtain ⟨⟨insideQ, firstQ⟩, afterQ⟩ := hq
  rcases Nat.lt_trichotomy p q with less | same | more
  · exact absurd firstQ (UInt64.not_le.mpr (afterP q insideQ less))
  · exact same
  · exact absurd firstP (UInt64.not_le.mpr (afterQ p insideP more))

theorem lastStart_of_bracketed {runs : Array KeyRun} {key : UInt64} {p : Nat}
    (bound : p + 1 ≤ runs.size) (h : Bracketed runs key (p + 1) (p + 1)) :
    LastStart runs key p :=
  ⟨⟨bound, h.before p bound (Nat.lt_succ_self p)⟩, fun q inside later => h.after q inside later⟩

/-- The search answers for the last run that starts at or before the key. -/
theorem found_iff_lastStart {runs : Array KeyRun} {key : UInt64}
    (sorted : StartSorted runs.toList) :
    found runs key = true ↔
      ∃ p, ∃ h : p < runs.size, LastStart runs key p ∧ key ≤ runs[p].last := by
  have split := bracketed_search key sorted
  have bound := firstAfter_le runs key 0 runs.size (Nat.le_refl _) (Nat.zero_le _)
  unfold found
  generalize firstAfter runs key 0 runs.size (Nat.le_refl _) = place at split bound
  cases place with
  | zero =>
      refine ⟨?_, ?_⟩
      · intro h
        cases h
      · intro ⟨p, inside, ⟨⟨_, first⟩, _⟩, _⟩
        exact absurd (split.after p inside (Nat.zero_le p)) (UInt64.not_lt.mpr first)
  | succ place =>
      have last := lastStart_of_bracketed bound split
      simp only [Array.getElem?_eq_getElem (show place < runs.size from bound), Option.any_some,
        decide_eq_true_eq]
      refine ⟨?_, ?_⟩
      · exact fun ends => ⟨place, bound, last, ends⟩
      · intro ⟨p, inside, last', ends⟩
        simpa only [lastStart_unique last' last] using ends

theorem exists_lastStart {runs : Array KeyRun} {key : UInt64} (sorted : StartSorted runs.toList)
    {k : Nat} (inside : k < runs.size) (first : runs[k].first ≤ key) :
    ∃ p, k ≤ p ∧ LastStart runs key p := by
  have split := bracketed_search key sorted
  have bound := firstAfter_le runs key 0 runs.size (Nat.le_refl _) (Nat.zero_le _)
  generalize firstAfter runs key 0 runs.size (Nat.le_refl _) = place at split bound
  have below : k < place := by
    by_contra above
    exact absurd first (UInt64.not_le.mpr (split.after k inside (Nat.not_lt.mp above)))
  obtain ⟨p, rfl⟩ := Nat.exists_eq_add_one_of_ne_zero (Nat.ne_zero_of_lt below)
  exact ⟨p, Nat.le_of_lt_succ below, lastStart_of_bracketed bound split⟩

theorem found_iff_covers {runs : Array KeyRun} {key : UInt64} (sorted : StartSorted runs.toList)
    (ends : EndSorted runs.toList) : found runs key = true ↔ Covers runs.toList key := by
  rw [found_iff_lastStart sorted]
  refine ⟨?_, ?_⟩
  · intro ⟨p, inside, ⟨⟨_, first⟩, _⟩, last⟩
    exact ⟨runs[p], Array.getElem_mem_toList inside, first, last⟩
  · intro ⟨run, listed, first, last⟩
    obtain ⟨k, inside, rfl⟩ := List.getElem_of_mem listed
    rw [Array.length_toList] at inside
    rw [Array.getElem_toList] at first last
    obtain ⟨p, later, found⟩ := exists_lastStart sorted inside first
    obtain ⟨⟨inside', -⟩, -⟩ := id found
    exact ⟨p, inside', found, UInt64.le_trans last (last_le_of_le ends later inside')⟩

namespace Canonical

variable {runs : List KeyRun}

theorem startSorted (h : Canonical runs) : StartSorted runs := by
  refine List.Pairwise.imp_of_mem ?_ h.separated
  intro a b ha _ gap
  have ordered := h.toNat_first_le ha
  rw [UInt64.le_iff_toNat_le]
  omega

theorem endSorted (h : Canonical runs) : EndSorted runs := by
  refine List.Pairwise.imp_of_mem ?_ h.separated
  intro a b _ hb gap
  have ordered := h.toNat_first_le hb
  rw [UInt64.le_iff_toNat_le]
  omega

end Canonical
end AttentionMask.KeyRun
