import AttentionMask.KeyRun.Union
import AttentionMask.Proofs.KeyRun.Canonical
import AttentionMask.Proofs.Words

/-! The sweep holds the same keys as the runs it is given, whatever these are, as long as they come
in order of their first keys. From nonempty runs that stop short of the last word it makes the
normal form. -/

namespace AttentionMask.KeyRun

def StartSorted (runs : List KeyRun) : Prop :=
  runs.Pairwise fun a b => a.first ≤ b.first

/-- A run that holds a key and has a word after its last one. -/
structure Proper (run : KeyRun) : Prop where
  first_le_last : run.first ≤ run.last
  last_lt : run.last.toNat + 1 < 2 ^ 64

theorem touches_iff {current next : KeyRun} :
    current.touches next = true ↔ next.first.toNat ≤ (current.last.toNat + 1) % 2 ^ 64 := by
  rw [touches, decide_eq_true_iff, UInt64.le_iff_toNat_le, UInt64.toNat_add]
  rfl

@[simp] theorem extend_first (current next : KeyRun) :
    (current.extend next).first = current.first :=
  rfl

@[simp] theorem toNat_extend_last (current next : KeyRun) :
    (current.extend next).last.toNat = max current.last.toNat next.last.toNat :=
  Words.toNat_max current.last next.last

/-- A run that joins the open one brings exactly its own keys, also where the word after the open
run wraps to zero and where one of the two runs is empty. -/
theorem mem_extend {current next : KeyRun} {key : UInt64} (order : current.first ≤ next.first)
    (join : current.touches next = true) :
    key ∈ current.extend next ↔ key ∈ current ∨ key ∈ next := by
  rw [touches_iff] at join
  rw [UInt64.le_iff_toNat_le] at order
  simp only [mem_iff_toNat, extend_first, toNat_extend_last]
  have top := current.last.toNat_lt
  have top' := next.last.toNat_lt
  have top'' := key.toNat_lt
  omega

theorem startSorted_extend {current next : KeyRun} {rest : List KeyRun}
    (sorted : StartSorted (current :: next :: rest)) :
    StartSorted (current.extend next :: rest) := by
  obtain ⟨head, tail⟩ := List.pairwise_cons.mp sorted
  exact List.pairwise_cons.mpr
    ⟨fun run listed => head run (List.mem_cons_of_mem next listed), (List.pairwise_cons.mp tail).2⟩

theorem covers_coalesce {key : UInt64} (current : KeyRun) (rest : List KeyRun)
    (sorted : StartSorted (current :: rest)) :
    Covers (coalesce current rest) key ↔ Covers (current :: rest) key := by
  induction rest generalizing current with
  | nil => rfl
  | cons next rest ih =>
      have order := (List.pairwise_cons.mp sorted).1 next List.mem_cons_self
      unfold coalesce
      split
      · rename_i join
        rw [ih _ (startSorted_extend sorted)]
        simp only [covers_cons, mem_extend order join, or_assoc]
      · have tail := ih next (List.pairwise_cons.mp sorted).2
        simp only [covers_cons] at tail ⊢
        rw [tail]

theorem covers_sweep {key : UInt64} (runs : List KeyRun) (sorted : StartSorted runs) :
    Covers (sweep runs) key ↔ Covers runs key := by
  cases runs with
  | nil => rfl
  | cons run rest => exact covers_coalesce run rest sorted

theorem Proper.extend {current next : KeyRun} (h : Proper current) (h' : Proper next) :
    Proper (current.extend next) := by
  obtain ⟨order, room⟩ := h
  obtain ⟨order', room'⟩ := h'
  rw [UInt64.le_iff_toNat_le] at order order'
  refine ⟨?_, ?_⟩
  · rw [UInt64.le_iff_toNat_le, extend_first, toNat_extend_last]
    omega
  · rw [toNat_extend_last]
    omega

theorem first_le_of_mem_coalesce (current : KeyRun) (rest : List KeyRun)
    (sorted : StartSorted (current :: rest)) {run : KeyRun} (listed : run ∈ coalesce current rest) :
    current.first ≤ run.first := by
  induction rest generalizing current with
  | nil =>
      rw [coalesce, List.mem_singleton] at listed
      rw [listed]
      exact UInt64.le_refl _
  | cons next rest ih =>
      have order := (List.pairwise_cons.mp sorted).1 next List.mem_cons_self
      unfold coalesce at listed
      split at listed
      · exact ih (current.extend next) (startSorted_extend sorted) listed
      · rcases List.mem_cons.mp listed with rfl | later
        · exact UInt64.le_refl _
        · exact UInt64.le_trans order (ih next (List.pairwise_cons.mp sorted).2 later)

theorem first_le_last_extend {current : KeyRun} (next : KeyRun)
    (own : current.first ≤ current.last) :
    (current.extend next).first ≤ (current.extend next).last := by
  rw [UInt64.le_iff_toNat_le] at own ⊢
  rw [extend_first, toNat_extend_last]
  omega

/-- It is enough that a word follows each run that has another one after it. -/
theorem canonical_coalesce (current : KeyRun) (rest : List KeyRun)
    (sorted : StartSorted (current :: rest))
    (ordered : ∀ run ∈ current :: rest, run.first ≤ run.last)
    (room : (current :: rest).Pairwise fun run _ => run.last.toNat + 1 < 2 ^ 64) :
    Canonical (coalesce current rest) := by
  induction rest generalizing current with
  | nil => exact canonical_cons.mpr ⟨ordered current List.mem_cons_self, by simp, canonical_nil⟩
  | cons next rest ih =>
      obtain ⟨own, others⟩ := List.forall_mem_cons.mp ordered
      obtain ⟨head, after⟩ := List.pairwise_cons.mp room
      have short := head next List.mem_cons_self
      have tail := (List.pairwise_cons.mp sorted).2
      unfold coalesce
      split
      · obtain ⟨head', after'⟩ := List.pairwise_cons.mp after
        refine ih _ (startSorted_extend sorted) (List.forall_mem_cons.mpr
          ⟨first_le_last_extend next own, (List.forall_mem_cons.mp others).2⟩) ?_
        refine List.pairwise_cons.mpr ⟨fun run listed => ?_, after'⟩
        have short' := head' run listed
        rw [toNat_extend_last]
        omega
      · rename_i apart
        -- All later runs start at or after `next`, which starts beyond the word after the open run.
        refine canonical_cons.mpr ⟨own, fun run listed => ?_, ih next tail others after⟩
        have start := UInt64.le_iff_toNat_le.mp (first_le_of_mem_coalesce next rest tail listed)
        rw [touches_iff, Nat.mod_eq_of_lt short] at apart
        omega

theorem canonical_sweep (runs : List KeyRun) (sorted : StartSorted runs)
    (proper : ∀ run ∈ runs, Proper run) : Canonical (sweep runs) := by
  cases runs with
  | nil => exact canonical_nil
  | cons run rest =>
      exact canonical_coalesce run rest sorted (fun run listed => (proper run listed).first_le_last)
        (List.pairwise_of_forall_mem_list fun run listed _ _ => (proper run listed).last_lt)

theorem startSorted_mergeSort (runs : List KeyRun) :
    StartSorted (runs.mergeSort startsBefore) := by
  have trans (a b c : KeyRun) (ab : startsBefore a b) (bc : startsBefore b c) :
      startsBefore a c :=
    decide_eq_true (UInt64.le_trans (of_decide_eq_true ab) (of_decide_eq_true bc))
  have total (a b : KeyRun) : startsBefore a b || startsBefore b a := by
    simp only [startsBefore, Bool.or_eq_true, decide_eq_true_eq]
    exact UInt64.le_total a.first b.first
  exact (List.pairwise_mergeSort trans total runs).imp fun before => of_decide_eq_true before

theorem covers_union {key : UInt64} (runs : List KeyRun) :
    Covers (union runs) key ↔ Covers runs key := by
  rw [union, covers_sweep _ (startSorted_mergeSort runs)]
  simp only [Covers, List.mem_mergeSort]

theorem canonical_union (runs : List KeyRun) (proper : ∀ run ∈ runs, Proper run) :
    Canonical (union runs) :=
  canonical_sweep _ (startSorted_mergeSort runs)
    fun run listed => proper run (List.mem_mergeSort.mp listed)

end AttentionMask.KeyRun
