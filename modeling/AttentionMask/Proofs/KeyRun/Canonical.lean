import AttentionMask.KeyRun
import Mathlib.Data.List.Nodup
import Mathlib.Data.Set.Card

/-! The normal form of a list of runs: every run holds a key, the runs are in order, and between any
two of them lies a key that none holds. The runs of such a list are exactly the maximal runs of the
keys it covers, so the list is determined by those keys. -/

namespace AttentionMask.KeyRun

/-- Nonempty runs in order that neither overlap nor touch. -/
structure Canonical (runs : List KeyRun) : Prop where
  first_le_last : ∀ run ∈ runs, run.first ≤ run.last
  separated : Separated runs

instance (runs : List KeyRun) : Decidable (Separated runs) :=
  inferInstanceAs (Decidable (List.Pairwise _ runs))

instance (runs : List KeyRun) : Decidable (Canonical runs) :=
  decidable_of_iff ((∀ run ∈ runs, run.first ≤ run.last) ∧ Separated runs)
    ⟨fun ⟨ordered, apart⟩ => ⟨ordered, apart⟩, fun h => ⟨h.first_le_last, h.separated⟩⟩

/-- A run of member keys whose neighbours on both sides are no members. -/
structure Maximal (Member : UInt64 → Prop) (run : KeyRun) : Prop where
  first_le_last : run.first ≤ run.last
  member : ∀ key ∈ run, Member key
  before : ∀ key : UInt64, key.toNat + 1 = run.first.toNat → ¬Member key
  after : ∀ key : UInt64, run.last.toNat + 1 = key.toNat → ¬Member key

theorem mem_iff_toNat {run : KeyRun} {key : UInt64} :
    key ∈ run ↔ run.first.toNat ≤ key.toNat ∧ key.toNat ≤ run.last.toNat := by
  rw [mem_def, UInt64.le_iff_toNat_le, UInt64.le_iff_toNat_le]

theorem ext_toNat {a b : KeyRun} (first : a.first.toNat = b.first.toNat)
    (last : a.last.toNat = b.last.toNat) : a = b := by
  obtain ⟨afirst, alast⟩ := a
  obtain ⟨bfirst, blast⟩ := b
  rw [UInt64.toNat_inj] at first last
  exact congrArg₂ mk first last

theorem canonical_nil : Canonical [] :=
  ⟨by simp, List.Pairwise.nil⟩

theorem canonical_cons {run : KeyRun} {runs : List KeyRun} :
    Canonical (run :: runs) ↔ run.first ≤ run.last ∧
      (∀ next ∈ runs, run.last.toNat + 1 < next.first.toNat) ∧ Canonical runs := by
  refine ⟨?_, ?_⟩
  · intro ⟨ordered, apart⟩
    obtain ⟨gap, rest⟩ := List.pairwise_cons.mp apart
    exact ⟨ordered run List.mem_cons_self, gap,
      ⟨fun next listed => ordered next (List.mem_cons_of_mem run listed), rest⟩⟩
  · intro ⟨ordered, gap, rest⟩
    refine ⟨fun next listed => ?_, List.pairwise_cons.mpr ⟨gap, rest.separated⟩⟩
    rcases List.mem_cons.mp listed with rfl | listed
    · exact ordered
    · exact rest.first_le_last next listed

namespace Canonical

variable {runs : List KeyRun}

theorem trichotomy (h : Canonical runs) {a b : KeyRun} (ha : a ∈ runs) (hb : b ∈ runs) :
    a = b ∨ a.last.toNat + 1 < b.first.toNat ∨ b.last.toNat + 1 < a.first.toNat := by
  induction runs with
  | nil => cases ha
  | cons run rest ih =>
      obtain ⟨-, gap, tail⟩ := canonical_cons.mp h
      rcases List.mem_cons.mp ha with rfl | later <;> rcases List.mem_cons.mp hb with rfl | later'
      · exact .inl rfl
      · exact .inr (.inl (gap b later'))
      · exact .inr (.inr (gap a later))
      · exact ih tail later later'

theorem toNat_first_le (h : Canonical runs) {run : KeyRun} (listed : run ∈ runs) :
    run.first.toNat ≤ run.last.toNat :=
  UInt64.le_iff_toNat_le.mp (h.first_le_last run listed)

theorem covers_first (h : Canonical runs) {run : KeyRun} (listed : run ∈ runs) :
    Covers runs run.first :=
  ⟨run, listed, mem_iff_toNat.mpr ⟨Nat.le_refl _, h.toNat_first_le listed⟩⟩

theorem covers_last (h : Canonical runs) {run : KeyRun} (listed : run ∈ runs) :
    Covers runs run.last :=
  ⟨run, listed, mem_iff_toNat.mpr ⟨h.toNat_first_le listed, Nat.le_refl _⟩⟩

theorem nodup (h : Canonical runs) : runs.Nodup := by
  refine List.Pairwise.imp_of_mem ?_ h.separated
  intro a b ha _ gap same
  have ordered := h.toNat_first_le ha
  rw [← same] at gap
  omega

/-- The runs of the list are the maximal runs of the keys it covers. -/
theorem mem_iff_maximal (h : Canonical runs) {run : KeyRun} :
    run ∈ runs ↔ Maximal (Covers runs) run := by
  have outside : ∀ own ∈ runs, ∀ key : UInt64,
      key.toNat + 1 = own.first.toNat ∨ own.last.toNat + 1 = key.toNat → ¬Covers runs key := by
    intro own listed key beside ⟨other, listed', inside⟩
    rw [mem_iff_toNat] at inside
    have ordered := h.toNat_first_le listed
    rcases h.trichotomy listed listed' with same | gap | gap
    · rw [← same] at inside
      omega
    · omega
    · omega
  refine ⟨?_, ?_⟩
  · intro listed
    exact ⟨h.first_le_last run listed, fun key inside => ⟨run, listed, inside⟩,
      fun key beside => outside run listed key (.inl beside),
      fun key beside => outside run listed key (.inr beside)⟩
  · intro maximal
    have ordered := UInt64.le_iff_toNat_le.mp maximal.first_le_last
    obtain ⟨own, listed, inside⟩ :=
      maximal.member run.first (mem_iff_toNat.mpr ⟨Nat.le_refl _, ordered⟩)
    rw [mem_iff_toNat] at inside
    have top := run.last.toNat_lt
    have top' := own.last.toNat_lt
    -- A key beside one run and inside the other would be covered and not covered.
    have first : own.first.toNat = run.first.toNat := by
      by_contra differ
      have key : (UInt64.ofNat (run.first.toNat - 1)).toNat = run.first.toNat - 1 :=
        UInt64.toNat_ofNat_of_lt' (by change _ < 2 ^ 64; omega)
      refine maximal.before (UInt64.ofNat (run.first.toNat - 1)) (by omega)
        ⟨own, listed, mem_iff_toNat.mpr ?_⟩
      omega
    have last : own.last.toNat = run.last.toNat := by
      rcases Nat.lt_trichotomy own.last.toNat run.last.toNat with short | same | long
      · have key : (UInt64.ofNat (own.last.toNat + 1)).toNat = own.last.toNat + 1 :=
          UInt64.toNat_ofNat_of_lt' (by change _ < 2 ^ 64; omega)
        refine absurd (maximal.member (UInt64.ofNat (own.last.toNat + 1)) ?_)
          (outside own listed _ (.inr key.symm))
        rw [mem_iff_toNat]
        omega
      · exact same
      · have key : (UInt64.ofNat (run.last.toNat + 1)).toNat = run.last.toNat + 1 :=
          UInt64.toNat_ofNat_of_lt' (by change _ < 2 ^ 64; omega)
        refine absurd ⟨own, listed, ?_⟩ (maximal.after _ key.symm)
        rw [mem_iff_toNat]
        omega
    rwa [ext_toNat first.symm last.symm]

theorem eq_of_covers {as bs : List KeyRun} (ha : Canonical as) (hb : Canonical bs)
    (same : ∀ key, Covers as key ↔ Covers bs key) : as = bs := by
  have covered : Covers as = Covers bs := funext fun key => propext (same key)
  have members : ∀ run, run ∈ as ↔ run ∈ bs := by
    intro run
    rw [ha.mem_iff_maximal, hb.mem_iff_maximal, covered]
  have perm := (List.perm_ext_iff_of_nodup ha.nodup hb.nodup).mpr members
  refine perm.eq_of_pairwise ?_ ha.separated hb.separated
  intro a b listed listed' gap gap'
  have ordered := ha.toNat_first_le listed
  have ordered' := hb.toNat_first_le listed'
  omega

theorem length_eq_ncard (h : Canonical runs) :
    runs.length = {run | Maximal (Covers runs) run}.ncard := by
  have members : {run | Maximal (Covers runs) run} = (runs.toFinset : Set KeyRun) := by
    ext run
    simp [← h.mem_iff_maximal]
  rw [members, Set.ncard_coe_finset, List.toFinset_card_of_nodup h.nodup]

end Canonical
end AttentionMask.KeyRun
