import AttentionMask.Walk

/-! Closed runs `first, …, last` of key positions. A run with `last < first` holds no key; its
length is taken in words all the same and wraps. Membership in sorted runs is found by binary
search: only the last run that starts at or before the key can hold it once the runs are separated,
so that one run is looked at. -/

namespace AttentionMask

structure KeyRun where
  first : UInt64
  last : UInt64
deriving DecidableEq

namespace KeyRun

instance : Membership UInt64 KeyRun :=
  ⟨fun run key => run.first ≤ key ∧ key ≤ run.last⟩

theorem mem_def {run : KeyRun} {key : UInt64} :
    key ∈ run ↔ run.first ≤ key ∧ key ≤ run.last :=
  Iff.rfl

instance (run : KeyRun) (key : UInt64) : Decidable (key ∈ run) :=
  inferInstanceAs (Decidable (_ ∧ _))

def contains (run : KeyRun) (key : UInt64) : Bool :=
  decide (key ∈ run)

def length (run : KeyRun) : UInt64 :=
  run.last - run.first + 1

def keys (run : KeyRun) : List UInt64 :=
  Walk.keys run.first run.last

/-- The keys held by some run of a list. -/
def Covers (runs : List KeyRun) (key : UInt64) : Prop :=
  ∃ run ∈ runs, key ∈ run

instance (runs : List KeyRun) (key : UInt64) : Decidable (Covers runs key) :=
  inferInstanceAs (Decidable (∃ run ∈ runs, key ∈ run))

/-- Sorted runs that neither overlap nor touch. -/
def Separated (runs : List KeyRun) : Prop :=
  runs.Pairwise fun a b => a.last.toNat + 1 < b.first.toNat

@[simp] theorem contains_eq_true {run : KeyRun} {key : UInt64} :
    run.contains key = true ↔ key ∈ run :=
  decide_eq_true_iff

@[simp] theorem mem_keys {run : KeyRun} {key : UInt64} : key ∈ run.keys ↔ key ∈ run :=
  Walk.mem_keys

@[simp] theorem covers_nil {key : UInt64} : ¬Covers [] key := by
  simp [Covers]

@[simp] theorem covers_cons {run : KeyRun} {runs : List KeyRun} {key : UInt64} :
    Covers (run :: runs) key ↔ key ∈ run ∨ Covers runs key := by
  simp [Covers]

@[simp] theorem covers_append {as bs : List KeyRun} {key : UInt64} :
    Covers (as ++ bs) key ↔ Covers as key ∨ Covers bs key := by
  simp only [Covers, List.mem_append, or_and_right, exists_or]

/-- Halve `[low, high)` down to the first position whose run starts after `key`. -/
def firstAfter (runs : Array KeyRun) (key : UInt64) (low high : Nat) (bound : high ≤ runs.size) :
    Nat :=
  if wide : low < high then
    let middle := (low + high) / 2
    if key < runs[middle].first then firstAfter runs key low middle (by omega)
    else firstAfter runs key (middle + 1) high bound
  else low
termination_by high - low

/-- The key lies in the last run that starts at or before it. -/
def found (runs : Array KeyRun) (key : UInt64) : Bool :=
  match firstAfter runs key 0 runs.size (Nat.le_refl _) with
  | 0 => false
  | position + 1 => runs[position]?.any fun run => key ≤ run.last

theorem firstAfter_le (runs : Array KeyRun) (key : UInt64) (low high : Nat)
    (bound : high ≤ runs.size) (order : low ≤ high) :
    firstAfter runs key low high bound ≤ high := by
  fun_induction firstAfter runs key low high bound with
  | case1 low high bound wide middle before ih => exact Nat.le_trans (ih (by omega)) (by omega)
  | case2 low high bound wide middle after ih => exact ih (by omega)
  | case3 low high bound done => exact order

end KeyRun
end AttentionMask
