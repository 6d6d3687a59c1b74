import AttentionMask.KeyRun

/-! The union of a list of runs: sort by first key, then sweep from left to right with the run that
is still open. A run joins the open one when it overlaps or touches it. The touching test adds one
to a word, so an open run that reaches the last word joins nothing after the first word. -/

namespace AttentionMask.KeyRun

def startsBefore (a b : KeyRun) : Bool :=
  decide (a.first ≤ b.first)

def touches (current next : KeyRun) : Bool :=
  decide (next.first ≤ current.last + 1)

/-- The open run, extended to the end of a run that joins it. -/
def extend (current next : KeyRun) : KeyRun :=
  ⟨current.first, max current.last next.last⟩

/-- The sweep with `current` open. -/
def coalesce (current : KeyRun) : List KeyRun → List KeyRun
  | [] => [current]
  | next :: rest =>
    if current.touches next then coalesce (current.extend next) rest
    else current :: coalesce next rest

/-- The sweep over runs in order of their first keys. -/
def sweep : List KeyRun → List KeyRun
  | [] => []
  | run :: rest => coalesce run rest

def union (runs : List KeyRun) : List KeyRun :=
  sweep (runs.mergeSort startsBefore)

@[simp] theorem union_nil : union [] = [] := by
  simp [union, sweep]

@[simp] theorem union_singleton (run : KeyRun) : union [run] = [run] := by
  simp [union, sweep, coalesce]

theorem coalesce_ne_nil (current : KeyRun) (runs : List KeyRun) : coalesce current runs ≠ [] := by
  induction runs generalizing current with
  | nil => simp [coalesce]
  | cons next rest ih => unfold coalesce; split <;> simp [ih]

theorem length_coalesce_le (current : KeyRun) (runs : List KeyRun) :
    (coalesce current runs).length ≤ runs.length + 1 := by
  induction runs generalizing current with
  | nil => simp [coalesce]
  | cons next rest ih =>
    unfold coalesce
    split
    · exact Nat.le_succ_of_le (ih _)
    · exact Nat.succ_le_succ (ih _)

theorem length_sweep_le (runs : List KeyRun) : (sweep runs).length ≤ runs.length := by
  cases runs with
  | nil => exact Nat.le_refl 0
  | cons run rest => exact length_coalesce_le run rest

theorem length_union_le (runs : List KeyRun) : (union runs).length ≤ runs.length := by
  simpa [union] using length_sweep_le (runs.mergeSort startsBefore)

end AttentionMask.KeyRun
