import AttentionMask.Proofs.Words

/-! Computations over unbounded integers that record what they meet: the integers calculated on the
way, loop counters included, and those that are taken as positions. Erasing the record leaves the
plain result. A computation stays in words when signed words hold all that it calculates and no
position is negative. -/

namespace AttentionMask

variable {α β State ι : Type}

structure Recorded (α : Type) where
  result : α
  values : List Int
  positions : List Int

namespace Recorded

instance : Monad Recorded where
  pure a := ⟨a, [], []⟩
  bind x f := ⟨(f x.result).result, x.values ++ (f x.result).values,
    x.positions ++ (f x.result).positions⟩

/-- An integer that the computation calculates. -/
def value (v : Int) : Recorded Int :=
  ⟨v, [v], []⟩

/-- An integer taken as a position. -/
def position (v : Int) : Recorded Nat :=
  ⟨v.toNat, [], [v]⟩

/-- Visit the integers `k, …, last`. The counter is stepped after every visit, also
after the last. -/
def climb (visit : State → Int → Recorded State) (last k : Int) (state : State) : Recorded State :=
  if k ≤ last then do
    let state ← visit state k
    let _ ← value (k + 1)
    climb visit last (k + 1) state
  else pure state
termination_by (last + 1 - k).toNat

@[simp] theorem result_pure (a : α) : (pure a : Recorded α).result = a :=
  rfl

@[simp] theorem result_bind (x : Recorded α) (f : α → Recorded β) :
    (x >>= f).result = (f x.result).result :=
  rfl

@[simp] theorem result_value (v : Int) : (value v).result = v :=
  rfl

@[simp] theorem result_position (v : Int) : (position v).result = v.toNat :=
  rfl

theorem result_foldlM (visit : State → ι → Recorded State) (order : List ι) (state : State) :
    (order.foldlM visit state).result =
      order.foldl (fun state i => (visit state i).result) state := by
  induction order generalizing state with
  | nil => rfl
  | cons i rest ih => exact ih _

/-- A loop whose counter has room for its last step visits what the loop over words visits. -/
theorem result_climb {visit : State → Int → Recorded State} {step : State → Int64 → State}
    {first last : Int64} (room : last.toInt + 1 < 9223372036854775808)
    (same : ∀ state (k : Int64), first.toInt ≤ k.toInt → k.toInt ≤ last.toInt →
      (visit state k.toInt).result = step state k) (state : State) :
    (climb visit last.toInt first.toInt state).result = Walk.through first last step state := by
  rw [Walk.through]
  generalize count : (last.toInt + 1 - first.toInt).toNat = left
  induction left generalizing first state with
  | zero =>
      rw [climb, if_neg (by omega)]
      rfl
  | succ left ih =>
      have low := first.le_toInt
      have next : (first + 1).toInt = first.toInt + 1 :=
        Words.toInt_add ⟨by rw [Int64.toInt_one]; omega, by rw [Int64.toInt_one]; omega⟩
      rw [climb, if_pos (by omega), result_bind, same state first (Int.le_refl _) (by omega),
        ← next]
      exact ih (fun state k above => same state k (by omega)) _ (by omega)

/-- Signed words hold what is calculated, and no position is negative. -/
structure InWords (x : Recorded α) : Prop where
  values : ∀ v ∈ x.values, Words.Holds v
  positions : ∀ v ∈ x.positions, 0 ≤ v

theorem inWords_pure (a : α) : (pure a : Recorded α).InWords :=
  ⟨nofun, nofun⟩

theorem inWords_value {v : Int} (h : Words.Holds v) : (value v).InWords :=
  ⟨fun _ listed => List.mem_singleton.mp listed ▸ h, nofun⟩

theorem inWords_position {v : Int} (h : 0 ≤ v) : (position v).InWords :=
  ⟨nofun, fun _ listed => List.mem_singleton.mp listed ▸ h⟩

theorem InWords.bind {x : Recorded α} {f : α → Recorded β} (h : x.InWords)
    (rest : (f x.result).InWords) : (x >>= f).InWords :=
  ⟨List.forall_mem_append.mpr ⟨h.values, rest.values⟩,
    List.forall_mem_append.mpr ⟨h.positions, rest.positions⟩⟩

theorem inWords_ite {c : Prop} [Decidable c] {x y : Recorded α} (yes : c → x.InWords)
    (no : ¬c → y.InWords) : (if c then x else y).InWords := by
  split
  · exact yes ‹_›
  · exact no ‹_›

theorem inWords_foldlM {visit : State → ι → Recorded State} {order : List ι}
    (each : ∀ state, ∀ i ∈ order, (visit state i).InWords) (state : State) :
    (order.foldlM visit state).InWords := by
  induction order generalizing state with
  | nil => exact inWords_pure state
  | cons i rest ih =>
      rw [List.foldlM_cons]
      exact (each state i List.mem_cons_self).bind
        (ih (fun state j later => each state j (List.mem_cons_of_mem i later)) _)

theorem inWords_climb {visit : State → Int → Recorded State} {first last : Int}
    (low : -9223372036854775808 ≤ first) (room : last + 1 < 9223372036854775808)
    (each : ∀ state k, first ≤ k → k ≤ last → (visit state k).InWords) (state : State) :
    (climb visit last first state).InWords := by
  fun_induction climb visit last first state with
  | case1 first state within ih =>
      have next : (value (first + 1)).InWords := inWords_value ⟨by omega, by omega⟩
      refine (each state first (Int.le_refl _) within).bind (next.bind ?_)
      exact ih _ (by omega) (fun state k above => each state k (by omega))
  | case2 first state past => exact inWords_pure state

end Recorded
end AttentionMask
