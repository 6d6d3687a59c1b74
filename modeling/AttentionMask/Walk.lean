/-! Consecutive positions, in the order in which loops over rows and keys visit them. -/

namespace AttentionMask.Walk

/-- The positions `0, …, n - 1`. -/
def below (n : UInt64) : List UInt64 :=
  (List.range n.toNat).map UInt64.ofNat

/-- The positions `first, …, last`; none when `last < first`. -/
def keys (first last : UInt64) : List UInt64 :=
  (List.range (last.toNat + 1 - first.toNat)).map fun k => first + UInt64.ofNat k

/-- The signed positions `first, …, last`; none when `last < first`. -/
def upTo (first last : Int64) : List Int64 :=
  (List.range (last.toInt + 1 - first.toInt).toNat).map fun k => first + Int64.ofNat k

/-- Carry a state through `count` positions from `first` on. -/
@[specialize] def carry {State : Type} (visit : State → Int64 → State) (state : State)
    (first : Int64) : (count : Nat) → State
  | 0 => state
  | count + 1 => carry visit (visit state first) (first + 1) count

/-- Carry a state through the positions `first, …, last`. -/
@[inline] def through {State : Type} (first last : Int64) (visit : State → Int64 → State)
    (state : State) : State :=
  carry visit state first (last.toInt + 1 - first.toInt).toNat

@[simp] theorem length_below (n : UInt64) : (below n).length = n.toNat := by
  simp [below]

@[simp] theorem length_keys (first last : UInt64) :
    (keys first last).length = last.toNat + 1 - first.toNat := by
  simp [keys]

@[simp] theorem length_upTo (first last : Int64) :
    (upTo first last).length = (last.toInt + 1 - first.toInt).toNat := by
  simp [upTo]

theorem carry_eq_foldl {State : Type} (visit : State → Int64 → State) (state : State)
    (first : Int64) (count : Nat) :
    carry visit state first count =
      ((List.range count).map fun k => first + Int64.ofNat k).foldl visit state := by
  induction count generalizing state first with
  | zero => rfl
  | succ count ih =>
    have shift : (fun k => first + 1 + Int64.ofNat k) =
        (fun k => first + Int64.ofNat k) ∘ Nat.succ := by
      funext k
      simp only [Function.comp_apply, Nat.succ_eq_add_one, Int64.ofNat_add, Int64.add_assoc]
      rw [Int64.add_comm (Int64.ofNat k)]
      rfl
    rw [carry, ih, shift, List.range_succ_eq_map, List.map_cons, List.map_map, List.foldl_cons]
    congr 1
    exact congrArg (visit state) (Int64.add_zero first).symm

theorem through_eq_foldl {State : Type} (first last : Int64) (visit : State → Int64 → State)
    (state : State) : through first last visit state = (upTo first last).foldl visit state :=
  carry_eq_foldl visit state first _

theorem mem_below {n i : UInt64} : i ∈ below n ↔ i < n := by
  simp only [below, List.mem_map, List.mem_range, UInt64.lt_iff_toNat_lt]
  constructor
  · rintro ⟨k, hk, rfl⟩
    rwa [UInt64.toNat_ofNat_of_lt' (Nat.lt_trans hk n.toNat_lt)]
  · intro h
    exact ⟨i.toNat, h, UInt64.ofNat_toNat⟩

theorem mem_keys {first last key : UInt64} :
    key ∈ keys first last ↔ first ≤ key ∧ key ≤ last := by
  simp only [keys, List.mem_map, List.mem_range, UInt64.le_iff_toNat_le]
  have top := last.toNat_lt
  constructor
  · rintro ⟨k, hk, rfl⟩
    have sum : (first + UInt64.ofNat k).toNat = first.toNat + k := by
      rw [UInt64.toNat_add, UInt64.toNat_ofNat']
      omega
    omega
  · rintro ⟨low, high⟩
    refine ⟨key.toNat - first.toNat, by omega, UInt64.toNat_inj.mp ?_⟩
    rw [UInt64.toNat_add, UInt64.toNat_ofNat']
    omega

theorem toInt_add_ofNat {first : Int64} {k : Nat} (fits : first.toInt + k < 9223372036854775808) :
    (first + Int64.ofNat k).toInt = first.toInt + k := by
  have bottom := first.le_toInt
  have size : Int64.size = 18446744073709551616 := rfl
  rw [Int64.toInt_add, Int64.toInt_ofNat', Int.add_bmod_bmod, Int.bmod_eq_of_le] <;> omega

theorem mem_upTo {first last j : Int64} : j ∈ upTo first last ↔ first ≤ j ∧ j ≤ last := by
  simp only [upTo, List.mem_map, List.mem_range, Int64.le_iff_toInt_le]
  have top := last.toInt_lt
  constructor
  · rintro ⟨k, hk, rfl⟩
    rw [toInt_add_ofNat (by omega)]
    omega
  · rintro ⟨low, high⟩
    refine ⟨(j.toInt - first.toInt).toNat, by omega, Int64.toInt_inj.mp ?_⟩
    rw [toInt_add_ofNat] <;> omega

end AttentionMask.Walk
