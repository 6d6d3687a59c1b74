import AttentionMask.Proofs.Storage
import AttentionMask.Proofs.Writes

/-! Programs that check what they index with. Words are added, subtracted and multiplied only where
no result wraps, and elements are reached only inside their array; anything else has no result. A
guarded form is marked by a question mark. Where it gives what the plain operation gives, that
operation wraps no index and stays inside its arrays. -/

namespace AttentionMask

namespace Guarded

variable {α State ι : Type}

def require (condition : Prop) [Decidable condition] : Option Unit :=
  if condition then some () else none

def sum (a b : UInt64) : Option UInt64 :=
  if a.toNat + b.toNat < 2 ^ 64 then some (a + b) else none

def difference (a b : UInt64) : Option UInt64 :=
  if b ≤ a then some (a - b) else none

def product (a b : UInt64) : Option UInt64 :=
  if a.toNat * b.toNat < 2 ^ 64 then some (a * b) else none

/-- A signed position as an index. -/
def index (a : Int64) : Option UInt64 :=
  if 0 ≤ a then some a.toUInt64 else none

/-- A sum that the signed word holds. -/
def plus (a b : Int64) : Option Int64 :=
  if (a + b).toInt = a.toInt + b.toInt then some (a + b) else none

def minus (a b : Int64) : Option Int64 :=
  if (a - b).toInt = a.toInt - b.toInt then some (a - b) else none

/-- The number of elements, where a word holds it. -/
def count (xs : Array α) : Option UInt64 :=
  if xs.size < 2 ^ 64 then some (UInt64.ofNat xs.size) else none

def read (xs : Array α) (place : Nat) : Option α :=
  xs[place]?

def write (xs : Array α) (place : Nat) (value : α) : Option (Array α) :=
  if inside : place < xs.size then some (xs.set place value inside) else none

/-- The `size` elements from `first` on are elements of the array. -/
def span (xs : Array α) (first size : UInt64) : Option Unit := do
  let stop ← sum first size
  require (stop.toNat ≤ xs.size)

def slice (xs : Array α) (first size : UInt64) : Option (Array α) := do
  span xs first size
  some (xs.extract first.toNat (first + size).toNat)

theorem require_eq {condition : Prop} [Decidable condition] (h : condition) :
    require condition = some () :=
  if_pos h

theorem sum_eq {a b : UInt64} (h : a.toNat + b.toNat < 2 ^ 64) : sum a b = some (a + b) :=
  if_pos h

theorem difference_eq {a b : UInt64} (h : b.toNat ≤ a.toNat) : difference a b = some (a - b) :=
  if_pos (UInt64.le_iff_toNat_le.mpr h)

theorem next_eq {a : UInt64} (h : a.toNat + 1 < 2 ^ 64) : sum a 1 = some (a + 1) :=
  sum_eq h

theorem previous_eq {a : UInt64} (h : 0 < a.toNat) : difference a 1 = some (a - 1) :=
  difference_eq h

theorem product_eq {a b : UInt64} (h : a.toNat * b.toNat < 2 ^ 64) : product a b = some (a * b) :=
  if_pos h

theorem index_eq {a : Int64} (h : 0 ≤ a.toInt) : index a = some a.toUInt64 := by
  rw [← Int64.toInt_zero, ← Int64.le_iff_toInt_le] at h
  exact if_pos h

theorem index_max (a : Int64) : index (max 0 a) = some (max 0 a).toUInt64 := by
  refine index_eq ?_
  rw [Words.toInt_max]
  exact Int.le_max_left _ _

theorem plus_eq {a b : Int64} (h : Words.Holds (a.toInt + b.toInt)) : plus a b = some (a + b) :=
  if_pos (Words.toInt_add h)

theorem minus_eq {a b : Int64} (h : Words.Holds (a.toInt - b.toInt)) : minus a b = some (a - b) :=
  if_pos (Words.toInt_sub h)

theorem count_eq {xs : Array α} (h : xs.size < 2 ^ 64) : count xs = some (UInt64.ofNat xs.size) :=
  if_pos h

theorem read_eq {xs : Array α} {place : Nat} (inside : place < xs.size) (default : α) :
    read xs place = some (xs.getD place default) := by
  rw [read, Array.getD_eq_getD_getElem?, Array.getElem?_eq_getElem inside, Option.getD_some]

theorem write_eq {xs : Array α} {place : Nat} (inside : place < xs.size) (value : α) :
    write xs place value = some (xs.setIfInBounds place value) := by
  rw [write, dif_pos inside, Array.setIfInBounds, dif_pos inside]

/-- The element after a part of the array. -/
theorem read_append (before : List α) (value : α) (after : List α) {place : Nat}
    (here : place = before.length) :
    read (before ++ value :: after).toArray place = some value := by
  simp [read, here]

theorem write_append (before : List α) (old : α) (after : List α) {place : Nat}
    (here : place = before.length) (value : α) :
    write (before ++ old :: after).toArray place value =
      some (before ++ value :: after).toArray := by
  rw [write_eq (by simp [here])]
  simp [here]

theorem span_eq {xs : Array α} {first size : UInt64} (room : first.toNat + size.toNat < 2 ^ 64)
    (inside : first.toNat + size.toNat ≤ xs.size) : span xs first size = some () := by
  have stop := Words.toNat_add room
  simp only [span, sum_eq room, Option.bind_eq_bind, Option.bind_some]
  exact require_eq (stop ▸ inside)

theorem slice_eq {xs : Array α} {first size : UInt64} (room : first.toNat + size.toNat < 2 ^ 64)
    (inside : first.toNat + size.toNat ≤ xs.size) :
    slice xs first size = some (xs.extract first.toNat (first.toNat + size.toNat)) := by
  simp only [slice, span_eq room inside, Option.bind_eq_bind, Option.bind_some,
    Words.toNat_add room]

/-- A loop all of whose steps have the result of the plain step has the result of the plain loop.
The invariant is what the steps need to know of the state. -/
theorem foldlM_eq_some {step? : State → ι → Option State} {step : State → ι → State}
    (Inv : State → Prop) {order : List ι}
    (each : ∀ state, Inv state → ∀ i ∈ order, step? state i = some (step state i))
    (keep : ∀ state, Inv state → ∀ i ∈ order, Inv (step state i)) (state : State)
    (start : Inv state) : order.foldlM step? state = some (order.foldl step state) := by
  induction order generalizing state with
  | nil => rfl
  | cons i rest ih =>
      have own := each state start i List.mem_cons_self
      rw [List.foldlM_cons, own, List.foldl_cons]
      exact ih (fun state inv j later => each state inv j (List.mem_cons_of_mem i later))
        (fun state inv j later => keep state inv j (List.mem_cons_of_mem i later)) _
        (keep state start i List.mem_cons_self)

theorem foldlM_eq_some_of_forall {step? : State → ι → Option State} {step : State → ι → State}
    {order : List ι} (each : ∀ state, ∀ i ∈ order, step? state i = some (step state i))
    (state : State) : order.foldlM step? state = some (order.foldl step state) :=
  foldlM_eq_some (fun _ => True) (fun state _ => each state) (fun _ _ _ _ => trivial) state trivial

/-- Writes carried out one after another. -/
def writes (image : Array α) (entries : List (Nat × α)) : Option (Array α) :=
  entries.foldlM (fun image entry => write image entry.1 entry.2) image

theorem writes_eq {image : Array α} {entries : List (Nat × α)}
    (inside : ∀ entry ∈ entries, entry.1 < image.size) :
    writes image entries = some (Writes.apply image entries) := by
  refine foldlM_eq_some (fun current => current.size = image.size) ?_ ?_ image rfl
  · intro current size entry listed
    exact write_eq (size ▸ inside entry listed) entry.2
  · intro current size entry _
    rw [Array.size_setIfInBounds, size]

end Guarded

namespace Storage

/-- The distance between row starts, each step of the rounding guarded. -/
def stride? (n : UInt64) : Option UInt64 := do
  let above ← Guarded.sum n lineBytes
  let reach ← Guarded.difference above 1
  some (reach &&& ~~~(lineBytes - 1))

theorem stride?_eq {n : UInt64} (room : n.toNat + 64 < 2 ^ 64) : stride? n = some (stride n) := by
  have above : n.toNat + lineBytes.toNat < 2 ^ 64 := room
  have reach : (1 : UInt64).toNat ≤ (n + lineBytes).toNat := by
    rw [Words.toNat_add above]
    exact Nat.le_add_left 1 _
  simp only [stride?, Guarded.sum_eq above, Guarded.difference_eq reach, Option.bind_eq_bind,
    Option.bind_some]
  rfl

/-- The first byte of row `i` in an image of `n` rows. -/
def rowStart? (n i : UInt64) : Option UInt64 := do
  let apart ← stride? n
  Guarded.product i apart

section

variable {n i : UInt64} (short : n.toNat < 2 ^ 32) (row : i < n)
include short row

theorem toNat_rowStart : (i * stride n).toNat = i.toNat * (stride n).toNat := by
  have bound := length_mul_stride_lt short
  have inside := stretch_le short (UInt64.lt_iff_toNat_lt.mp row)
  exact Words.toNat_mul (by omega)

theorem rowStart?_eq : rowStart? n i = some (i * stride n) := by
  have bound := length_mul_stride_lt short
  have inside := stretch_le short (UInt64.lt_iff_toNat_lt.mp row)
  rw [rowStart?, stride?_eq (by omega), Option.bind_eq_bind, Option.bind_some]
  exact Guarded.product_eq (by omega)

end

end Storage
end AttentionMask
