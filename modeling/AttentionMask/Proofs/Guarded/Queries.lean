import AttentionMask.Mask.Digest
import AttentionMask.Proofs.Guarded.Conversion
import AttentionMask.Proofs.Mask.RowKeys

/-! The queries of both forms with checked indices. The loop over the keys of a run steps past its
last key, so it ends for every run that stops short of the last word and for no other. -/

namespace AttentionMask

namespace Guarded

theorem toNat_of_sum {a b c : UInt64} (done : sum a b = some c) : c.toNat = a.toNat + b.toNat := by
  unfold sum at done
  split at done
  · rename_i room
    cases done
    exact Words.toNat_add room
  · cases done

end Guarded

namespace KeyRun

/-- Halve `[low, high)` down to the first position whose run starts after `key`. -/
def firstAfter? (runs : Array KeyRun) (key : UInt64) (low high : Nat) : Option Nat :=
  if wide : low < high then do
    let run ← Guarded.read runs ((low + high) / 2)
    if key < run.first then firstAfter? runs key low ((low + high) / 2)
    else firstAfter? runs key ((low + high) / 2 + 1) high
  else some low
termination_by high - low

def found? (runs : Array KeyRun) (key : UInt64) : Option Bool := do
  let place ← firstAfter? runs key 0 runs.size
  match place with
  | 0 => some false
  | position + 1 => do
    let run ← Guarded.read runs position
    some (key ≤ run.last)

/-- The keys from `key` to `last`, each reached by a checked step from the one before. -/
def climb? (key last : UInt64) : Option (List UInt64) :=
  if key ≤ last then
    match _step : Guarded.sum key 1 with
    | none => none
    | some next => (climb? next last).map (key :: ·)
  else some []
termination_by 2 ^ 64 - key.toNat
decreasing_by
  have next := Guarded.toNat_of_sum _step
  have top := key.toNat_lt
  rw [UInt64.toNat_one] at next
  omega

/-- From `key` on, a loop that visits every key up to `last` and steps in words ends, and has
visited the listed keys. -/
inductive Climbs (last : UInt64) : UInt64 → List UInt64 → Prop where
  | done {key : UInt64} (past : last < key) : Climbs last key []
  | step {key : UInt64} {keys : List UInt64} (within : key ≤ last)
      (rest : Climbs last (key + 1) keys) : Climbs last key (key :: keys)

def length? (run : KeyRun) : Option UInt64 := do
  let distance ← Guarded.difference run.last run.first
  Guarded.sum distance 1

theorem firstAfter?_eq (runs : Array KeyRun) (key : UInt64) (low high : Nat)
    (bound : high ≤ runs.size) :
    firstAfter? runs key low high = some (firstAfter runs key low high bound) := by
  fun_induction firstAfter runs key low high bound with
  | case1 low high bound wide middle before ih =>
      have run : Guarded.read runs ((low + high) / 2) = some runs[middle] :=
        Array.getElem?_eq_getElem (by omega)
      rw [firstAfter?, dif_pos wide, run, Option.bind_eq_bind, Option.bind_some, if_pos before]
      exact ih
  | case2 low high bound wide middle after ih =>
      have run : Guarded.read runs ((low + high) / 2) = some runs[middle] :=
        Array.getElem?_eq_getElem (by omega)
      rw [firstAfter?, dif_pos wide, run, Option.bind_eq_bind, Option.bind_some, if_neg after]
      exact ih
  | case3 low high bound done => rw [firstAfter?, dif_neg done]

theorem found?_eq (runs : Array KeyRun) (key : UInt64) :
    found? runs key = some (found runs key) := by
  have bound := firstAfter_le runs key 0 runs.size (Nat.le_refl _) (Nat.zero_le _)
  simp only [found?, found, firstAfter?_eq runs key 0 runs.size (Nat.le_refl _),
    Option.bind_eq_bind, Option.bind_some]
  generalize firstAfter runs key 0 runs.size (Nat.le_refl _) = place at bound
  cases place with
  | zero => rfl
  | succ position =>
      have run := Array.getElem?_eq_getElem (show position < runs.size from bound)
      simp [Guarded.read, run]

theorem keys_of_lt {key last : UInt64} (past : last < key) : Walk.keys key last = [] := by
  rw [UInt64.lt_iff_toNat_lt] at past
  rw [Walk.keys, Nat.sub_eq_zero_of_le past]
  rfl

theorem keys_of_le {key last : UInt64} (within : key ≤ last) (room : key.toNat + 1 < 2 ^ 64) :
    Walk.keys key last = key :: Walk.keys (key + 1) last := by
  rw [UInt64.le_iff_toNat_le] at within
  have next := Words.toNat_add_one room
  have count : last.toNat + 1 - key.toNat = last.toNat + 1 - (key + 1).toNat + 1 := by omega
  have shift : (fun k => key + UInt64.ofNat k) ∘ Nat.succ = fun k => key + 1 + UInt64.ofNat k := by
    funext k
    rw [Function.comp_apply, Nat.succ_eq_add_one, UInt64.ofNat_add, UInt64.add_assoc,
      UInt64.add_comm (UInt64.ofNat k)]
    rfl
  rw [Walk.keys, count, List.range_succ_eq_map, List.map_cons, List.map_map, shift]
  exact congrArg (· :: _) (UInt64.add_zero key)

theorem climb?_eq {last : UInt64} (room : last.toNat + 1 < 2 ^ 64) (key : UInt64) :
    climb? key last = some (Walk.keys key last) := by
  fun_induction climb? key last with
  | case1 key within stuck =>
      rw [UInt64.le_iff_toNat_le] at within
      rw [Guarded.next_eq (by omega)] at stuck
      cases stuck
  | case2 key within next step ih =>
      rw [UInt64.le_iff_toNat_le] at within
      rw [Guarded.next_eq (by omega)] at step
      cases step
      rw [ih, keys_of_le (UInt64.le_iff_toNat_le.mpr within) (by omega), Option.map_some]
  | case3 key past => rw [keys_of_lt (UInt64.not_le.mp past)]

/-- What the guarded loop gives, the loop visits. -/
theorem climbs_of_climb? {key last : UInt64} {keys : List UInt64}
    (done : climb? key last = some keys) : Climbs last key keys := by
  fun_induction climb? key last generalizing keys with
  | case1 key within stuck => cases done
  | case2 key within next step ih =>
      obtain ⟨rest, own, rfl⟩ := Option.map_eq_some_iff.mp done
      have same : next = key + 1 := by
        refine UInt64.toNat_inj.mp ?_
        have value := Guarded.toNat_of_sum step
        have top := next.toNat_lt
        rw [UInt64.toNat_one] at value
        rw [value, Words.toNat_add_one (by omega)]
      exact .step within (same ▸ ih own)
  | case3 key past =>
      cases done
      exact .done (UInt64.not_le.mp past)

theorem length?_eq {run : KeyRun} (h : Proper run) : run.length? = some run.length := by
  have order := UInt64.le_iff_toNat_le.mp h.first_le_last
  have top := h.last_lt
  have distance := UInt64.toNat_sub_of_le _ _ h.first_le_last
  have size := Guarded.next_eq (a := run.last - run.first) (by omega)
  rw [length?, Guarded.difference_eq order, Option.bind_eq_bind, Option.bind_some, size]
  rfl

end KeyRun

namespace ByteRow

/-- The positions of set bytes, read one after another. -/
def keys? (row : Array UInt8) : Option (List UInt64) := do
  let size ← Guarded.count row
  (Walk.below size).foldlM (fun keys j => do
    let byte ← Guarded.read row j.toNat
    some (if byte != 0 then keys ++ [j] else keys)) []

theorem eq_map_range (row : Array UInt8) :
    row = ((List.range row.size).map fun k => row.getD k 0).toArray :=
  Array.ext (by simp) fun k inside _ => by simp [inside]

theorem foldl_filter (set : UInt64 → Bool) (order keys : List UInt64) :
    order.foldl (fun keys j => if set j then keys ++ [j] else keys) keys =
      keys ++ order.filter set := by
  induction order generalizing keys with
  | nil => simp
  | cons j rest ih =>
      rw [List.foldl_cons, ih, List.filter_cons]
      split <;> simp

theorem keys?_eq {row : Array UInt8} (small : row.size < 2 ^ 64) : keys? row = some (keys row) := by
  have size := Words.toNat_ofNat small
  have visited : (Walk.below (UInt64.ofNat row.size)).foldlM (fun keys j => do
      let byte ← Guarded.read row j.toNat
      some (if byte != 0 then keys ++ [j] else keys)) [] =
        some ((Walk.below (UInt64.ofNat row.size)).foldl
          (fun keys j => if row.getD j.toNat 0 != 0 then keys ++ [j] else keys) []) := by
    refine Guarded.foldlM_eq_some_of_forall (fun keys j listed => ?_) []
    have inside := UInt64.lt_iff_toNat_lt.mp (Walk.mem_below.mp listed)
    rw [Guarded.read_eq (size ▸ inside) 0, Option.bind_eq_bind, Option.bind_some]
  have own : keys row =
      ((List.range row.size).filter fun k => row.getD k 0 != 0).map UInt64.ofNat := by
    conv_lhs => rw [eq_map_range row]
    exact keys_map_range row.size fun k => row.getD k 0
  rw [keys?, Guarded.count_eq small, Option.bind_eq_bind, Option.bind_some, visited,
    foldl_filter fun j => row.getD j.toNat 0 != 0, own, Walk.below, size, List.filter_map]
  refine congrArg some (congrArg (List.map UInt64.ofNat) (List.filter_congr fun k listed => ?_))
  rw [List.mem_range] at listed
  rw [Function.comp_apply, Words.toNat_ofNat (by omega)]

end ByteRow

namespace Crc64

/-- Take in the bytes of a row, read one after another. -/
def update? (register : UInt64) (bytes : Array UInt8) : Option UInt64 :=
  (List.range bytes.size).foldlM (fun register k => do
    let byte ← Guarded.read bytes k
    some (step register byte)) register

theorem update?_eq (register : UInt64) (bytes : Array UInt8) :
    update? register bytes = some (update register bytes) := by
  have visited : update? register bytes = some ((List.range bytes.size).foldl
      (fun register k => step register (bytes.getD k 0)) register) := by
    refine Guarded.foldlM_eq_some_of_forall (fun register k listed => ?_) register
    rw [Guarded.read_eq (List.mem_range.mp listed) 0, Option.bind_eq_bind, Option.bind_some]
  rw [visited, update, ← Array.foldl_toList]
  conv_rhs => rw [ByteRow.eq_map_range bytes]
  rw [List.foldl_map]

end Crc64

namespace RunTable

def allows? (t : RunTable) (i j : UInt64) : Option Bool := do
  let n ← t.length?
  if n ≤ i ∨ n ≤ j then some false
  else
    let row ← t.row? i
    KeyRun.found? row j

/-- The keys of the runs of row `i`; none outside the sequence. -/
def rowKeys? (t : RunTable) (i : UInt64) : Option (List UInt64) := do
  let n ← t.length?
  if n ≤ i then some []
  else
    let row ← t.row? i
    row.toList.foldlM (fun keys run => do
      let own ← KeyRun.climb? run.first run.last
      some (keys ++ own)) []

/-- The lengths of all runs are exact; only their sum is taken in words. -/
def pairCount? (t : RunTable) : Option UInt64 :=
  t.runs.toList.foldlM (fun total run => do
    let size ← run.length?
    some (total + size)) 0

def digestRow? (t : RunTable) (state : Array UInt8 × UInt64) (i : UInt64) :
    Option (Array UInt8 × UInt64) := do
  let row ← t.row? i
  let bytes ← ByteRow.fillAll? 0 (state.1.map fun _ => 0) row
  let register ← Crc64.update? state.2 bytes
  some (bytes, register)

def digest? (t : RunTable) : Option UInt64 := do
  let n ← t.length?
  let final ← (Walk.below n).foldlM t.digestRow? (Array.replicate n.toNat 0, 0)
  some final.2

namespace Normal

variable {t : RunTable} (h : t.Normal) (room : t.length.toNat + 1 < 2 ^ 64)
include h

theorem exists_row {run : KeyRun} (listed : run ∈ t.runs.toList) :
    ∃ i < t.length, run ∈ (t.row i).toList := by
  have flat : t.runs = t.rows.flatten.toArray := by rw [← runs_ofRows, h.laid.ofRows_rows]
  rw [flat, List.mem_flatten] at listed
  obtain ⟨row, own, member⟩ := listed
  obtain ⟨i, below, rfl⟩ := List.mem_map.mp own
  exact ⟨i, Walk.mem_below.mp below, member⟩

theorem proper {i : UInt64} (row : i < t.length) {run : KeyRun} (listed : run ∈ (t.row i).toList) :
    KeyRun.Proper run := by
  have top := t.length.toNat_lt
  have last := UInt64.lt_iff_toNat_lt.mp (h.inside i row run listed)
  exact ⟨(h.canonical i row).first_le_last run listed, by omega⟩

theorem pairCount?_eq : t.pairCount? = some t.pairCount := by
  rw [pairCount, ← Array.foldl_toList]
  refine Guarded.foldlM_eq_some_of_forall (fun total run listed => ?_) 0
  obtain ⟨i, row, own⟩ := h.exists_row listed
  rw [KeyRun.length?_eq (h.proper row own), Option.bind_eq_bind, Option.bind_some]

include room

theorem allows?_eq (i j : UInt64) : t.allows? i j = some (t.allows i j) := by
  unfold allows? allows
  rw [h.laid.length?_eq room, Option.bind_eq_bind, Option.bind_some]
  split
  · rfl
  · rename_i inside
    have row := UInt64.not_le.mp (not_or.mp inside).1
    rw [h.laid.row?_eq row, Option.bind_eq_bind, Option.bind_some, KeyRun.found?_eq]

theorem rowKeys?_eq (i : UInt64) : t.rowKeys? i = some ((Mask.runs t).rowKeys i) := by
  unfold rowKeys? Mask.rowKeys
  rw [h.laid.length?_eq room, Option.bind_eq_bind, Option.bind_some]
  change _ = some (if t.length ≤ i then [] else (t.row i).toList.flatMap KeyRun.keys)
  split
  · rfl
  · rename_i inside
    have row := UInt64.not_le.mp inside
    rw [h.laid.row?_eq row, Option.bind_eq_bind, Option.bind_some, List.flatMap_eq_foldl]
    refine Guarded.foldlM_eq_some_of_forall (fun keys run listed => ?_) []
    rw [KeyRun.climb?_eq (h.proper row listed).last_lt, Option.bind_eq_bind, Option.bind_some]
    rfl

theorem digest?_eq : t.digest? = some t.digest := by
  have rows (state : Array UInt8 × UInt64) (size : state.1.size = t.length.toNat) (i : UInt64)
      (listed : i ∈ Walk.below t.length) : t.digestRow? state i = some (t.digestRow state i) := by
    have row := Walk.mem_below.mp listed
    have blank : (state.1.map fun _ => (0 : UInt8)).size = t.length.toNat := by
      rw [Array.size_map, size]
    have filled : ByteRow.fillAll? 0 (state.1.map fun _ => 0) (t.row i) =
        some (t.spread i state.1) := by
      refine ByteRow.fillAll?_eq (by omega) fun run own => ?_
      have order := (h.canonical i row).toNat_first_le own
      have last := UInt64.lt_iff_toNat_lt.mp (h.inside i row run own)
      rw [UInt64.toNat_zero]
      omega
    simp only [digestRow?, h.laid.row?_eq row, filled, Crc64.update?_eq, Option.bind_eq_bind,
      Option.bind_some]
    rfl
  have final := Guarded.foldlM_eq_some
    (fun state : Array UInt8 × UInt64 => state.1.size = t.length.toNat) rows
    (fun state size i _ => by
      rw [digestRow, spread, ByteRow.size_fillAll, Array.size_map, size])
    (Array.replicate t.length.toNat 0, 0) Array.size_replicate
  rw [digest?, h.laid.length?_eq room, Option.bind_eq_bind, Option.bind_some, final,
    Option.bind_eq_bind, Option.bind_some]
  rfl

end Normal
end RunTable
end AttentionMask
