import AttentionMask.ByteRow
import AttentionMask.Proofs.KeyRun.Canonical
import AttentionMask.Proofs.Words
import AttentionMask.Proofs.Writes

/-! Runs and bytes of one row. Filling runs sets the bytes of the keys they hold. Scanning a row
gives runs in normal form that hold the keys whose bytes are set; a run still open at the end of the
row is closed there. -/

namespace AttentionMask.ByteRow

open KeyRun

theorem fill_eq (base : UInt64) (image : Array UInt8) (run : KeyRun) :
    fill base image run =
      Writes.apply image (Writes.ones (run.keys.map fun key => (base + key).toNat)) := by
  rw [fill, Writes.apply, Writes.ones, List.map_map, List.foldl_map]
  rfl

theorem fillAll_eq (base : UInt64) (image : Array UInt8) (runs : Array KeyRun) :
    fillAll base image runs = Writes.apply image (Writes.ones
      ((runs.toList.flatMap KeyRun.keys).map fun key => (base + key).toNat)) := by
  have each : fill base = fun image run =>
      Writes.apply image (Writes.ones (run.keys.map fun key => (base + key).toNat)) := by
    funext image run
    exact fill_eq base image run
  rw [fillAll, ← Array.foldl_toList, each, Writes.foldl_apply]
  simp only [Writes.ones, List.map_flatMap, List.map_map]

theorem mem_flatMap_keys {runs : List KeyRun} {key : UInt64} :
    key ∈ runs.flatMap KeyRun.keys ↔ Covers runs key := by
  simp only [List.mem_flatMap, KeyRun.mem_keys, Covers]

/-- The byte of key `k` is set, in bytes that begin with the one of `key`. -/
def SetFrom (key : UInt64) (bytes : List UInt8) (k : UInt64) : Prop :=
  key.toNat ≤ k.toNat ∧ ∃ byte, bytes[k.toNat - key.toNat]? = some byte ∧ byte ≠ 0

/-- Key `k` belongs to the part of the open run before `key`. -/
def Pending (opened : Option UInt64) (key k : UInt64) : Prop :=
  ∃ first, opened = some first ∧ first.toNat ≤ k.toNat ∧ k.toNat < key.toNat

theorem setFrom_nil {key k : UInt64} : ¬SetFrom key [] k := by
  simp [SetFrom]

theorem setFrom_cons {key k : UInt64} {byte : UInt8} {rest : List UInt8}
    (room : key.toNat + 1 < 2 ^ 64) :
    SetFrom key (byte :: rest) k ↔ k.toNat = key.toNat ∧ byte ≠ 0 ∨ SetFrom (key + 1) rest k := by
  have next := Words.toNat_add_one room
  rcases Nat.lt_trichotomy k.toNat key.toNat with before | same | after
  · have short : ¬key.toNat ≤ k.toNat := by omega
    have short' : ¬key.toNat + 1 ≤ k.toNat := by omega
    simp only [SetFrom, next, short, short', false_and, or_false, before.ne]
  · simp [SetFrom, next, same]
  · have shift : k.toNat - key.toNat = k.toNat - (key.toNat + 1) + 1 := by omega
    simp only [SetFrom, next, shift, List.getElem?_cons_succ, after.ne', after.le,
      Nat.succ_le_of_lt after, false_and, false_or]

theorem pending_none {key k : UInt64} : ¬Pending none key k := by
  simp [Pending]

theorem pending_some {first key k : UInt64} :
    Pending (some first) key k ↔ first.toNat ≤ k.toNat ∧ k.toNat < key.toNat := by
  simp [Pending]

theorem mem_closed {first key k : UInt64} (order : first.toNat < key.toNat) :
    k ∈ (⟨first, key - 1⟩ : KeyRun) ↔ Pending (some first) key k := by
  have last := Words.toNat_sub_one (Nat.zero_lt_of_lt order)
  rw [pending_some, mem_iff_toNat]
  simp only [last]
  omega

theorem canonical_closed {first key : UInt64} (order : first.toNat < key.toNat)
    {runs : List KeyRun} (h : Canonical runs)
    (after : ∀ run ∈ runs, key.toNat < run.first.toNat) : Canonical (⟨first, key - 1⟩ :: runs) := by
  have last := Words.toNat_sub_one (Nat.zero_lt_of_lt order)
  refine canonical_cons.mpr ⟨?_, fun run listed => ?_, h⟩
  · rw [UInt64.le_iff_toNat_le, last]
    exact Nat.le_sub_one_of_lt order
  · have later := after run listed
    simp only [last]
    omega

theorem covers_scan {k : UInt64} (bytes : List UInt8) (key : UInt64) (opened : Option UInt64)
    (room : key.toNat + bytes.length < 2 ^ 64) (order : ∀ first ∈ opened, first.toNat < key.toNat) :
    Covers (scan key opened bytes) k ↔ Pending opened key k ∨ SetFrom key bytes k := by
  -- A step moves the head byte to what is pending, or closes the open run before it.
  fun_induction scan key opened bytes with
  | case1 key => simp [pending_none, setFrom_nil]
  | case2 key first => simp [mem_closed (order first rfl), setFrom_nil]
  | case3 key rest ih =>
      rw [List.length_cons] at room
      have next := Words.toNat_add_one (a := key) (by omega)
      rw [ih (by omega) (by simp), setFrom_cons (by omega)]
      simp [pending_none]
  | case4 key byte rest set ih =>
      rw [List.length_cons] at room
      have next := Words.toNat_add_one (a := key) (by omega)
      rw [ih (by omega) (by simp; omega), setFrom_cons (by omega), pending_some, next]
      simp only [pending_none, set, ne_eq, not_false_eq_true, and_true, false_or]
      refine or_congr_left ?_
      omega
  | case5 key rest first ih =>
      rw [List.length_cons] at room
      have next := Words.toNat_add_one (a := key) (by omega)
      rw [covers_cons, mem_closed (order first rfl), ih (by omega) (by simp),
        setFrom_cons (by omega)]
      simp [pending_none]
  | case6 key byte rest first set ih =>
      rw [List.length_cons] at room
      have next := Words.toNat_add_one (a := key) (by omega)
      have before := order first rfl
      rw [ih (by omega) (by simp; omega), setFrom_cons (by omega), pending_some, pending_some, next]
      simp only [set, ne_eq, not_false_eq_true, and_true, ← or_assoc]
      refine or_congr_left ?_
      omega

theorem canonical_scan (bytes : List UInt8) (key : UInt64) (opened : Option UInt64)
    (room : key.toNat + bytes.length < 2 ^ 64)
    (order : ∀ first ∈ opened, first.toNat < key.toNat) : Canonical (scan key opened bytes) := by
  fun_induction scan key opened bytes with
  | case1 key => exact canonical_nil
  | case2 key first => exact canonical_closed (order first rfl) canonical_nil (by simp)
  | case3 key rest ih =>
      rw [List.length_cons] at room
      have next := Words.toNat_add_one (a := key) (by omega)
      exact ih (by omega) (by simp)
  | case4 key byte rest set ih =>
      rw [List.length_cons] at room
      have next := Words.toNat_add_one (a := key) (by omega)
      exact ih (by omega) (by simp; omega)
  | case5 key rest first ih =>
      rw [List.length_cons] at room
      have next := Words.toNat_add_one (a := key) (by omega)
      have tail := ih (by omega) (by simp)
      refine canonical_closed (order first rfl) tail fun run listed => ?_
      -- A run found after a blank byte starts at a set byte after it.
      have start := (covers_scan rest (key + 1) none (by omega) (by simp)).mp
        (tail.covers_first listed)
      have after := (start.resolve_left pending_none).1
      omega
  | case6 key byte rest first set ih =>
      rw [List.length_cons] at room
      have next := Words.toNat_add_one (a := key) (by omega)
      have before := order first rfl
      exact ih (by omega) (by simp; omega)

theorem canonical_runs {row : Array UInt8} (room : row.size < 2 ^ 64) : Canonical (runs row) :=
  canonical_scan row.toList 0 none (by simpa using room) (by simp)

theorem covers_runs {row : Array UInt8} (room : row.size < 2 ^ 64) {key : UInt64} :
    Covers (runs row) key ↔ ∃ byte, row[key.toNat]? = some byte ∧ byte ≠ 0 := by
  rw [runs, covers_scan row.toList 0 none (by simpa using room) (by simp)]
  simp [pending_none, SetFrom]

end AttentionMask.ByteRow
