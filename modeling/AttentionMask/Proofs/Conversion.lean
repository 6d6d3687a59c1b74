import AttentionMask.RunTable
import AttentionMask.Proofs.ByteRow
import AttentionMask.Proofs.Grid.Relation
import AttentionMask.Proofs.RunTable.Relation

/-! Both conversions keep the relation. Since one relation has one table and one matrix of each
length, going to the other form and back gives the same bytes and the same runs; only the values of
set bytes are lost, which all become one. -/

namespace AttentionMask

open KeyRun

variable {R : Nat → Nat → Prop}

namespace RunTable

def rowPlaces (t : RunTable) (i : UInt64) : List Nat :=
  ((t.row i).toList.flatMap KeyRun.keys).map fun key => (i * Storage.stride t.length + key).toNat

theorem mem_rowPlaces {t : RunTable} {i : UInt64} {slot : Nat} :
    slot ∈ t.rowPlaces i ↔
      ∃ key, Covers (t.row i).toList key ∧ (i * Storage.stride t.length + key).toNat = slot := by
  simp only [rowPlaces, List.mem_map, ByteRow.mem_flatMap_keys]

theorem toGrid_eq {t : RunTable} {total : UInt64} (done : Storage.imageBytes t.length = .ok total) :
    t.toGrid = .ok ⟨t.length, Writes.apply (Array.replicate total.toNat 0)
      (Writes.ones ((Walk.below t.length).flatMap t.rowPlaces))⟩ := by
  have fills : (fun image i =>
      ByteRow.fillAll (i * Storage.stride t.length) image (t.row i)) =
        fun image i => Writes.apply image (Writes.ones (t.rowPlaces i)) := by
    funext image i
    exact ByteRow.fillAll_eq _ image (t.row i)
  rw [toGrid, done]
  simp only [fills, Writes.foldl_apply, Writes.ones, List.map_flatMap]

theorem short_of_toGrid {t : RunTable} {g : Grid} (room : t.length.toNat + 64 ≤ 2 ^ 64)
    (done : t.toGrid = .ok g) : t.length.toNat < 2 ^ 32 := by
  unfold toGrid at done
  split at done
  · cases done
  · rename_i total fit
    exact Storage.short_of_imageBytes room fit

theorem Represents.exists_toGrid {t : RunTable} (h : t.Represents R)
    (short : t.length.toNat < 2 ^ 32) :
    ∃ g, t.toGrid = .ok g ∧ g.length = t.length ∧ g.Represents R := by
  obtain ⟨total, done, size⟩ := Storage.imageBytes_of_short short
  have wide := Storage.le_stride (n := t.length) (by omega)
  refine ⟨_, toGrid_eq done, rfl, Grid.represents_ones short size fun slot => ?_⟩
  simp only [List.mem_flatMap, Walk.mem_below, mem_rowPlaces]
  refine ⟨?_, ?_⟩
  · intro ⟨i, inside, key, held, place⟩
    obtain ⟨key_lt, related⟩ := (h.covers i inside key).mp held
    rw [UInt64.lt_iff_toNat_lt] at inside key_lt
    rw [Storage.toNat_cell short inside (by omega)] at place
    exact ⟨i.toNat, inside, key.toNat, key_lt, related, place.symm⟩
  · intro ⟨i, row, j, key, related, place⟩
    have row' := Words.toNat_ofNat (k := i) (by omega)
    have key' := Words.toNat_ofNat (k := j) (by omega)
    have inside : UInt64.ofNat i < t.length := Words.ofNat_lt row
    refine ⟨UInt64.ofNat i, inside, UInt64.ofNat j, (h.covers _ inside _).mpr ?_, ?_⟩
    · rw [row', key']
      exact ⟨Words.ofNat_lt key, related⟩
    · rw [Storage.toNat_cell short (by omega) (by omega), row', key', place]

end RunTable

namespace Grid

variable {g : Grid}

def Marked (g : Grid) (i j : Nat) : Prop :=
  ∃ byte, g.bytes[g.place i j]? = some byte ∧ byte ≠ 0

def runRows (g : Grid) : List (List KeyRun) :=
  (Walk.below g.length).map fun i => ByteRow.runs (g.row i)

theorem length_runRows (g : Grid) : g.runRows.length = g.length.toNat := by
  rw [runRows, List.length_map, Walk.length_below]

theorem mem_runRows {runs : List KeyRun} :
    runs ∈ g.runRows ↔ ∃ i < g.length, ByteRow.runs (g.row i) = runs := by
  simp only [runRows, List.mem_map, Walk.mem_below]

theorem exists_row (g : Grid) {k : Nat} (inside : k < g.runRows.length) :
    ∃ i < g.length, i.toNat = k ∧ g.runRows[k] = ByteRow.runs (g.row i) := by
  rw [length_runRows] at inside
  have top := g.length.toNat_lt
  have place := Words.toNat_ofNat (k := k) (by omega)
  refine ⟨UInt64.ofNat k, UInt64.lt_iff_toNat_lt.mpr (by omega), place, ?_⟩
  simp only [runRows, Walk.below, List.getElem_map, List.getElem_range]

theorem toRunTable_eq (g : Grid) : g.toRunTable = RunTable.ofRows g.runRows :=
  List.foldl_map.symm

theorem length_toRunTable (g : Grid) : g.toRunTable.length = g.length := by
  rw [toRunTable_eq, RunTable.length_ofRows, length_runRows, UInt64.ofNat_toNat]

theorem Framed.covers_row (h : g.Framed) {i key : UInt64} (row : i < g.length) :
    Covers (ByteRow.runs (g.row i)) key ↔ key < g.length ∧ g.Marked i.toNat key.toNat := by
  have inside := UInt64.lt_iff_toNat_lt.mp row
  have size := h.size_row inside
  rw [ByteRow.covers_runs (size ▸ g.length.toNat_lt), Marked]
  by_cases live : key.toNat < g.length.toNat
  · rw [h.getElem?_row inside live]
    simp [UInt64.lt_iff_toNat_lt, live]
  · rw [Array.getElem?_eq_none (by omega)]
    simp [UInt64.lt_iff_toNat_lt, live]

theorem Framed.canonical_row (h : g.Framed) {i : UInt64} (row : i < g.length) :
    Canonical (ByteRow.runs (g.row i)) := by
  refine ByteRow.canonical_runs ?_
  rw [h.size_row (UInt64.lt_iff_toNat_lt.mp row)]
  exact g.length.toNat_lt

/-- Compaction of any image keeps the pairs whose bytes are set. -/
theorem Framed.represents_toRunTable (h : g.Framed) : g.toRunTable.Represents g.Marked := by
  have short := h.short
  have count := g.length_runRows
  have room : g.runRows.flatten.length < 2 ^ 64 := by
    refine RunTable.length_flatten_lt (by omega) (fun row listed => ?_)
      fun row listed key held => ?_
    · obtain ⟨i, inside, rfl⟩ := mem_runRows.mp listed
      exact h.canonical_row inside
    · obtain ⟨i, inside, rfl⟩ := mem_runRows.mp listed
      rw [count, ← UInt64.lt_iff_toNat_lt]
      exact ((h.covers_row inside).mp held).1
  rw [toRunTable_eq]
  refine RunTable.represents_ofRows (by omega) room (fun k inside => ?_) fun k inside j => ?_
  · obtain ⟨i, row, _, own⟩ := g.exists_row inside
    rw [own]
    exact h.canonical_row row
  · obtain ⟨i, row, place, own⟩ := g.exists_row inside
    rw [own, h.covers_row row, place, count, UInt64.lt_iff_toNat_lt]

theorem Represents.marked_iff (h : g.Represents R) {i j : Nat} (row : i < g.length.toNat)
    (key : j < g.length.toNat) : g.Marked i j ↔ R i j := by
  by_cases related : R i j
  · simp [Marked, h.one i row j key related, related]
  · simp [Marked, h.zero i row j key related, related]

theorem Represents.represents_toRunTable (h : g.Represents R) : g.toRunTable.Represents R := by
  refine h.framed.represents_toRunTable.congr fun i row j key => ?_
  rw [length_toRunTable] at row key
  exact h.marked_iff row key

def flag (byte : UInt8) : UInt8 :=
  if byte = 0 then 0 else 1

def flags (g : Grid) : Grid :=
  ⟨g.length, g.bytes.map flag⟩

theorem place_flags (i j : Nat) : g.flags.place i j = g.place i j :=
  rfl

theorem getElem?_flags {slot : Nat} : g.flags.bytes[slot]? = g.bytes[slot]?.map flag :=
  Array.getElem?_map

theorem Framed.represents_flags (h : g.Framed) : g.flags.Represents g.Marked := by
  have wide := h.length_le_stride
  refine ⟨⟨h.short, Array.size_map.trans h.size_bytes, fun i row j key past => ?_⟩,
    fun i row j key set => ?_, fun i row j key unset => ?_⟩
  · rw [getElem?_flags, place_flags, h.padding i row j key past]
    rfl
  · obtain ⟨byte, value, nonzero⟩ := set
    rw [getElem?_flags, place_flags, value, Option.map_some, flag, if_neg nonzero]
  · have inside : g.place i j < g.bytes.size := by
      rw [h.size_bytes]
      exact place_lt row (Nat.lt_of_lt_of_le key wide)
    have value := Array.getElem?_eq_getElem inside
    have clear : g.bytes[g.place i j] = 0 := by
      by_contra nonzero
      exact unset ⟨_, value, nonzero⟩
    rw [getElem?_flags, place_flags, value, clear]
    rfl

theorem flags_eq_self (flat : ∀ byte ∈ g.bytes, byte = 0 ∨ byte = 1) : g.flags = g := by
  have same : g.bytes.map flag = g.bytes := by
    refine (Array.map_congr_left fun byte listed => ?_).trans (Array.map_id _)
    rcases flat byte listed with rfl | rfl <;> rfl
  exact congrArg (Grid.mk g.length) same

end Grid

/-- Going to runs and back makes set bytes one and changes nothing else; going to bytes and back
changes nothing in a table of normal rows. -/
theorem conversion_round_trips :
    (∀ g : Grid, g.Framed → g.toRunTable.toGrid = .ok g.flags ∧
      ((∀ byte ∈ g.bytes, byte = 0 ∨ byte = 1) → g.toRunTable.toGrid = .ok g)) ∧
    ∀ t : RunTable, t.Normal → t.length.toNat < 2 ^ 32 →
      ∃ g, t.toGrid = .ok g ∧ g.toRunTable = t := by
  refine ⟨fun g framed => ?_, fun t normal short => ?_⟩
  · have short : g.toRunTable.length.toNat < 2 ^ 32 := by
      rw [g.length_toRunTable]
      exact framed.short
    obtain ⟨g', done, length, back⟩ := framed.represents_toRunTable.exists_toGrid short
    have same : g' = g.flags :=
      back.unique framed.represents_flags (length.trans g.length_toRunTable)
    rw [done, same]
    exact ⟨rfl, fun flat => congrArg Except.ok (Grid.flags_eq_self flat)⟩
  · obtain ⟨g, done, length, image⟩ := normal.represents.exists_toGrid short
    have back := image.represents_toRunTable
    exact ⟨g, done, back.unique normal.represents (g.length_toRunTable.trans length)⟩

/-- Images of one byte, seven or one, an image with a gap in its first row, an empty row and a full
one, and a table with rows of two runs, of none and of one. -/
theorem conversion_round_trips_small :
    (⟨1, #[7] ++ Array.replicate 63 0⟩ : Grid).toRunTable.toGrid =
      .ok ⟨1, #[1] ++ Array.replicate 63 0⟩ ∧
    (⟨1, #[1] ++ Array.replicate 63 0⟩ : Grid).toRunTable.toGrid =
      .ok ⟨1, #[1] ++ Array.replicate 63 0⟩ ∧
    (⟨3, #[7, 0, 2] ++ Array.replicate 125 0 ++ #[1, 1, 1] ++
        Array.replicate 61 0⟩ : Grid).toRunTable.toGrid =
      .ok ⟨3, #[1, 0, 1] ++ Array.replicate 125 0 ++ #[1, 1, 1] ++ Array.replicate 61 0⟩ ∧
    ∃ g, (⟨#[0, 2, 2, 3], #[⟨0, 0⟩, ⟨2, 2⟩, ⟨1, 2⟩]⟩ : RunTable).toGrid = .ok g ∧
      g.toRunTable = ⟨#[0, 2, 2, 3], #[⟨0, 0⟩, ⟨2, 2⟩, ⟨1, 2⟩]⟩ := by
  refine ⟨?_, ?_, ?_, conversion_round_trips.2 _ (by decide +kernel) (by decide +kernel)⟩
  · have flags : (⟨1, #[7] ++ Array.replicate 63 0⟩ : Grid).flags =
        ⟨1, #[1] ++ Array.replicate 63 0⟩ := by simp [Grid.flags, Grid.flag]
    rw [← flags]
    exact (conversion_round_trips.1 _ (by decide +kernel)).1
  · exact (conversion_round_trips.1 _ (by decide +kernel)).2 (by decide +kernel)
  · have framed : (⟨3, #[7, 0, 2] ++ Array.replicate 125 0 ++ #[1, 1, 1] ++
        Array.replicate 61 0⟩ : Grid).Framed := by
      have wide : (Storage.stride 3).toNat = 64 := by decide
      refine ⟨by decide, by simp [Grid.stride, wide], fun i row j key past => ?_⟩
      change i < 3 at row
      change 3 ≤ j at past
      -- Evaluating all 192 bytes takes seconds.
      simp only [Grid.place, Grid.stride, wide] at key ⊢
      simp only [Array.getElem?_append, Array.getElem?_replicate, Array.size_append,
        Array.size_replicate, List.size_toArray, List.length_cons, List.length_nil]
      grind
    have flags : (⟨3, #[7, 0, 2] ++ Array.replicate 125 0 ++ #[1, 1, 1] ++
          Array.replicate 61 0⟩ : Grid).flags =
        ⟨3, #[1, 0, 1] ++ Array.replicate 125 0 ++ #[1, 1, 1] ++ Array.replicate 61 0⟩ := by
      simp [Grid.flags, Grid.flag]
    rw [← flags]
    exact (conversion_round_trips.1 _ framed).1

end AttentionMask
