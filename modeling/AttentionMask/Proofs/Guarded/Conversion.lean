import AttentionMask.Proofs.Conversion
import AttentionMask.Proofs.Guarded

/-! Both conversions with checked indices. Slices of rows lie in the flat list and in the image, a
run is filled up to the position after its last key, and a scan reads the bytes of its row only and
steps back only from a key after the first of the open run. -/

namespace AttentionMask

namespace Storage

def imageBytes? (n : UInt64) : Option (Except Size.Overflow UInt64) := do
  let apart ← stride? n
  some (Size.product apart n)

theorem imageBytes?_eq {n : UInt64} (room : n.toNat + 64 < 2 ^ 64) :
    imageBytes? n = some (imageBytes n) := by
  rw [imageBytes?, stride?_eq room]
  rfl

end Storage

namespace ByteRow

/-- Set the bytes from the first key of a run up to the position after its last. -/
def fill? (base : UInt64) (image : Array UInt8) (run : KeyRun) : Option (Array UInt8) := do
  let first ← Guarded.sum base run.first
  let after ← Guarded.sum run.last 1
  let stop ← Guarded.sum base after
  let size ← Guarded.difference stop first
  Guarded.writes image (Writes.ones (List.range' first.toNat size.toNat))

def fillAll? (base : UInt64) (image : Array UInt8) (runs : Array KeyRun) : Option (Array UInt8) :=
  runs.toList.foldlM (fill? base) image

/-- Scan the last `left` bytes of a row, from key `key` on. -/
def scan? (row : Array UInt8) (key : UInt64) (opened : Option UInt64) : (left : Nat) →
    Option (List KeyRun)
  | 0 => match opened with
    | none => some []
    | some first => do
      let last ← Guarded.difference key 1
      some [⟨first, last⟩]
  | left + 1 => do
    let byte ← Guarded.read row key.toNat
    let next ← Guarded.sum key 1
    match opened with
    | none =>
      if byte = 0 then scan? row next none left else scan? row next (some key) left
    | some first =>
      if byte = 0 then do
        let last ← Guarded.difference key 1
        let rest ← scan? row next none left
        some (⟨first, last⟩ :: rest)
      else scan? row next (some first) left

def runs? (row : Array UInt8) : Option (List KeyRun) :=
  scan? row 0 none row.size

theorem map_keys {base : UInt64} {run : KeyRun} (order : run.first.toNat ≤ run.last.toNat)
    (room : base.toNat + run.last.toNat + 1 < 2 ^ 64) :
    run.keys.map (fun key => (base + key).toNat) =
      List.range' (base.toNat + run.first.toNat) (run.last.toNat + 1 - run.first.toNat) := by
  rw [KeyRun.keys, Walk.keys, List.map_map, List.range'_eq_map_range]
  refine List.map_congr_left fun k listed => ?_
  rw [List.mem_range] at listed
  have step := Words.toNat_ofNat (k := k) (by omega)
  have key := Words.toNat_add (a := run.first) (b := UInt64.ofNat k) (by omega)
  have place := Words.toNat_add (a := base) (b := run.first + UInt64.ofNat k) (by omega)
  rw [Function.comp_apply, place, key, step, Nat.add_assoc]

theorem fill?_eq {base : UInt64} {image : Array UInt8} {run : KeyRun} (small : image.size < 2 ^ 64)
    (order : run.first.toNat ≤ run.last.toNat)
    (inside : base.toNat + run.last.toNat < image.size) :
    fill? base image run = some (fill base image run) := by
  have first := Words.toNat_add (a := base) (b := run.first) (by omega)
  have after := Words.toNat_add_one (a := run.last) (by omega)
  have stop := Words.toNat_add (a := base) (b := run.last + 1) (by omega)
  have size : (base + (run.last + 1) - (base + run.first)).toNat =
      run.last.toNat + 1 - run.first.toNat := by
    rw [UInt64.toNat_sub_of_le _ _ (UInt64.le_iff_toNat_le.mpr (by omega))]
    omega
  have start := Guarded.sum_eq (a := base) (b := run.first) (by omega)
  have past := Guarded.next_eq (a := run.last) (by omega)
  have top := Guarded.sum_eq (a := base) (b := run.last + 1) (by omega)
  have span := Guarded.difference_eq (a := base + (run.last + 1)) (b := base + run.first) (by omega)
  simp only [fill?, start, past, top, span, Option.bind_eq_bind, Option.bind_some, size, first]
  rw [fill_eq, map_keys order (by omega)]
  refine Guarded.writes_eq fun entry listed => ?_
  obtain ⟨place, _⟩ := Writes.mem_ones.mp (show (entry.1, entry.2) ∈ _ from listed)
  rw [List.mem_range'_1] at place
  omega

theorem fillAll?_eq {base : UInt64} {image : Array UInt8} {runs : Array KeyRun}
    (small : image.size < 2 ^ 64) (each : ∀ run ∈ runs.toList, run.first.toNat ≤ run.last.toNat ∧
      base.toNat + run.last.toNat < image.size) :
    fillAll? base image runs = some (fillAll base image runs) := by
  rw [fillAll, ← Array.foldl_toList]
  refine Guarded.foldlM_eq_some (fun current => current.size = image.size) ?_ ?_ image rfl
  · intro current size run listed
    obtain ⟨order, inside⟩ := each run listed
    exact fill?_eq (size ▸ small) order (size ▸ inside)
  · exact fun current size run _ => (size_fill base current run).trans size

theorem scan?_eq {row : Array UInt8} (small : row.size < 2 ^ 64) {key : UInt64}
    {opened : Option UInt64} {left : Nat} (place : key.toNat + left = row.size)
    (order : ∀ first ∈ opened, first.toNat < key.toNat) :
    scan? row key opened left = some (scan key opened (row.toList.drop key.toNat)) := by
  -- A run is closed one key back, which is exact because it was opened before.
  have back (first : UInt64) (pending : first ∈ opened) :
      Guarded.difference key 1 = some (key - 1) :=
    Guarded.previous_eq (Nat.zero_lt_of_lt (order first pending))
  induction left generalizing key opened with
  | zero =>
      rw [List.drop_eq_nil_of_le (by rw [Array.length_toList]; omega)]
      cases opened with
      | none => rfl
      | some first => simp [scan?, scan, back first rfl]
  | succ left ih =>
      have inside : key.toNat < row.size := by omega
      have next := Words.toNat_add_one (a := key) (by omega)
      have step := Guarded.next_eq (a := key) (by omega)
      have byte : Guarded.read row key.toNat = some row[key.toNat] :=
        Array.getElem?_eq_getElem inside
      have rest (opened : Option UInt64) (order : ∀ first ∈ opened, first.toNat < key.toNat + 1) :
          scan? row (key + 1) opened left =
            some (scan (key + 1) opened (row.toList.drop (key.toNat + 1))) := by
        rw [← next] at order ⊢
        exact ih (by omega) order fun first pending =>
          Guarded.previous_eq (Nat.zero_lt_of_lt (order first pending))
      rw [List.drop_eq_getElem_cons (by rw [Array.length_toList]; exact inside),
        Array.getElem_toList]
      cases opened with
      | none =>
          simp only [scan?, scan, byte, step, Option.bind_eq_bind, Option.bind_some]
          split
          · exact rest none (by simp)
          · exact rest (some key) (by simp)
      | some first =>
          have before := order first rfl
          simp only [scan?, scan, byte, step, back first rfl, Option.bind_eq_bind, Option.bind_some]
          split
          · rw [rest none (by simp), Option.bind_some]
          · exact rest (some first) (by simp; omega)

theorem runs?_eq {row : Array UInt8} (small : row.size < 2 ^ 64) :
    runs? row = some (runs row) :=
  scan?_eq small (Nat.zero_add _) (by simp)

end ByteRow

namespace RunTable

def length? (t : RunTable) : Option UInt64 := do
  let size ← Guarded.count t.starts
  Guarded.difference size 1

/-- The runs between the start of row `i` and the next start. -/
def row? (t : RunTable) (i : UInt64) : Option (Array KeyRun) := do
  let next ← Guarded.sum i 1
  let first ← Guarded.read t.starts i.toNat
  let stop ← Guarded.read t.starts next.toNat
  let size ← Guarded.difference stop first
  Guarded.slice t.runs first size

/-- Fill the runs of row `i` into an image of `n` rows. -/
def expandRow? (t : RunTable) (n : UInt64) (image : Array UInt8) (i : UInt64) :
    Option (Array UInt8) := do
  let base ← Storage.rowStart? n i
  let row ← t.row? i
  ByteRow.fillAll? base image row

def toGrid? (t : RunTable) : Option (Except Size.Overflow Grid) := do
  let n ← t.length?
  let total ← Storage.imageBytes? n
  match total with
  | .error overflow => some (.error overflow)
  | .ok total => do
    let bytes ← (Walk.below n).foldlM (t.expandRow? n) (Array.replicate total.toNat 0)
    some (.ok ⟨n, bytes⟩)

def addRow? (t : RunTable) (row : List KeyRun) : Option RunTable := do
  let runs := t.runs ++ row
  let size ← Guarded.count runs
  some ⟨t.starts.push size, runs⟩

variable {t : RunTable}

theorem Laid.length?_eq (h : t.Laid) (room : t.length.toNat + 1 < 2 ^ 64) :
    t.length? = some t.length := by
  have size := h.size_starts
  have value := Words.toNat_ofNat (k := t.starts.size) (by omega)
  have last := Guarded.previous_eq (a := UInt64.ofNat t.starts.size) (by omega)
  simp only [length?, Guarded.count_eq (show t.starts.size < 2 ^ 64 by omega), last,
    Option.bind_eq_bind, Option.bind_some]
  rfl

theorem Laid.row?_eq (h : t.Laid) {i : UInt64} (row : i < t.length) :
    t.row? i = some (t.row i) := by
  have top := t.length.toNat_lt
  have size := h.size_starts
  have order := UInt64.le_iff_toNat_le.mp (h.start_le i row)
  rw [UInt64.lt_iff_toNat_lt] at row
  have next := Words.toNat_add_one (a := i) (by omega)
  have stop := h.start_le_size (k := (i + 1).toNat) (by omega)
  rw [UInt64.ofNat_toNat] at stop
  have after := Guarded.next_eq (a := i) (by omega)
  have first : Guarded.read t.starts i.toNat = some (t.start i) := Guarded.read_eq (by omega) 0
  have last : Guarded.read t.starts (i + 1).toNat = some (t.start (i + 1)) :=
    Guarded.read_eq (by omega) 0
  have count := UInt64.toNat_sub_of_le _ _ (UInt64.le_iff_toNat_le.mpr order)
  have word := (t.start (i + 1)).toNat_lt
  simp only [row?, after, first, last, Guarded.difference_eq order, Option.bind_eq_bind,
    Option.bind_some]
  exact Guarded.slice_eq (by omega) (by omega)

/-- A start past the flat list, and starts out of order. -/
example : row? ⟨#[0, 2], #[⟨0, 0⟩]⟩ 0 = none ∧ row? ⟨#[1, 0], #[⟨0, 0⟩]⟩ 0 = none :=
  ⟨rfl, rfl⟩

/-- Expansion wraps no index and stays inside the table and the image. -/
theorem Normal.toGrid?_eq (h : t.Normal) (room : t.length.toNat + 64 < 2 ^ 64) :
    t.toGrid? = some t.toGrid := by
  simp only [toGrid?, h.laid.length?_eq (by omega), Storage.imageBytes?_eq room,
    Option.bind_eq_bind, Option.bind_some, toGrid]
  cases fit : Storage.imageBytes t.length with
  | error overflow => rfl
  | ok total =>
      have short := Storage.short_of_imageBytes (by omega) fit
      have size : total.toNat = (Storage.stride t.length).toNat * t.length.toNat :=
        Size.toNat_of_product fit
      rw [Nat.mul_comm] at size
      have small := total.toNat_lt
      have rows (image : Array UInt8) (own : image.size = total.toNat) (i : UInt64)
          (listed : i ∈ Walk.below t.length) : t.expandRow? t.length image i =
            some (ByteRow.fillAll (i * Storage.stride t.length) image (t.row i)) := by
        have row := Walk.mem_below.mp listed
        have stretch := Storage.stretch_le short (UInt64.lt_iff_toNat_lt.mp row)
        have base := Storage.toNat_rowStart short row
        simp only [expandRow?, Storage.rowStart?_eq short row, h.laid.row?_eq row,
          Option.bind_eq_bind, Option.bind_some]
        refine ByteRow.fillAll?_eq (by omega) fun run own => ?_
        have last := UInt64.lt_iff_toNat_lt.mp (h.inside i row run own)
        exact ⟨(h.canonical i row).toNat_first_le own, by omega⟩
      have image := Guarded.foldlM_eq_some (fun image : Array UInt8 => image.size = total.toNat)
        rows (fun image own i _ => (ByteRow.size_fillAll _ image (t.row i)).trans own)
        (Array.replicate total.toNat 0) Array.size_replicate
      simp only [image, Option.bind_some]

end RunTable

namespace Grid

def row? (g : Grid) (i : UInt64) : Option (Array UInt8) := do
  let first ← Storage.rowStart? g.length i
  Guarded.slice g.bytes first g.length

/-- Close row `i` with the runs of its bytes. -/
def compactRow? (g : Grid) (t : RunTable) (i : UInt64) : Option RunTable := do
  let row ← g.row? i
  let runs ← ByteRow.runs? row
  t.addRow? runs

def toRunTable? (g : Grid) : Option RunTable :=
  (Walk.below g.length).foldlM g.compactRow? ⟨#[0], #[]⟩

variable {g : Grid}

theorem Framed.row?_eq (h : g.Framed) {i : UInt64} (row : i < g.length) :
    g.row? i = some (g.row i) := by
  have bound := Storage.length_mul_stride_lt h.short
  have own := Storage.stretch_le h.short (UInt64.lt_iff_toNat_lt.mp row)
  have first := Storage.toNat_rowStart h.short row
  have size : g.bytes.size = g.length.toNat * (Storage.stride g.length).toNat := h.size_bytes
  rw [row?, Storage.rowStart?_eq h.short row, Option.bind_eq_bind, Option.bind_some,
    Guarded.slice_eq (by omega) (by omega), Grid.row, cell, UInt64.add_zero]
  rfl

theorem Framed.foldlM_compactRow? (h : g.Framed) {order : List UInt64}
    (rows : ∀ i ∈ order, i < g.length) (t : RunTable)
    (room : t.runs.size + (order.flatMap fun i => ByteRow.runs (g.row i)).length < 2 ^ 64) :
    order.foldlM g.compactRow? t =
      some (order.foldl (fun t i => t.addRow (ByteRow.runs (g.row i))) t) := by
  induction order generalizing t with
  | nil => rfl
  | cons i rest ih =>
      obtain ⟨row, others⟩ := List.forall_mem_cons.mp rows
      rw [List.flatMap_cons, List.length_append] at room
      have bytes := h.size_row (UInt64.lt_iff_toNat_lt.mp row)
      have total : (t.runs ++ ByteRow.runs (g.row i)).size =
          t.runs.size + (ByteRow.runs (g.row i)).length := by
        rw [← Array.length_toList]
        simp
      have few : (t.runs ++ ByteRow.runs (g.row i)).size < 2 ^ 64 := by omega
      have closed : g.compactRow? t i = some (t.addRow (ByteRow.runs (g.row i))) := by
        simp only [compactRow?, h.row?_eq row, ByteRow.runs?_eq (bytes ▸ g.length.toNat_lt),
          RunTable.addRow?, Guarded.count_eq few, Option.bind_eq_bind, Option.bind_some]
        rfl
      rw [List.foldlM_cons, closed, List.foldl_cons]
      refine ih others _ ?_
      change (t.runs ++ ByteRow.runs (g.row i)).size + _ < 2 ^ 64
      omega

/-- Compaction wraps no index and stays inside the image. -/
theorem Framed.toRunTable?_eq (h : g.Framed) : g.toRunTable? = some g.toRunTable := by
  have total := h.represents_toRunTable.laid.start_length
  have word := (g.toRunTable.start g.toRunTable.length).toNat_lt
  have runs : g.toRunTable.runs.size =
      ((Walk.below g.length).flatMap fun i => ByteRow.runs (g.row i)).length := by
    rw [toRunTable_eq, RunTable.runs_ofRows, List.size_toArray, runRows, List.flatMap_def]
  refine h.foldlM_compactRow? (fun i => Walk.mem_below.mp) ⟨#[0], #[]⟩ ?_
  rw [← runs]
  change 0 + g.toRunTable.runs.size < 2 ^ 64
  omega

end Grid
end AttentionMask
