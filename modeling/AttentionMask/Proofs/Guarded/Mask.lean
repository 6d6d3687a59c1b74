import AttentionMask.Proofs.Guarded.Assembly
import AttentionMask.Proofs.Guarded.Painting
import AttentionMask.Proofs.Guarded.Queries
import AttentionMask.Proofs.RunTable.Build

/-! No access outside an array and no wrapped index, for all masks that builds and conversions
lead to: the builds, both conversions and every query have guarded forms that give the plain
results. What the accesses rely on is settled by earlier parts: the room of the runs for the
builds, and for everything else the layout of the table, the order and the bounds of its runs, or
the frame of the image. -/

namespace AttentionMask

open RunTable

variable {p : Pattern}

def RunTable.build? (p : Pattern) : Option (Except Fault RunTable) :=
  match p.check with
  | .error fault => some (.error fault)
  | .ok () => do
    let t ← assemble? p.rule (sequential p.rule) (Vector.replicate 1 #[])
    some (.ok t)

namespace Grid

def build? (p : Pattern) : Option (Except Fault Grid) :=
  match p.check with
  | .error fault => some (.error fault)
  | .ok () => do
    let n ← Guarded.index p.length
    let total ← Storage.imageBytes? n
    match total with
    | .error _ => some (.error (.invalid .length p.length 0))
    | .ok total => do
      let g ← painted? p.rule p.rule.rows total
      some (.ok g)

def allows? (g : Grid) (i j : UInt64) : Option Bool :=
  if g.length ≤ i ∨ g.length ≤ j then some false
  else do
    let first ← Storage.rowStart? g.length i
    let place ← Guarded.sum first j
    let byte ← Guarded.read g.bytes place.toNat
    some (byte != 0)

def rowKeys? (g : Grid) (i : UInt64) : Option (List UInt64) :=
  if g.length ≤ i then some []
  else do
    let row ← g.row? i
    ByteRow.keys? row

/-- The bytes equal to one of all rows. -/
def pairCount? (g : Grid) : Option UInt64 :=
  (Walk.below g.length).foldlM (fun total i => do
    let row ← g.row? i
    some (total + ByteRow.count row)) 0

def digest? (g : Grid) : Option UInt64 :=
  (Walk.below g.length).foldlM (fun register i => do
    let row ← g.row? i
    Crc64.update? register row) 0

end Grid

namespace Mask

def buildAs? (form : Form) (p : Pattern) : Option (Except Fault Mask) :=
  match form with
  | .grid => (Grid.build? p).map (Except.map grid)
  | .runs => (RunTable.build? p).map (Except.map runs)

def allows? (m : Mask) (i j : UInt64) : Option Bool :=
  match m with
  | grid g => g.allows? i j
  | runs t => t.allows? i j

def rowKeys? (m : Mask) (i : UInt64) : Option (List UInt64) :=
  match m with
  | grid g => g.rowKeys? i
  | runs t => t.rowKeys? i

def pairCount? : Mask → Option UInt64
  | grid g => g.pairCount?
  | runs t => t.pairCount?

def digest? : Mask → Option UInt64
  | grid g => g.digest?
  | runs t => t.digest?

def toGrid? : Mask → Option (Except Size.Overflow Grid)
  | grid g => some (.ok g)
  | runs t => t.toGrid?

def toRunTable? : Mask → Option RunTable
  | grid g => g.toRunTable?
  | runs t => some t

/-- Every operation on the mask gives its result with checked indices. -/
structure Safe (m : Mask) : Prop where
  allows : ∀ i j, m.allows? i j = some (m.allows i j)
  rowKeys : ∀ i, m.rowKeys? i = some (m.rowKeys i)
  pairCount : m.pairCount? = some m.pairCount
  digest : m.digest? = some m.digest
  toGrid : m.toGrid? = some m.toGrid
  toRunTable : m.toRunTable? = some m.toRunTable

end Mask

/-- Builds from the parameters give their results with checked indices: the table for every complete
schedule and every content of the buffers, the matrix for rows painted in every order. -/
structure Pattern.BuildsSafely (p : Pattern) : Prop where
  built : ∀ form, Mask.buildAs? form p = some (Mask.buildAs form p)
  assembled : p.check = .ok () → ∀ (workers : Nat) (schedule : Schedule workers),
    schedule.Complete p.rule → ∀ buffers,
      assemble? p.rule schedule buffers = some (assemble p.rule schedule buffers)
  painted : p.check = .ok () → ∀ total, Storage.imageBytes p.length.toUInt64 = .ok total →
    ∀ order : List Int64, (∀ i ∈ order, i ∈ p.rule.rows) →
      Grid.painted? p.rule order total = some (Grid.painted p.rule order total)

namespace Grid.Framed

variable {g : Grid} (h : g.Framed)
include h

theorem allows?_eq (i j : UInt64) : g.allows? i j = some (g.allows i j) := by
  unfold allows? allows
  split
  · rfl
  · rename_i inside
    obtain ⟨row, key⟩ := not_or.mp inside
    rw [UInt64.not_le] at row key
    have bound := Storage.length_mul_stride_lt h.short
    have own := Storage.stretch_le h.short (UInt64.lt_iff_toNat_lt.mp row)
    have base := Storage.toNat_rowStart h.short row
    rw [UInt64.lt_iff_toNat_lt] at key
    have byte := Guarded.sum_eq (a := i * Storage.stride g.length) (b := j) (by omega)
    have place := Words.toNat_add (a := i * Storage.stride g.length) (b := j) (by omega)
    have inside : (i * Storage.stride g.length + j).toNat < g.bytes.size := by
      rw [h.size_bytes, stride]
      omega
    simp only [Storage.rowStart?_eq h.short row, byte, Guarded.read_eq inside 0,
      Option.bind_eq_bind, Option.bind_some]
    rfl

theorem rowKeys?_eq (i : UInt64) : g.rowKeys? i = some ((Mask.grid g).rowKeys i) := by
  unfold rowKeys? Mask.rowKeys
  change _ = some (if g.length ≤ i then [] else ByteRow.keys (g.row i))
  split
  · rfl
  · rename_i inside
    have row := UInt64.not_le.mp inside
    have size := h.size_row (UInt64.lt_iff_toNat_lt.mp row)
    rw [h.row?_eq row, Option.bind_eq_bind, Option.bind_some]
    exact ByteRow.keys?_eq (size ▸ g.length.toNat_lt)

theorem pairCount?_eq : g.pairCount? = some g.pairCount := by
  refine Guarded.foldlM_eq_some_of_forall (fun total i listed => ?_) 0
  rw [h.row?_eq (Walk.mem_below.mp listed), Option.bind_eq_bind, Option.bind_some]

theorem digest?_eq : g.digest? = some g.digest := by
  refine Guarded.foldlM_eq_some_of_forall (fun register i listed => ?_) 0
  rw [h.row?_eq (Walk.mem_below.mp listed), Option.bind_eq_bind, Option.bind_some,
    Crc64.update?_eq]

end Grid.Framed

namespace Mask

variable {m : Mask}

theorem Expresses.safe (h : m.Expresses p) : m.Safe := by
  have bound := h.toNat_length_le
  cases m with
  | grid g =>
      have framed := Grid.Represents.framed h.represents
      exact ⟨framed.allows?_eq, framed.rowKeys?_eq, framed.pairCount?_eq, framed.digest?_eq, rfl,
        framed.toRunTable?_eq⟩
  | runs t =>
      have normal := RunTable.Represents.normal h.represents
      change t.length.toNat ≤ _ at bound
      exact ⟨normal.allows?_eq (by omega), normal.rowKeys?_eq (by omega), normal.pairCount?_eq,
        normal.digest?_eq (by omega), normal.toGrid?_eq (by omega), rfl⟩

theorem assemble?_eq_of_fits (ok : p.Accepted) (fits : Fits p) {workers : Nat}
    {schedule : Schedule workers} (complete : schedule.Complete p.rule)
    (buffers : Buffers workers) :
    assemble? p.rule schedule buffers = some (assemble p.rule schedule buffers) := by
  have few : p.rule.capacity < 2 ^ 64 := by
    have rows : 1 ≤ p.length.toUInt64.toNat := by
      have positive : 1 ≤ p.length.toInt := ok.sound.one_le_length
      rw [ok.toNat_length]
      omega
    calc p.rule.capacity ≤ 1 + p.links.length := ok.capacity_le
      _ ≤ (1 + p.links.length) * p.length.toUInt64.toNat := Nat.le_mul_of_pos_right _ rows
      _ < 2 ^ 64 := fits
  exact assemble?_eq ok.sound complete few (ok.room_of_fits fits) buffers

theorem painted?_eq_of_fit (ok : p.Accepted) {total : UInt64}
    (fit : Storage.imageBytes p.length.toUInt64 = .ok total) {order : List Int64}
    (rows : ∀ i ∈ order, i ∈ p.rule.rows) :
    Grid.painted? p.rule order total = some (Grid.painted p.rule order total) := by
  have bound := ok.toNat_length_le
  have short := Storage.short_of_imageBytes (by omega) fit
  have size := Size.toNat_of_product fit
  rw [Nat.mul_comm] at size
  exact Grid.painted?_eq ok.sound short
    (fun i listed => (RowRule.mem_rows ok.sound).mp (rows i listed)) size

theorem buildsSafely_of_fits (fits : Fits p) : p.BuildsSafely := by
  refine ⟨fun form => ?_, fun checked workers schedule complete buffers => ?_,
    fun checked total fit order rows => ?_⟩
  · cases form with
    | grid =>
        cases checked : p.check with
        | error fault => simp [buildAs?, buildAs, Grid.build?, Grid.build, checked]
        | ok _ =>
            have ok := Pattern.check_eq_ok_iff.mp checked
            have bound := ok.toNat_length_le
            have positive : 1 ≤ p.length.toInt := ok.sound.one_le_length
            have n := Guarded.index_eq (a := p.length) (by omega)
            have total := Storage.imageBytes?_eq (n := p.length.toUInt64) (by omega)
            simp only [buildAs?, buildAs, Grid.build?, Grid.build, checked, n, total,
              Option.bind_eq_bind, Option.bind_some]
            cases fit : Storage.imageBytes p.length.toUInt64 with
            | error overflow => rfl
            | ok total =>
                simp only [painted?_eq_of_fit ok fit fun i listed => listed, Option.bind_some]
                rfl
    | runs =>
        cases checked : p.check with
        | error fault => simp [buildAs?, buildAs, RunTable.build?, RunTable.build, checked]
        | ok _ =>
            have ok := Pattern.check_eq_ok_iff.mp checked
            simp only [buildAs?, buildAs, RunTable.build?, RunTable.build, checked,
              assemble?_eq_of_fits ok fits (complete_sequential p.rule), Option.bind_eq_bind,
              Option.bind_some]
            rfl
  · exact assemble?_eq_of_fits (Pattern.check_eq_ok_iff.mp checked) fits complete buffers
  · exact painted?_eq_of_fit (Pattern.check_eq_ok_iff.mp checked) fit rows

/-- Builds from parameters whose table fits, and everything that is done with the masks they lead
to, wrap no index and stay inside their arrays; the loop over the keys of a run ends, since no run
reaches the last word. -/
theorem obtainable_safe :
    (∀ p, Fits p → p.BuildsSafely) ∧ (∀ m, Obtainable m → m.Safe) ∧
      ∀ t, Obtainable (runs t) → ∀ i < t.length, ∀ run ∈ (t.row i).toList,
        run.last.toNat + 1 < 2 ^ 64 ∧ KeyRun.Climbs run.last run.first run.keys := by
  refine ⟨fun p => buildsSafely_of_fits, fun m obtainable => ?_,
    fun t obtainable i row run listed => ?_⟩
  · obtain ⟨p, _, _, expresses⟩ := obtainable.exists_expresses fun _ fits => fits
    exact expresses.safe
  · obtain ⟨p, _, _, expresses⟩ := obtainable.exists_expresses fun _ fits => fits
    have normal := RunTable.Represents.normal expresses.represents
    have last := (normal.proper row listed).last_lt
    exact ⟨last, KeyRun.climbs_of_climb? (KeyRun.climb?_eq last run.first)⟩

/-- The widest window and band, a repeated offset and the largest one, under the causal cut. -/
theorem obtainable_safe_widest :
    (Pattern.mk 13 9223372036854775807 (some [7, 7, 9223372036854775807]) 9223372036854775807
      .clamped).BuildsSafely ∧
    (∃ t, RunTable.build ⟨13, 9223372036854775807, some [7, 7, 9223372036854775807],
        9223372036854775807, .clamped⟩ = .ok t ∧ (runs t).Safe ∧
      ∀ i < t.length, ∀ run ∈ (t.row i).toList,
        run.last.toNat + 1 < 2 ^ 64 ∧ KeyRun.Climbs run.last run.first run.keys) ∧
    ∃ g, Grid.build ⟨13, 9223372036854775807, some [7, 7, 9223372036854775807],
      9223372036854775807, .clamped⟩ = .ok g ∧ (grid g).Safe := by
  have fits : Fits ⟨13, 9223372036854775807, some [7, 7, 9223372036854775807],
      9223372036854775807, .clamped⟩ := by unfold Fits; decide
  have ok := Pattern.check_eq_ok_iff.mp (show Pattern.check ⟨13, 9223372036854775807,
    some [7, 7, 9223372036854775807], 9223372036854775807, .clamped⟩ = .ok () by decide)
  obtain ⟨t, built, table, _⟩ := exists_runs ok fits
  obtain ⟨g, painted, image, _⟩ := exists_grid ok fits (by decide)
  exact ⟨obtainable_safe.1 _ fits, ⟨t, built, obtainable_safe.2.1 _ table,
    obtainable_safe.2.2 t table⟩, g, painted, obtainable_safe.2.1 _ image⟩

end Mask
end AttentionMask
