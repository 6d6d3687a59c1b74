import AttentionMask.Proofs.Mask.RowKeys
import Mathlib.Algebra.BigOperators.Group.Finset.Sigma

/-! The number of permitted pairs. A matrix counts set bytes and a table adds the lengths of its
runs; both sums are the number of keys of all rows in words that wrap. Below `2 ^ 32` positions no
sum can wrap. -/

namespace AttentionMask

variable {R : Nat → Nat → Prop}

/-- A running sum of words is the sum of their values, wrapped once. -/
theorem Words.toNat_foldl_add {ι : Type} (word : ι → UInt64) (order : List ι) (total : UInt64) :
    (order.foldl (fun total a => total + word a) total).toNat =
      (total.toNat + (order.map fun a => (word a).toNat).sum) % 2 ^ 64 := by
  induction order generalizing total with
  | nil => simp [Nat.mod_eq_of_lt total.toNat_lt]
  | cons a rest ih =>
      rw [List.foldl_cons, ih, UInt64.toNat_add, Nat.mod_add_mod, List.map_cons, List.sum_cons,
        Nat.add_assoc]

theorem KeyRun.toNat_length {run : KeyRun} (proper : run.Proper) :
    run.length.toNat = run.keys.length := by
  have order := UInt64.le_iff_toNat_le.mp proper.first_le_last
  have room := proper.last_lt
  have span : (run.last - run.first).toNat = run.last.toNat - run.first.toNat :=
    UInt64.toNat_sub_of_le _ _ proper.first_le_last
  rw [KeyRun.length, Words.toNat_add_one (by omega), span, KeyRun.keys, Walk.length_keys]
  omega

namespace Mask

variable {m : Mask}

/-- The permitted pairs of positions. -/
def pairs (m : Mask) : Finset (Nat × Nat) :=
  (Finset.range m.length.toNat ×ˢ Finset.range m.length.toNat).filter fun pair =>
    m.allows (UInt64.ofNat pair.1) (UInt64.ofNat pair.2) = true

/-- The number of keys of all rows. -/
def keyCount (m : Mask) : Nat :=
  ((Walk.below m.length).map fun i => (m.rowKeys i).length).sum

theorem Represents.length_rowKeys (h : m.Represents R) {i : UInt64} (row : i < m.length) :
    (m.rowKeys i).length = (Walk.below m.length).countP (m.allows i) := by
  rw [h.rowKeys_eq_filter row, List.countP_eq_length_filter]

theorem Represents.card_pairs (h : m.Represents R) : m.pairs.card = m.keyCount := by
  have rows (i : Nat) (inside : i ∈ List.range m.length.toNat) :
      (m.rowKeys (UInt64.ofNat i)).length = ((Finset.range m.length.toNat).filter fun j =>
        m.allows (UInt64.ofNat i) (UInt64.ofNat j) = true).card := by
    have row : UInt64.ofNat i < m.length := Words.ofNat_lt (List.mem_range.mp inside)
    change _ = ((List.range m.length.toNat).filter fun j =>
      decide (m.allows (UInt64.ofNat i) (UInt64.ofNat j) = true)).length
    rw [h.length_rowKeys row, Walk.below, List.countP_map, List.countP_eq_length_filter]
    simp only [Bool.decide_eq_true, Function.comp_def]
  rw [keyCount, Walk.below, List.map_map, Function.comp_def, List.map_congr_left rows, pairs,
    Finset.card_filter, Finset.sum_product]
  simp only [← Finset.card_filter]
  rfl

end Mask

theorem Grid.Represents.toNat_count {g : Grid} (h : g.Represents R) {i : UInt64}
    (row : i < g.length) :
    (ByteRow.count (g.row i)).toNat = ((Mask.grid g).rowKeys i).length := by
  have top := g.length.toNat_lt
  have few : (Walk.below g.length).countP (g.allows i) ≤ g.length.toNat := by
    simpa using List.countP_le_length (p := g.allows i) (l := Walk.below g.length)
  have ones : (g.row i).count 1 = (Walk.below g.length).countP (g.allows i) := by
    have set : (fun j => (if g.allows i j then (1 : UInt8) else 0) == 1) = g.allows i := by
      funext j
      cases g.allows i j <;> rfl
    rw [h.row_eq row, Mask.imageRow, List.count_toArray, List.count_eq_countP, List.countP_map]
    exact congrArg (fun test => (Walk.below g.length).countP test) set
  have count : ((Mask.grid g).rowKeys i).length = (Walk.below g.length).countP (g.allows i) :=
    Mask.Represents.length_rowKeys (m := .grid g) h row
  rw [ByteRow.count, ones, count]
  exact Words.toNat_ofNat (by omega)

theorem Grid.Represents.toNat_pairCount {g : Grid} (h : g.Represents R) :
    g.pairCount.toNat = (Mask.grid g).keyCount % 2 ^ 64 := by
  have rows : ((Walk.below g.length).map fun i => (ByteRow.count (g.row i)).toNat) =
      (Walk.below g.length).map fun i => ((Mask.grid g).rowKeys i).length :=
    List.map_congr_left fun i listed => h.toNat_count (Walk.mem_below.mp listed)
  rw [pairCount, Words.toNat_foldl_add, rows, UInt64.toNat_zero, Nat.zero_add]
  rfl

theorem RunTable.Represents.sum_lengths {t : RunTable} (h : t.Represents R) {i : UInt64}
    (row : i < t.length) : ((t.row i).toList.map fun run => run.length.toNat).sum =
      ((Mask.runs t).rowKeys i).length := by
  have lengths (run : KeyRun) (listed : run ∈ (t.row i).toList) :
      run.length.toNat = run.keys.length := by
    have inside := UInt64.lt_iff_toNat_lt.mp (h.normal.inside i row run listed)
    have top := t.length.toNat_lt
    exact KeyRun.toNat_length ⟨(h.canonical i row).first_le_last run listed, by omega⟩
  have keys : (Mask.runs t).rowKeys i = (t.row i).toList.flatMap KeyRun.keys := by
    unfold Mask.rowKeys
    exact if_neg (UInt64.not_le.mpr row)
  rw [keys, List.length_flatMap, List.map_congr_left lengths]

theorem RunTable.Represents.toNat_pairCount {t : RunTable} (h : t.Represents R) :
    t.pairCount.toNat = (Mask.runs t).keyCount % 2 ^ 64 := by
  have rows : ((Walk.below t.length).map fun i =>
      ((t.row i).toList.map fun run => run.length.toNat).sum) =
        (Walk.below t.length).map fun i => ((Mask.runs t).rowKeys i).length :=
    List.map_congr_left fun i listed => h.sum_lengths (Walk.mem_below.mp listed)
  rw [pairCount, ← Array.foldl_toList, Words.toNat_foldl_add, h.laid.toList_runs, List.map_flatten,
    List.sum_flatten, RunTable.rows, List.map_map, List.map_map, UInt64.toNat_zero, Nat.zero_add]
  exact congrArg (fun lengths => lengths.sum % 2 ^ 64) rows

namespace Mask

variable {m : Mask}

theorem Represents.toNat_pairCount (h : m.Represents R) :
    m.pairCount.toNat = m.keyCount % 2 ^ 64 := by
  cases m with
  | grid g => exact Grid.Represents.toNat_pairCount h
  | runs t => exact RunTable.Represents.toNat_pairCount h

theorem Represents.pairCount_congr {m' : Mask} (h : m.Represents R) (h' : m'.Represents R)
    (length : m.length = m'.length) : m.pairCount = m'.pairCount := by
  have same : m.pairs = m'.pairs := by
    simp only [pairs, length, h.allows_eq h' length]
  refine UInt64.toNat_inj.mp ?_
  rw [h.toNat_pairCount, h'.toNat_pairCount, ← h.card_pairs, ← h'.card_pairs, same]

theorem card_pairs_le (m : Mask) : m.pairs.card ≤ m.length.toNat * m.length.toNat := by
  refine Nat.le_trans (Finset.card_filter_le _ _) ?_
  rw [Finset.card_product, Finset.card_range]

theorem card_pairs_lt (short : m.length.toNat < 2 ^ 32) : m.pairs.card < 2 ^ 64 := by
  have few : m.length.toNat ≤ 2 ^ 32 - 1 := by omega
  calc m.pairs.card ≤ m.length.toNat * m.length.toNat := m.card_pairs_le
    _ ≤ (2 ^ 32 - 1) * (2 ^ 32 - 1) := Nat.mul_le_mul few few
    _ < 2 ^ 64 := by decide

/-- A mask that permits every pair has the square of its length of them. -/
theorem card_pairs_of_all (all : ∀ i < m.length, ∀ j < m.length, m.allows i j = true) :
    m.pairs.card = m.length.toNat * m.length.toNat := by
  rw [pairs, Finset.filter_true_of_mem, Finset.card_product, Finset.card_range]
  intro pair listed
  obtain ⟨row, key⟩ := Finset.mem_product.mp listed
  exact all _ (Words.ofNat_lt (Finset.mem_range.mp row)) _
    (Words.ofNat_lt (Finset.mem_range.mp key))

end Mask

/-- A band that reaches twice the last position from the offset one permits every pair. -/
theorem Pattern.permits_of_wide {n window band : Int64} (long : 1 < n.toInt)
    (wide : 2 * n.toInt - 2 ≤ band.toInt) {i j : Nat} (row : (i : Int) < n.toInt)
    (key : (j : Int) < n.toInt) : Permits ⟨n, window, some [1], band, .unclamped⟩ i j := by
  have one : (1 : Int64).toInt = 1 := Int64.toInt_one
  have low : (i : Int) - (1 : Int64).toInt - band.toInt ≤ j := by omega
  have high : (j : Int) ≤ i - (1 : Int64).toInt + band.toInt := by omega
  exact permits_of_link (p := ⟨n, window, some [1], band, .unclamped⟩) rfl row key
    (List.mem_singleton.mpr rfl) (Int64.lt_iff_toInt_lt.mpr long) low high

namespace Mask

variable {m : Mask}

/-- The square of a multiple of `2 ^ 32` leaves nothing in a word. -/
theorem Represents.pairCount_eq_zero (h : m.Represents R)
    (all : ∀ i < m.length, ∀ j < m.length, m.allows i j = true)
    (whole : 2 ^ 32 ∣ m.length.toNat) : m.pairCount = 0 := by
  obtain ⟨k, times⟩ := whole
  refine UInt64.toNat_inj.mp ?_
  rw [h.toNat_pairCount, ← h.card_pairs, card_pairs_of_all all, times, Nat.mul_mul_mul_comm,
    UInt64.toNat_zero]
  exact Nat.mul_mod_right _ _

theorem exists_full_runs {n window band : Int64}
    (ok : Pattern.Accepted ⟨n, window, some [1], band, .unclamped⟩) (long : 1 < n.toInt)
    (wide : 2 * n.toInt - 2 ≤ band.toInt) :
    ∃ t, RunTable.build ⟨n, window, some [1], band, .unclamped⟩ = .ok t ∧
      (runs t).Expresses ⟨n, window, some [1], band, .unclamped⟩ ∧
      ∀ i < t.length, ∀ j < t.length, t.allows i j = true := by
  have count : n.toUInt64.toNat = n.toInt.toNat := ok.toNat_length
  have bound : n.toUInt64.toNat ≤ 1099511627776 := ok.toNat_length_le
  have fits : Fits ⟨n, window, some [1], band, .unclamped⟩ := by
    change (1 + 1) * n.toUInt64.toNat < 2 ^ 64
    omega
  obtain ⟨t, done, _, own⟩ := exists_runs ok fits
  have length : t.length = n.toUInt64 := own.length
  have inside (i : UInt64) (below : i < t.length) : (i.toNat : Int) < n.toInt := by
    rw [length, UInt64.lt_iff_toNat_lt] at below
    omega
  refine ⟨t, done, own, fun i row j key => own.represents.allows_iff.mpr ⟨row, key, ?_⟩⟩
  exact Pattern.permits_of_wide long wide (inside i row) (inside j key)

/-- The reported number is the number of permitted pairs, and of the keys of all rows, reduced to a
word. Below `2 ^ 32` positions, so for every matrix, it is exact, and conversions keep it. At a
multiple of `2 ^ 32` positions a table that permits every pair reports none. -/
theorem obtainable_pairCount :
    (∀ m, Obtainable m →
      m.pairCount.toNat = m.pairs.card % 2 ^ 64 ∧
      m.pairCount.toNat = m.keyCount % 2 ^ 64 ∧
      (m.length.toNat < 2 ^ 32 → m.pairCount.toNat = m.pairs.card) ∧
      (m.form = .grid → m.length.toNat < 2 ^ 32) ∧
      (runs m.toRunTable).pairCount = m.pairCount ∧
      ∀ g, m.toGrid = .ok g → (grid g).pairCount = m.pairCount) ∧
    ∀ n window band : Int64, Pattern.check ⟨n, window, some [1], band, .unclamped⟩ = .ok () →
      2 ^ 32 ∣ n.toInt → 2 * n.toInt - 2 ≤ band.toInt →
      ∃ t, RunTable.build ⟨n, window, some [1], band, .unclamped⟩ = .ok t ∧
        t.length = n.toUInt64 ∧ (∀ i < t.length, ∀ j < t.length, t.allows i j = true) ∧
        t.pairCount = 0 := by
  refine ⟨fun m h => ?_, fun n window band checked whole wide => ?_⟩
  · obtain ⟨p, _, _, own⟩ := h.exists_expresses fun _ fits => fits
    have counted := own.represents.toNat_pairCount
    have keys := own.represents.card_pairs
    refine ⟨keys ▸ counted, counted, fun short => ?_, fun form => ?_, ?_, fun g done => ?_⟩
    · rw [counted, ← keys, Nat.mod_eq_of_lt (card_pairs_lt short)]
    · cases m with
      | grid g => exact Grid.Framed.short (Grid.Represents.framed own.represents)
      | runs t => cases form
    · exact own.compacted.represents.pairCount_congr own.represents
        (own.compacted.length.trans own.length.symm)
    · exact (own.expanded done).represents.pairCount_congr own.represents
        ((own.expanded done).length.trans own.length.symm)
  · have ok := Pattern.check_eq_ok_iff.mp checked
    have low : 1 ≤ n.toInt := ok.sound.one_le_length
    obtain ⟨t, done, own, all⟩ := exists_full_runs ok (by omega) wide
    have length : t.length = n.toUInt64 := own.length
    have count : t.length.toNat = n.toInt.toNat := by
      rw [length]
      exact ok.toNat_length
    exact ⟨t, done, length, all, own.represents.pairCount_eq_zero all (by
      change 2 ^ 32 ∣ t.length.toNat
      omega)⟩

/-- A small mask in both forms, and `2 ^ 32` positions with a band that permits all pairs. -/
theorem obtainable_pairCount_full :
    (∃ t g, RunTable.build ⟨13, 4, some [7, 7, 20], 1, .clamped⟩ = .ok t ∧
      Grid.build ⟨13, 4, some [7, 7, 20], 1, .clamped⟩ = .ok g ∧
      (runs t).pairCount.toNat = (runs t).pairs.card ∧
      (grid g).pairCount.toNat = (grid g).keyCount % 2 ^ 64 ∧
      (runs g.toRunTable).pairCount = (grid g).pairCount) ∧
    ∃ t, RunTable.build ⟨4294967296, 0, some [1], 8589934590, .unclamped⟩ = .ok t ∧
      (∀ i < t.length, ∀ j < t.length, t.allows i j = true) ∧ t.pairCount = 0 := by
  have ok : Pattern.Accepted ⟨13, 4, some [7, 7, 20], 1, .clamped⟩ :=
    Pattern.check_eq_ok_iff.mp (by decide)
  have fits : Fits ⟨13, 4, some [7, 7, 20], 1, .clamped⟩ := by
    unfold Fits
    decide
  obtain ⟨t, done, table, own⟩ := exists_runs ok fits
  obtain ⟨g, done', image, _⟩ := exists_grid ok fits (by decide)
  obtain ⟨_, _, exactly, _⟩ := obtainable_pairCount.1 _ table
  obtain ⟨_, keys, _, _, compacted, _⟩ := obtainable_pairCount.1 _ image
  have short : (runs t).length.toNat < 2 ^ 32 := by
    rw [own.length]
    decide
  obtain ⟨full, done'', _, all, none⟩ :=
    obtainable_pairCount.2 4294967296 0 8589934590 (by decide) (by decide) (by decide)
  exact ⟨⟨t, g, done, done', exactly short, keys, compacted⟩, full, done'', all, none⟩

end Mask
end AttentionMask
