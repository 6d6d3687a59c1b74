import AttentionMask.Proofs.Mask.PairCount
import AttentionMask.Proofs.Mask.Rows

/-! What a query sees depends on distances only: the window and the bands are sets of distances, and
the ends of the sequence and the causal cut never split pairs at one distance. A longer sequence
leaves the pairs of a shorter one as they were when the offsets that it gains room for keep their
bands out of reach. -/

namespace AttentionMask

namespace Pattern

variable {p : Pattern}

/-- A query sees the key that lies `d` positions before it, where the sequence has both. -/
def Spans (p : Pattern) (d : Int) : Prop :=
  0 ≤ d ∧ d ≤ p.window.toInt ∨
    ∃ o ∈ p.links, o < p.length ∧
      o.toInt - p.band.toInt ≤ d ∧ d ≤ o.toInt + p.band.toInt ∧ (p.causality = .clamped → 0 ≤ d)

theorem permits_iff_spans {i j : Nat} : p.Permits i j ↔
    (i : Int) < p.length.toInt ∧ (j : Int) < p.length.toInt ∧ p.Spans (i - j) := by
  have band (o : Int64) :
      ((((j : Int) - ((i : Int) - o.toInt)).natAbs : Nat) : Int) ≤ p.band.toInt ↔
        o.toInt - p.band.toInt ≤ (i : Int) - j ∧ (i : Int) - j ≤ o.toInt + p.band.toInt := by
    omega
  have cut : (p.causality = .clamped → j ≤ i) ↔ (p.causality = .clamped → 0 ≤ (i : Int) - j) :=
    imp_congr_right fun _ => by omega
  have window : max 0 ((i : Int) - p.window.toInt) ≤ j ∧ j ≤ i ↔
      0 ≤ (i : Int) - j ∧ (i : Int) - j ≤ p.window.toInt := by
    omega
  simp only [Permits, Spans, band, cut, window, and_assoc]

/-- The same rules for a sequence of another length. -/
def resized (p : Pattern) (length : Int64) : Pattern :=
  { p with length }

/-- An offset that only the longer sequence has room for reaches no distance of the shorter one when
it lies past the length and the band together. -/
theorem spans_resized_iff {n : Int64} (longer : p.length ≤ n)
    (clear : ∀ o ∈ p.links, p.length ≤ o → o < n → p.length.toInt + p.band.toInt ≤ o.toInt)
    {d : Int} (inside : d < p.length.toInt) : (p.resized n).Spans d ↔ p.Spans d := by
  constructor
  · rintro (near | ⟨o, listed, room, low, high, cut⟩)
    · exact .inl near
    · by_cases short : o < p.length
      · exact .inr ⟨o, listed, short, low, high, cut⟩
      · have past := clear o listed (Int64.not_lt.mp short) room
        change o.toInt - p.band.toInt ≤ d at low
        omega
  · rintro (near | ⟨o, listed, short, low, high, cut⟩)
    · exact .inl near
    · exact .inr ⟨o, listed, Int64.lt_of_lt_of_le short longer, low, high, cut⟩

end Pattern

namespace Mask

variable {m m' : Mask} {p : Pattern} {i j i' j' : UInt64}

theorem Expresses.allows_iff_spans (h : m.Expresses p) (row : i < m.length) (key : j < m.length) :
    m.allows i j = true ↔ p.Spans ((i.toNat : Int) - j.toNat) := by
  rw [h.lt_length_iff] at row key
  rw [h.allows_iff, Pattern.permits_iff_spans]
  simp [row, key]

/-- Pairs at one distance are permitted or denied together. -/
theorem Expresses.allows_shift (h : m.Expresses p) (row : i < m.length) (key : j < m.length)
    (row' : i' < m.length) (key' : j' < m.length)
    (same : (i.toNat : Int) - j.toNat = i'.toNat - j'.toNat) : m.allows i j = m.allows i' j' := by
  rw [Bool.eq_iff_iff, h.allows_iff_spans row key, h.allows_iff_spans row' key', same]

/-- A longer mask with the same rules agrees on the pairs of the shorter one. -/
theorem Expresses.allows_resized {n : Int64} (h : m.Expresses p) (h' : m'.Expresses (p.resized n))
    (longer : p.length ≤ n)
    (clear : ∀ o ∈ p.links, p.length ≤ o → o < n → p.length.toInt + p.band.toInt ≤ o.toInt)
    (row : i < m.length) (key : j < m.length) : m.allows i j = m'.allows i j := by
  have order : p.length.toInt ≤ n.toInt := Int64.le_iff_toInt_le.mp longer
  have within {a : UInt64} (short : a < m.length) : a < m'.length :=
    h'.lt_length_iff.mpr (Int.lt_of_lt_of_le (h.lt_length_iff.mp short) order)
  have inside := h.lt_length_iff.mp row
  rw [Bool.eq_iff_iff, h.allows_iff_spans row key, h'.allows_iff_spans (within row) (within key),
    Pattern.spans_resized_iff longer clear (by omega)]

/-- The pairs at one distance are as many as the keys that have a query so far behind them. -/
theorem card_pairs_at (n d : Nat) :
    ((Finset.range n ×ˢ Finset.range n).filter fun pair => pair.1 = pair.2 + d).card = n - d := by
  have column : ((Finset.range n ×ˢ Finset.range n).filter fun pair => pair.1 = pair.2 + d) =
      (Finset.range (n - d)).image fun j => (j + d, j) := by
    ext ⟨i, j⟩
    simp only [Finset.mem_filter, Finset.mem_product, Finset.mem_range, Finset.mem_image,
      Prod.mk.injEq]
    constructor
    · rintro ⟨inside, rfl⟩
      exact ⟨j, by omega, rfl, rfl⟩
    · rintro ⟨key, short, rfl, rfl⟩
      omega
  have apart : Function.Injective fun j : Nat => (j + d, j) := fun a b same => (Prod.mk.inj same).2
  rw [column, Finset.card_image_of_injective _ apart, Finset.card_range]

/-- A mask that permits the pairs at certain distances has, for each of them, as many as fit
in its length. -/
theorem card_pairs_of_distances (distances : Finset Nat)
    (spans : ∀ i < m.length, ∀ j < m.length, m.allows i j = true ↔
      ∃ d ∈ distances, i.toNat = j.toNat + d) :
    m.pairs.card = ∑ d ∈ distances, (m.length.toNat - d) := by
  have top := m.length.toNat_lt
  have member (pair : Nat × Nat) : pair ∈ m.pairs ↔
      (pair.1 < m.length.toNat ∧ pair.2 < m.length.toNat) ∧
        ∃ d ∈ distances, pair.1 = pair.2 + d := by
    rw [pairs, Finset.mem_filter, Finset.mem_product, Finset.mem_range, Finset.mem_range]
    refine and_congr_right fun inside => ?_
    have row := Words.toNat_ofNat (k := pair.1) (by omega)
    have key := Words.toNat_ofNat (k := pair.2) (by omega)
    rw [spans _ (Words.ofNat_lt inside.1) _ (Words.ofNat_lt inside.2), row, key]
  have maps : Set.MapsTo (fun pair => pair.1 - pair.2) (m.pairs : Set (Nat × Nat)) distances := by
    intro pair listed
    obtain ⟨_, d, own, far⟩ := (member pair).mp listed
    have distance : pair.1 - pair.2 = d := by omega
    simpa only [distance, SetLike.mem_coe] using own
  rw [Finset.card_eq_sum_card_fiberwise maps]
  refine Finset.sum_congr rfl fun d own => ?_
  rw [← card_pairs_at m.length.toNat d]
  congr 1
  ext pair
  rw [Finset.mem_filter, Finset.mem_filter, member, Finset.mem_product, Finset.mem_range,
    Finset.mem_range]
  constructor
  · rintro ⟨⟨inside, d', _, far⟩, distance⟩
    exact ⟨inside, by omega⟩
  · rintro ⟨inside, far⟩
    exact ⟨⟨inside, d, own, far⟩, by omega⟩

end Mask

/-- In both forms and with or without the causal cut, pairs at one distance are permitted together,
and a longer sequence with the same rules permits the same pairs of the first positions when every
offset that only it has room for lies past the shorter length and the band together. -/
theorem masks_keep_distances :
    (∀ p : Pattern, p.check = .ok () → Mask.Fits p →
      ∀ form : Mask.Form, (form = .grid → p.length.toInt < 2 ^ 32) →
        ∃ m, Mask.buildAs form p = .ok m ∧ m.length = p.length.toUInt64 ∧
          ∀ i < m.length, ∀ j < m.length, ∀ i' < m.length, ∀ j' < m.length,
            (i.toNat : Int) - j.toNat = i'.toNat - j'.toNat → m.allows i j = m.allows i' j') ∧
    ∀ (p : Pattern) (n : Int64), p.check = .ok () → (p.resized n).check = .ok () →
      Mask.Fits p → Mask.Fits (p.resized n) → p.length ≤ n →
      (∀ o ∈ p.links, p.length ≤ o → o < n → p.length.toInt + p.band.toInt ≤ o.toInt) →
      ∀ form form' : Mask.Form, (form = .grid → p.length.toInt < 2 ^ 32) →
        (form' = .grid → n.toInt < 2 ^ 32) →
        ∃ m m', Mask.buildAs form p = .ok m ∧ Mask.buildAs form' (p.resized n) = .ok m' ∧
          m.length = p.length.toUInt64 ∧
            ∀ i < m.length, ∀ j < m.length, m.allows i j = m'.allows i j := by
  constructor
  · intro p checked fits form short
    obtain ⟨m, done, _, _, own⟩ :=
      Mask.exists_buildAs (Pattern.check_eq_ok_iff.mp checked) fits form short
    exact ⟨m, done, own.length,
      fun i row j key i' row' j' key' => own.allows_shift row key row' key'⟩
  · intro p n checked checked' fits fits' longer clear form form' short short'
    obtain ⟨m, done, _, _, own⟩ :=
      Mask.exists_buildAs (Pattern.check_eq_ok_iff.mp checked) fits form short
    obtain ⟨m', done', _, _, own'⟩ :=
      Mask.exists_buildAs (Pattern.check_eq_ok_iff.mp checked') fits' form' short'
    exact ⟨m, m', done, done', own.length,
      fun i row j key => own.allows_resized own' longer clear row key⟩

/-- A clamped matrix, and seven positions as a table against the first seven of thirteen as a
matrix, with a new offset just far enough. -/
theorem masks_keep_distances_small :
    (∃ m, Mask.buildAs .grid ⟨13, 2, some [5, 9, 20], 6, .clamped⟩ = .ok m ∧
      m.allows 4 1 = m.allows 12 9) ∧
    ∃ m m', Mask.buildAs .runs ⟨7, 1, some [3, 9], 2, .unclamped⟩ = .ok m ∧
      Mask.buildAs .grid ⟨13, 1, some [3, 9], 2, .unclamped⟩ = .ok m' ∧
        m.allows 6 0 = m'.allows 6 0 := by
  constructor
  · obtain ⟨m, done, length, shift⟩ := masks_keep_distances.1
      ⟨13, 2, some [5, 9, 20], 6, .clamped⟩ (by decide) (by unfold Mask.Fits; decide) .grid
        fun _ => by decide
    rw [length] at shift
    exact ⟨m, done, shift 4 (by decide) 1 (by decide) 12 (by decide) 9 (by decide) (by decide)⟩
  · obtain ⟨m, m', done, done', length, agree⟩ := masks_keep_distances.2
      ⟨7, 1, some [3, 9], 2, .unclamped⟩ 13 (by decide) (by decide) (by unfold Mask.Fits; decide)
        (by unfold Mask.Fits; decide) (by decide) (by simp [Pattern.links]) .runs .grid
        (fun form => by cases form) fun _ => by decide
    rw [length] at agree
    exact ⟨m, m', done, done', agree 6 (by decide) 0 (by decide)⟩

end AttentionMask
