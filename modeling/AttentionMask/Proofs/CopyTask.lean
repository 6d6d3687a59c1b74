import AttentionMask.Proofs.Distance

/-! The mask of the copy task, for every half length. An output looks back at the token it copies
and one position to either side, nothing looks ahead, and from a half of five on the band stays
clear of the window, so that pairs and runs are linear in the half. -/

namespace AttentionMask

open KeyRun

namespace Pattern

variable {half : Int64} {h : Nat}

/-- The half that the copy task works with: the given one, brought into the range of lengths. -/
def boundedHalf (half : Int64) : Int64 :=
  max (-maxLength) (min half maxLength)

theorem copyTask_eq (half : Int64) : copyTask half =
    { length := 2 * boundedHalf half + 1, offsets := some [boundedHalf half + 1] } :=
  rfl

theorem toInt_boundedHalf (half : Int64) :
    (boundedHalf half).toInt = max (-1099511627776) (min half.toInt 1099511627776) := by
  rw [boundedHalf, Words.toInt_max, Words.toInt_min]
  rfl

theorem toInt_length_copyTask (half : Int64) :
    (copyTask half).length.toInt = 2 * (boundedHalf half).toInt + 1 := by
  have bounded := toInt_boundedHalf half
  have whole : Words.Holds (2 * (boundedHalf half).toInt) := ⟨by omega, by omega⟩
  have double : (2 * boundedHalf half).toInt = 2 * (boundedHalf half).toInt := Words.toInt_mul whole
  have fits : Words.Holds ((2 * boundedHalf half).toInt + 1) := ⟨by omega, by omega⟩
  rw [copyTask_eq, ← double]
  exact Words.toInt_add fits

theorem toInt_offset_copyTask (half : Int64) :
    (boundedHalf half + 1).toInt = (boundedHalf half).toInt + 1 := by
  have bounded := toInt_boundedHalf half
  have fits : Words.Holds ((boundedHalf half).toInt + 1) := ⟨by omega, by omega⟩
  exact Words.toInt_add fits

/-- The bounds on a half keep its sign, and a half past them keeps a length that is refused. -/
theorem copyTask_accepted_iff :
    (copyTask half).Accepted ↔ 0 ≤ half.toInt ∧ half.toInt < 549755813888 := by
  have bounded := toInt_boundedHalf half
  have length := toInt_length_copyTask half
  have offset := toInt_offset_copyTask half
  refine ⟨fun ok => ?_, fun ⟨low, high⟩ => {
    links_ne_nil := nofun
    one_le_length := Int64.le_iff_toInt_le.mpr ?_
    length_le_max := Int64.le_iff_toInt_le.mpr ?_
    window_nonneg := show (0 : Int64) ≤ 4 by decide
    band_nonneg := show (0 : Int64) ≤ 1 by decide
    one_le_offset := fun o listed => Int64.le_iff_toInt_le.mpr ?_ }⟩
  · have least : 1 ≤ (copyTask half).length.toInt := ok.sound.one_le_length
    have greatest : (copyTask half).length.toInt ≤ 1099511627776 := ok.sound.length_le
    omega
  · rw [length, Int64.toInt_one]
    omega
  · have top : maxLength.toInt = 1099511627776 := rfl
    omega
  · obtain rfl : o = boundedHalf half + 1 := List.mem_singleton.mp listed
    rw [offset, Int64.toInt_one]
    omega

/-- The half has `h` tokens, at least one, and the length of its copy task is accepted. -/
structure HalfOf (half : Int64) (h : Nat) : Prop where
  toInt_half : half.toInt = h
  one_le : 1 ≤ h
  lt : h < 549755813888

theorem halfOf_of_accepted (one_le : 1 ≤ half) (ok : (copyTask half).Accepted) :
    HalfOf half half.toInt.toNat := by
  have bounded := toInt_boundedHalf half
  have length := toInt_length_copyTask half
  have short : (copyTask half).length.toInt ≤ 1099511627776 := ok.sound.length_le
  have positive : 1 ≤ half.toInt := Int64.le_iff_toInt_le.mp one_le
  exact ⟨by omega, by omega, by omega⟩

namespace HalfOf

theorem boundedHalf_eq (own : HalfOf half h) : boundedHalf half = half := by
  have bounded := toInt_boundedHalf half
  obtain ⟨value, positive, small⟩ := own
  exact Int64.toInt_inj.mp (by omega)

theorem toInt_length (own : HalfOf half h) : (copyTask half).length.toInt = 2 * h + 1 := by
  rw [toInt_length_copyTask, own.boundedHalf_eq, own.toInt_half]

theorem links_eq (own : HalfOf half h) : (copyTask half).links = [half + 1] := by
  rw [copyTask_eq, own.boundedHalf_eq]
  rfl

theorem toInt_offset (own : HalfOf half h) : (half + 1).toInt = h + 1 := by
  rw [← own.toInt_half]
  simpa only [own.boundedHalf_eq] using toInt_offset_copyTask half

theorem toNat_half (own : HalfOf half h) : half.toUInt64.toNat = h := by
  have value := own.toInt_half
  rw [Words.toNat_toUInt64 (by omega), value, Int.toNat_natCast]

theorem fits (own : HalfOf half h) : Mask.Fits (copyTask half) := by
  have length := own.toInt_length
  have small := own.lt
  have word := Words.toNat_toUInt64 (a := (copyTask half).length) (by omega)
  change (1 + 1) * (copyTask half).length.toUInt64.toNat < 2 ^ 64
  omega

/-- The window has the distances to four, the band those around the offset. -/
theorem spans_iff (own : HalfOf half h) {d : Int} :
    (copyTask half).Spans d ↔ 0 ≤ d ∧ d ≤ 4 ∨ (h : Int) ≤ d ∧ d ≤ h + 2 := by
  have offset := own.toInt_offset
  have length := own.toInt_length
  have positive := own.one_le
  have room : half + 1 < (copyTask half).length := Int64.lt_iff_toInt_lt.mpr (by omega)
  have window : (copyTask half).window.toInt = 4 := rfl
  have band : (copyTask half).band.toInt = 1 := rfl
  have free : (copyTask half).causality ≠ .clamped := nofun
  simp only [Spans, own.links_eq, List.mem_singleton, exists_eq_left, room, free, window, band,
    true_and, false_implies, and_true]
  omega

end HalfOf
end Pattern

namespace KeyRun

variable {h i first last : Nat} {key : UInt64}

/-- The run of the keys from one position to another. -/
def between (first last : Nat) : KeyRun :=
  ⟨UInt64.ofNat first, UInt64.ofNat last⟩

theorem mem_between (order : first ≤ last) (top : last < 2 ^ 64) :
    key ∈ between first last ↔ first ≤ key.toNat ∧ key.toNat ≤ last := by
  rw [mem_iff_toNat, between, Words.toNat_ofNat (Nat.lt_of_le_of_lt order top),
    Words.toNat_ofNat top]

/-- The runs of row `i` where the band, if it reaches the sequence, lies clear of the window. -/
def copyRow (h i : Nat) : List KeyRun :=
  if i < h then [between (i - 4) i] else [between (i - h - 2) (i - h), between (i - 4) i]

theorem covers_copyRow (top : i < 2 ^ 64) : Covers (copyRow h i) key ↔ key.toNat ≤ i ∧
    (i ≤ key.toNat + 4 ∨ key.toNat + h ≤ i ∧ i ≤ key.toNat + h + 2) := by
  unfold copyRow
  split
  · rw [covers_cons, mem_between (Nat.sub_le i 4) top]
    simp only [covers_nil, or_false]
    omega
  · rw [covers_cons, covers_cons, mem_between (Nat.sub_le _ 2) (by omega),
      mem_between (Nat.sub_le i 4) top]
    simp only [covers_nil, or_false]
    omega

theorem canonical_copyRow (wide : 6 ≤ h) (top : i < 2 ^ 64) : Canonical (copyRow h i) := by
  have ordered {a b : Nat} (order : a ≤ b) (room : b < 2 ^ 64) :
      (between a b).first ≤ (between a b).last := by
    rw [UInt64.le_iff_toNat_le, between, Words.toNat_ofNat (by omega), Words.toNat_ofNat room]
    exact order
  unfold copyRow
  split
  · exact canonical_cons.mpr ⟨ordered (Nat.sub_le i 4) top, by simp, canonical_nil⟩
  · refine canonical_cons.mpr ⟨ordered (Nat.sub_le _ 2) (by omega), fun next listed => ?_,
      canonical_cons.mpr ⟨ordered (Nat.sub_le i 4) top, by simp, canonical_nil⟩⟩
    obtain rfl := List.mem_singleton.mp listed
    rw [between, between, Words.toNat_ofNat (by omega), Words.toNat_ofNat (by omega)]
    omega

theorem length_copyRow (h i : Nat) : (copyRow h i).length = if i < h then 1 else 2 := by
  unfold copyRow
  split <;> rfl

/-- One run for each token, two for the delimiter and for each output. -/
theorem sum_length_copyRow (h : Nat) :
    ((List.range (2 * h + 1)).map fun i => (copyRow h i).length).sum = 3 * h + 2 := by
  have rows : 2 * h + 1 = h + (h + 1) := by omega
  have tokens : (List.range h).map (fun i => (copyRow h i).length) = List.replicate h 1 := by
    refine List.eq_replicate_iff.mpr ⟨by simp, fun size listed => ?_⟩
    obtain ⟨i, short, rfl⟩ := List.mem_map.mp listed
    rw [length_copyRow, if_pos (List.mem_range.mp short)]
  have rest : ((List.range (h + 1)).map (h + ·)).map (fun i => (copyRow h i).length) =
      List.replicate (h + 1) 2 := by
    refine List.eq_replicate_iff.mpr ⟨by simp, fun size listed => ?_⟩
    simp only [List.mem_map] at listed
    obtain ⟨_, ⟨k, _, rfl⟩, rfl⟩ := listed
    rw [length_copyRow, if_neg (by omega)]
  rw [rows, List.range_add, List.map_append, List.sum_append, tokens, rest, List.sum_replicate_nat,
    List.sum_replicate_nat]
  omega

end KeyRun

namespace Mask

variable {half : Int64} {h : Nat} {m : Mask} {t : RunTable} {i j : UInt64}

theorem Expresses.toNat_length_copyTask (own : m.Expresses (.copyTask half))
    (tokens : Pattern.HalfOf half h) : m.length.toNat = 2 * h + 1 := by
  have length := tokens.toInt_length
  rw [own.length, own.accepted.toNat_length]
  omega

theorem Expresses.allows_copyTask_iff (own : m.Expresses (.copyTask half))
    (tokens : Pattern.HalfOf half h) (row : i < m.length) (key : j < m.length) :
    m.allows i j = true ↔ j.toNat ≤ i.toNat ∧ (i.toNat ≤ j.toNat + 4 ∨
      j.toNat + h ≤ i.toNat ∧ i.toNat ≤ j.toNat + h + 2) := by
  rw [own.allows_iff_spans row key, tokens.spans_iff]
  omega

theorem Expresses.row_copyTask (own : (runs t).Expresses (.copyTask half))
    (tokens : Pattern.HalfOf half h) (wide : 6 ≤ h) (row : i < t.length) :
    (t.row i).toList = copyRow h i.toNat := by
  have table : t.Represents (Pattern.copyTask half).Permits := own.represents
  refine (table.canonical i row).eq_of_covers (canonical_copyRow wide i.toNat_lt) fun j => ?_
  rw [congrFun (table.covers_eq_allows row) j, covers_copyRow i.toNat_lt]
  by_cases key : j < t.length
  · exact own.allows_copyTask_iff tokens row key
  · have past : ¬j.toNat ≤ i.toNat := by
      rw [UInt64.lt_iff_toNat_lt] at row key
      omega
    exact iff_of_false (fun allowed => key (table.allows_iff.mp allowed).2.1)
      fun near => past near.1

theorem Expresses.runCount_copyTask (own : (runs t).Expresses (.copyTask half))
    (tokens : Pattern.HalfOf half h) (wide : 6 ≤ h) : t.runCount.toNat = 3 * h + 2 := by
  have small := tokens.lt
  have table : t.Represents (Pattern.copyTask half).Permits := own.represents
  have length : t.length.toNat = 2 * h + 1 := own.toNat_length_copyTask tokens
  have rows : t.rows = (List.range (2 * h + 1)).map (copyRow h) := by
    rw [RunTable.rows, Walk.below, List.map_map, length]
    refine List.map_congr_left fun k inside => ?_
    have below : k < t.length.toNat := length ▸ List.mem_range.mp inside
    have place := Words.toNat_ofNat (k := k) (by omega)
    rw [Function.comp_apply, own.row_copyTask tokens wide (Words.ofNat_lt below), place]
  have size : t.runs.size = 3 * h + 2 := by
    rw [← Array.length_toList, table.laid.toList_runs, rows, List.length_flatten, List.map_map]
    exact sum_length_copyRow h
  rw [RunTable.runCount, size]
  exact Words.toNat_ofNat (by omega)

/-- Window and band are eight distances, no two of them equal. -/
theorem Expresses.card_pairs_copyTask (own : m.Expresses (.copyTask half))
    (tokens : Pattern.HalfOf half h) (wide : 5 ≤ h) : m.pairs.card = 13 * h - 5 := by
  have length := own.toNat_length_copyTask tokens
  have apart : Disjoint (Finset.range 5) ((Finset.range 3).image (h + ·)) := by
    refine Finset.disjoint_left.mpr fun d near far => ?_
    simp only [Finset.mem_range, Finset.mem_image] at near far
    omega
  have distinct : Function.Injective (h + ·) := fun a b same => Nat.add_left_cancel same
  rw [card_pairs_of_distances (Finset.range 5 ∪ (Finset.range 3).image (h + ·)),
    length, Finset.sum_union apart, Finset.sum_image distinct.injOn]
  · simp only [Finset.sum_range_succ, Finset.sum_range_zero]
    omega
  · intro i row j key
    rw [own.allows_copyTask_iff tokens row key]
    simp only [Finset.mem_union, Finset.mem_range, Finset.mem_image]
    constructor
    · rintro ⟨order, window | ⟨low, high⟩⟩
      · exact ⟨i.toNat - j.toNat, .inl (by omega), by omega⟩
      · exact ⟨i.toNat - j.toNat, .inr ⟨i.toNat - j.toNat - h, by omega, by omega⟩, by omega⟩
    · rintro ⟨d, window | ⟨step, band, rfl⟩, far⟩ <;> omega

theorem Expresses.le_of_allows_copyTask (own : m.Expresses (.copyTask half))
    (tokens : Pattern.HalfOf half h) (allowed : m.allows i j = true) : j ≤ i := by
  obtain ⟨row, key, _⟩ := own.represents.allows_iff.mp allowed
  exact UInt64.le_iff_toNat_le.mpr ((own.allows_copyTask_iff tokens row key).mp allowed).1

/-- The delimiter stands at the position of the half, so output `t` copies token `t`. -/
theorem Expresses.allows_copied_token (own : m.Expresses (.copyTask half))
    (tokens : Pattern.HalfOf half h) {t : UInt64} (token : t < half.toUInt64) :
    m.allows (half.toUInt64 + 1 + t) t = true := by
  have length := own.toNat_length_copyTask tokens
  have count := tokens.toNat_half
  have small := tokens.lt
  rw [UInt64.lt_iff_toNat_lt, count] at token
  have delimiter := Words.toNat_add_one (a := half.toUInt64) (by omega)
  have output := Words.toNat_add (a := half.toUInt64 + 1) (b := t) (by omega)
  refine (own.allows_copyTask_iff tokens ?_ ?_).mpr ⟨by omega, .inr ⟨by omega, by omega⟩⟩
  · exact UInt64.lt_iff_toNat_lt.mpr (by omega)
  · exact UInt64.lt_iff_toNat_lt.mpr (by omega)

theorem Expresses.size_row_copyTask (own : (runs t).Expresses (.copyTask half))
    (tokens : Pattern.HalfOf half h) (wide : 6 ≤ h) (row : i < t.length) :
    (t.row i).size = if i < half.toUInt64 then 1 else 2 := by
  rw [← Array.length_toList, own.row_copyTask tokens wide row, length_copyRow]
  simp only [UInt64.lt_iff_toNat_lt, tokens.toNat_half]

theorem Expresses.toNat_pairCount_copyTask (own : m.Expresses (.copyTask half))
    (tokens : Pattern.HalfOf half h) (wide : 5 ≤ h) : m.pairCount.toNat = 13 * h - 5 := by
  have small := tokens.lt
  rw [own.represents.toNat_pairCount, ← own.represents.card_pairs,
    own.card_pairs_copyTask tokens wide]
  exact Nat.mod_eq_of_lt (by omega)

end Mask

/-- In either form the copy task sees no later key, and each output sees the token it copies. From a
half of five on it permits `13 * half - 5` pairs. From six on its rows have one run before the
delimiter and two from there on. -/
theorem copyTask_builds (half : Int64) (one_le : 1 ≤ half)
    (checked : (Pattern.copyTask half).check = .ok ()) (form : Mask.Form)
    (short : form = .grid → (Pattern.copyTask half).length.toInt < 2 ^ 32) :
    ∃ m, Mask.buildAs form (.copyTask half) = .ok m ∧ (m.length.toNat : Int) = 2 * half.toInt + 1 ∧
      (∀ i j, m.allows i j = true → j ≤ i) ∧
      (∀ t < half.toUInt64, m.allows (half.toUInt64 + 1 + t) t = true) ∧
      (5 ≤ half → (m.pairs.card : Int) = 13 * half.toInt - 5 ∧
        (m.pairCount.toNat : Int) = 13 * half.toInt - 5) ∧
      (6 ≤ half → (m.toRunTable.runCount.toNat : Int) = 3 * half.toInt + 2 ∧
        ∀ i < m.length, (m.toRunTable.row i).size = if i < half.toUInt64 then 1 else 2) := by
  have ok := Pattern.check_eq_ok_iff.mp checked
  have tokens := Pattern.halfOf_of_accepted one_le ok
  have value := tokens.toInt_half
  obtain ⟨m, done, _, _, own⟩ := Mask.exists_buildAs ok tokens.fits form short
  have table := own.compacted
  refine ⟨m, done, ?_, fun i j => own.le_of_allows_copyTask tokens,
    fun t token => own.allows_copied_token tokens token, fun wide => ?_, fun wide => ?_⟩
  · rw [own.toNat_length_copyTask tokens]
    omega
  · have wide' : 5 ≤ half.toInt := Int64.le_iff_toInt_le.mp wide
    rw [own.card_pairs_copyTask tokens (by omega), own.toNat_pairCount_copyTask tokens (by omega)]
    omega
  · have wide' : 6 ≤ half.toInt := Int64.le_iff_toInt_le.mp wide
    have count := table.runCount_copyTask tokens (by omega)
    have same : m.toRunTable.length = m.length := table.length.trans own.length.symm
    exact ⟨by omega, fun i row => table.size_row_copyTask tokens (by omega) (same ▸ row)⟩

/-- Six tokens as a matrix of thirteen rows, and the longest copy task as a table. -/
theorem copyTask_builds_six :
    (∃ m, Mask.buildAs .grid (.copyTask 6) = .ok m ∧ m.allows 9 2 = true ∧ m.pairs.card = 73 ∧
      m.toRunTable.runCount.toNat = 20) ∧
    ∃ m, Mask.buildAs .runs (.copyTask 549755813887) = .ok m ∧
      m.allows 549755813888 0 = true ∧ m.pairCount.toNat = 7146825580526 := by
  constructor
  · obtain ⟨m, done, _, _, copied, pairs, runs⟩ :=
      copyTask_builds 6 (by decide) (by decide) .grid fun _ => by decide
    have card : (m.pairs.card : Int) = 73 := (pairs (by decide)).1
    have count : (m.toRunTable.runCount.toNat : Int) = 20 := (runs (by decide)).1
    exact ⟨m, done, copied 2 (by decide), by omega, by omega⟩
  · obtain ⟨m, done, _, _, copied, pairs, _⟩ :=
      copyTask_builds 549755813887 (by decide) (by decide) .runs fun form => by cases form
    have total : (m.pairCount.toNat : Int) = 7146825580526 := (pairs (by decide)).2
    exact ⟨m, done, copied 0 (by decide), by omega⟩

end AttentionMask
