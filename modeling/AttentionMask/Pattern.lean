import AttentionMask.Fault

/-! Parameters of an attention mask over `length` positions. Query `i` sees the `window` keys before
it and itself, and for each offset `o` the keys at most `band` away from `i - o`. All fields are
signed words so that a bad value reaches the check; an absent list of offsets is a fault and not a
request for the window alone. -/

namespace AttentionMask

/-- Whether keys near an offset may lie after the query. -/
inductive Causality where
  | unclamped
  | clamped
deriving DecidableEq

structure Pattern where
  length : Int64 := 0
  window : Int64 := 4
  offsets : Option (List Int64) := none
  band : Int64 := 1
  causality : Causality := .unclamped
deriving DecidableEq

namespace Pattern

/-- The longest accepted sequence, `2 ^ 40` positions. -/
def maxLength : Int64 := 1099511627776

/-- The listed offsets; an absent list holds none. -/
def links (p : Pattern) : List Int64 :=
  p.offsets.getD []

/-- The first violated condition, in the order: offsets given, length, window, band, each offset. -/
def check (p : Pattern) : Except Fault Unit :=
  if p.links.isEmpty then .error .missing
  else if p.length < 1 ∨ maxLength < p.length then .error (.invalid .length p.length 0)
  else if p.window < 0 then .error (.invalid .window p.window 0)
  else if p.band < 0 then .error (.invalid .band p.band 0)
  else match p.links.zipIdx.find? fun entry => entry.1 < 1 with
    | some (offset, index) => .error (.invalid .offsets offset (UInt64.ofNat index))
    | none => .ok ()

/-- The domain of the mask builders. -/
structure Accepted (p : Pattern) : Prop where
  links_ne_nil : p.links ≠ []
  one_le_length : 1 ≤ p.length
  length_le_max : p.length ≤ maxLength
  window_nonneg : 0 ≤ p.window
  band_nonneg : 0 ≤ p.band
  one_le_offset : ∀ o ∈ p.links, 1 ≤ o

/-- Key `j` is visible to query `i`, read off the parameters over unbounded integers. An offset
that is not shorter than the sequence links nothing. -/
def Permits (p : Pattern) (i j : Nat) : Prop :=
  (i : Int) < p.length.toInt ∧ (j : Int) < p.length.toInt ∧
    (max 0 ((i : Int) - p.window.toInt) ≤ j ∧ j ≤ i ∨
      ∃ o ∈ p.links, o < p.length ∧
        ((((j : Int) - ((i : Int) - o.toInt)).natAbs : Nat) : Int) ≤ p.band.toInt ∧
        (p.causality = .clamped → j ≤ i))

/-- The copy task: `half` tokens, a delimiter, then `half` outputs that each look back at the token
they copy. The half is first brought into the range of lengths, of either sign, so that an absurd
one still gives a length that the check refuses. -/
def copyTask (half : Int64) : Pattern :=
  let half := max (-maxLength) (min half maxLength)
  { length := 2 * half + 1, offsets := some [half + 1] }

theorem find?_offset_eq_none {offsets : List Int64} :
    (offsets.zipIdx.find? fun entry => decide (entry.1 < 1)) = none ↔ ∀ o ∈ offsets, 1 ≤ o := by
  simp only [List.find?_eq_none, decide_eq_true_eq, Int64.not_lt]
  constructor
  · intro all o listed
    obtain ⟨k, at_⟩ := List.getElem?_of_mem listed
    exact all (o, k) (List.mk_mem_zipIdx_iff_getElem?.mpr at_)
  · intro all entry listed
    exact all entry.1 (List.fst_mem_of_mem_zipIdx listed)

theorem check_eq_ok_iff {p : Pattern} : p.check = .ok () ↔ p.Accepted := by
  constructor
  · intro h
    unfold check at h
    split at h
    · cases h
    split at h
    · cases h
    split at h
    · cases h
    split at h
    · cases h
    rename_i given length window band
    refine ⟨by simpa using given, ?_, ?_, Int64.not_lt.mp window, Int64.not_lt.mp band, ?_⟩
    · exact Int64.not_lt.mp fun short => length (.inl short)
    · exact Int64.not_lt.mp fun long => length (.inr long)
    · split at h
      · cases h
      · rename_i sound
        exact find?_offset_eq_none.mp sound
  · intro ok
    have sound := find?_offset_eq_none.mpr ok.one_le_offset
    simp [check, ok.links_ne_nil, Int64.not_lt.mpr ok.one_le_length,
      Int64.not_lt.mpr ok.length_le_max, Int64.not_lt.mpr ok.window_nonneg,
      Int64.not_lt.mpr ok.band_nonneg, sound]

end Pattern
end AttentionMask
