import AttentionMask.Proofs.CopyTask
import AttentionMask.Proofs.Recorded
import AttentionMask.Proofs.Requirement

/-! The copy task of any half that a signed word holds. The half is bounded before it is doubled, so
nothing leaves the words, and the bounds keep a bad half bad: its length is refused, and since the
length is checked before the offset, the offset that comes of a negative half is never looked at. -/

namespace AttentionMask.Pattern

open Recorded

variable {half : Int64}

/-- The length of a copy task and its offset over unbounded integers. -/
def integerCopyTask (half : Int) : Recorded (Int × Int) := do
  let least ← value (-2 ^ 40)
  let bounded := max least (min half (2 ^ 40))
  let twice ← value (2 * bounded)
  let length ← value (twice + 1)
  let offset ← value (bounded + 1)
  pure (length, offset)

theorem inWords_integerCopyTask (half : Int) : (integerCopyTask half).InWords := by
  have least : (value (-2 ^ 40)).InWords := inWords_value ⟨by decide, by decide⟩
  have twice : (value (2 * max (-2 ^ 40) (min half (2 ^ 40)))).InWords :=
    inWords_value ⟨by omega, by omega⟩
  have length : (value (2 * max (-2 ^ 40) (min half (2 ^ 40)) + 1)).InWords :=
    inWords_value ⟨by omega, by omega⟩
  have offset : (value (max (-2 ^ 40) (min half (2 ^ 40)) + 1)).InWords :=
    inWords_value ⟨by omega, by omega⟩
  exact least.bind (twice.bind (length.bind (offset.bind (inWords_pure _))))

/-- A half out of range gives a length out of range, on the same side. -/
theorem check_copyTask_of_refused (refused : ¬(copyTask half).Accepted) :
    (copyTask half).check = .error ⟨.invalidParameter, .length, (copyTask half).length, 0⟩ := by
  rw [copyTask_accepted_iff] at refused
  have bounded := toInt_boundedHalf half
  have length := toInt_length_copyTask half
  have missed : ¬(copyTask half).Meets .length := by
    intro met
    obtain ⟨low, high⟩ : 1 ≤ (copyTask half).length.toInt ∧ (copyTask half).length.toInt ≤ 2 ^ 40 :=
      met
    omega
  have given : (copyTask half).Meets .given := by
    rw [meets_given_iff, copyTask_eq]
    exact Bool.false_ne_true
  exact check_of_reports missed (List.forall_mem_singleton.mpr given) .length

/-- The copy task of a half is calculated in words whatever the half is. It passes the check for the
halves from zero up to `2 ^ 39`; for every other half the length is refused, although a negative
half gives a bad offset as well. -/
theorem copyTask_stays_in_words (half : Int64) :
    (integerCopyTask half.toInt).InWords ∧
    (copyTask half).length.toInt = (integerCopyTask half.toInt).result.1 ∧
    (copyTask half).links.map Int64.toInt = [(integerCopyTask half.toInt).result.2] ∧
    ((copyTask half).check = .ok () ↔ 0 ≤ half.toInt ∧ half.toInt < 2 ^ 39) ∧
    (¬(0 ≤ half.toInt ∧ half.toInt < 2 ^ 39) → ∃ n : Int64,
      n.toInt = 2 * max (-2 ^ 40) (min half.toInt (2 ^ 40)) + 1 ∧
        (copyTask half).check = .error ⟨.invalidParameter, .length, n, 0⟩) ∧
    (half.toInt < 0 → ∀ o ∈ (copyTask half).links, o.toInt ≤ 0) := by
  have bounded := toInt_boundedHalf half
  have length := toInt_length_copyTask half
  have offset := toInt_offset_copyTask half
  have links : (copyTask half).links = [boundedHalf half + 1] := rfl
  have passes : (copyTask half).check = .ok () ↔ 0 ≤ half.toInt ∧ half.toInt < 2 ^ 39 :=
    check_eq_ok_iff.trans copyTask_accepted_iff
  rw [bounded] at length offset
  refine ⟨inWords_integerCopyTask half.toInt, length, ?_, passes, fun outside => ?_, ?_⟩
  · rw [links, List.map_singleton, offset]
    rfl
  · exact ⟨_, length, check_copyTask_of_refused (copyTask_accepted_iff.not.mpr outside)⟩
  · rw [links]
    intro negative o listed
    rw [List.mem_singleton.mp listed, offset]
    omega

/-- The least half there is, and the first one past the longest copy task. -/
theorem copyTask_stays_in_words_extreme :
    (copyTask (-9223372036854775808)).check =
        .error ⟨.invalidParameter, .length, -2199023255551, 0⟩ ∧
      (∀ o ∈ (copyTask (-9223372036854775808)).links, o.toInt ≤ 0) ∧
      (copyTask 549755813888).check = .error ⟨.invalidParameter, .length, 1099511627777, 0⟩ := by
  obtain ⟨_, _, _, _, refused, low⟩ := copyTask_stays_in_words (-9223372036854775808)
  obtain ⟨n, short, failed⟩ := refused (by decide)
  obtain ⟨n', long, failed'⟩ :=
    (copyTask_stays_in_words 549755813888).2.2.2.2.1 (by decide)
  have least : n = -2199023255551 := Int64.toInt_inj.mp (short.trans (by decide))
  have greatest : n' = 1099511627777 := Int64.toInt_inj.mp (long.trans (by decide))
  exact ⟨least ▸ failed, low (by decide), greatest ▸ failed'⟩

end AttentionMask.Pattern
