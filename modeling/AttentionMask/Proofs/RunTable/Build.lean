import AttentionMask.Mask
import AttentionMask.Proofs.RunTable.Assembly

/-! The table that accepted parameters build represents the pairs they permit. The number of its
runs fits in a word when the room of the rows does, and always for fewer than `2 ^ 32` rows, where a
row in normal form has at most one run for each key. -/

namespace AttentionMask

namespace Pattern

variable {p : Pattern} {i : Int64}

theorem Accepted.toNat_length (ok : p.Accepted) :
    p.length.toUInt64.toNat = p.length.toInt.toNat :=
  RowRule.toNat_length ok.sound

theorem Accepted.toNat_length_le (ok : p.Accepted) :
    p.length.toUInt64.toNat ≤ 1099511627776 := by
  have bound : p.length.toInt ≤ 1099511627776 := ok.sound.length_le
  rw [ok.toNat_length]
  omega

theorem Accepted.lt_length_iff (ok : p.Accepted) {i : UInt64} :
    i < p.length.toUInt64 ↔ (i.toNat : Int) < p.length.toInt := by
  rw [UInt64.lt_iff_toNat_lt, ok.toNat_length]
  exact Int.lt_toNat

theorem Accepted.covers_runs (ok : p.Accepted) (row : p.rule.HasRow i) {j : UInt64} :
    KeyRun.Covers (p.rule.runs i) j ↔ p.Permits i.toInt.toNat j.toNat := by
  have cast : ((i.toInt.toNat : Nat) : Int) = i.toInt := Int.toNat_of_nonneg row.nonneg
  have inside : ((i.toInt.toNat : Nat) : Int) < p.length.toInt := by
    rw [cast]
    exact row.lt_length
  rw [RowRule.covers_runs ok.sound row, ← rule_sees_iff ok inside, cast]

theorem Accepted.capacity_le (ok : p.Accepted) : p.rule.capacity ≤ 1 + p.links.length := by
  rw [capacity_rule ok]
  have kept := Finset.card_filter_le p.links.toFinset (· < p.length)
  have distinct := p.links.toFinset_card_le
  omega

theorem Accepted.room_of_fits (ok : p.Accepted) (fits : Mask.Fits p) :
    p.rule.runRows.flatten.length < 2 ^ 64 := by
  have each : ∀ row ∈ p.rule.runRows, row.length ≤ 1 + p.links.length := by
    intro row listed
    obtain ⟨i, _, rfl⟩ := List.mem_map.mp listed
    exact Nat.le_trans (p.rule.length_runs_le i) ok.capacity_le
  have total := RunTable.length_flatten_le each
  rw [RowRule.length_runRows ok.sound, Nat.mul_comm] at total
  rw [Mask.Fits, ok.toNat_length] at fits
  exact Nat.lt_of_le_of_lt total fits

theorem Accepted.room_of_short (ok : p.Accepted) (short : p.length.toInt < 2 ^ 32) :
    p.rule.runRows.flatten.length < 2 ^ 64 := by
  have count : p.rule.runRows.length = p.length.toInt.toNat := RowRule.length_runRows ok.sound
  refine RunTable.length_flatten_lt (by omega) (fun row listed => ?_) fun row listed key held => ?_
  · obtain ⟨i, member, rfl⟩ := List.mem_map.mp listed
    exact RowRule.canonical_runs ok.sound ((RowRule.mem_rows ok.sound).mp member)
  · obtain ⟨i, member, rfl⟩ := List.mem_map.mp listed
    have inside := ((ok.covers_runs ((RowRule.mem_rows ok.sound).mp member)).mp held).2.1
    omega

end Pattern

namespace RunTable

variable {p : Pattern}

theorem build_eq (ok : p.Accepted) (room : p.rule.runRows.flatten.length < 2 ^ 64) :
    build p = .ok (ofRows p.rule.runRows) := by
  rw [build, Pattern.check_eq_ok_iff.mpr ok]
  exact congrArg Except.ok (assemble_eq ok.sound (complete_sequential p.rule) room _)

theorem length_ofRows_runRows (ok : p.Accepted) :
    (ofRows p.rule.runRows).length = p.length.toUInt64 := by
  have count : p.rule.runRows.length = p.length.toUInt64.toNat :=
    (RowRule.length_runRows ok.sound).trans ok.toNat_length.symm
  rw [length_ofRows, count, UInt64.ofNat_toNat]

theorem represents_runRows (ok : p.Accepted) (room : p.rule.runRows.flatten.length < 2 ^ 64) :
    (ofRows p.rule.runRows).Represents p.Permits := by
  have count : p.rule.runRows.length = p.length.toInt.toNat := RowRule.length_runRows ok.sound
  refine represents_ofRows ?_ room (fun k inside => ?_) (fun k inside j => ?_)
  · have bound := ok.toNat_length_le
    rw [count, ← ok.toNat_length]
    omega
  · obtain ⟨i, row, _, own⟩ := RowRule.exists_row ok.sound inside
    rw [own]
    exact RowRule.canonical_runs ok.sound row
  · obtain ⟨i, row, place, own⟩ := RowRule.exists_row ok.sound inside
    rw [own, ok.covers_runs row, place, count]
    exact ⟨fun permitted => ⟨by have := permitted.2.1; omega, permitted⟩, fun held => held.2⟩

theorem exists_build (ok : p.Accepted) (room : p.rule.runRows.flatten.length < 2 ^ 64) :
    ∃ t, build p = .ok t ∧ t.length = p.length.toUInt64 ∧ t.Represents p.Permits :=
  ⟨_, build_eq ok room, length_ofRows_runRows ok, represents_runRows ok room⟩

theorem accepted_of_build {t : RunTable} (done : build p = .ok t) : p.Accepted := by
  unfold build at done
  split at done
  · cases done
  · rename_i accepted
    exact Pattern.check_eq_ok_iff.mp accepted

theorem length_of_build {t : RunTable} (done : build p = .ok t) : t.length = p.length.toUInt64 := by
  unfold build at done
  split at done
  · cases done
  · cases done
    exact length_assemble p.rule _ _

/-- A row of any table that represents the permitted pairs is the row that the rule unites. -/
theorem Represents.row_eq_runs {t : RunTable} (h : t.Represents p.Permits) (ok : p.Accepted)
    (length : t.length = p.length.toUInt64) {i : UInt64} (inside : i < t.length) :
    (t.row i).toList = p.rule.runs (Int64.ofNat i.toNat) := by
  have below := inside
  rw [length, ok.lt_length_iff] at below
  obtain ⟨row, value⟩ := RowRule.hasRow_ofNat ok.sound (k := i.toNat) (Int.lt_toNat.mpr below)
  refine (h.canonical i inside).eq_of_covers (RowRule.canonical_runs ok.sound row) fun j => ?_
  rw [h.covers i inside, ok.covers_runs row, value, Int.toNat_natCast, length, ok.lt_length_iff]
  exact and_iff_right_of_imp fun permitted => permitted.2.1

end RunTable
end AttentionMask
