import AttentionMask.Proofs.Conversion
import AttentionMask.Proofs.Grid.Build

/-! Both builders decide the relation that the raw parameters define, and their results are each
other's conversions: a row united from ranges is the row scanned from its marks. -/

namespace AttentionMask

variable {p : Pattern}

theorem Pattern.Accepted.permits_iff (ok : p.Accepted) {i j : UInt64} :
    i < p.length.toUInt64 ∧ j < p.length.toUInt64 ∧ p.Permits i.toNat j.toNat ↔
      p.Permits i.toNat j.toNat := by
  rw [ok.lt_length_iff, ok.lt_length_iff]
  exact ⟨fun held => held.2.2, fun held => ⟨held.1, held.2.1, held⟩⟩

theorem builders_decide (ok : p.check = .ok ()) (fits : Mask.Fits p) :
    (∃ t, RunTable.build p = .ok t ∧
      ∀ i j : UInt64, t.allows i j = true ↔ p.Permits i.toNat j.toNat) ∧
    (p.length.toInt < 2 ^ 32 → ∃ g, Grid.build p = .ok g ∧
      ∀ i j : UInt64, g.allows i j = true ↔ p.Permits i.toNat j.toNat) := by
  have accepted := Pattern.check_eq_ok_iff.mp ok
  refine ⟨?_, fun short => ?_⟩
  · obtain ⟨t, done, length, table⟩ := RunTable.exists_build accepted (accepted.room_of_fits fits)
    refine ⟨t, done, fun i j => ?_⟩
    rw [table.allows_iff, length, accepted.permits_iff]
  · obtain ⟨g, done, length, image⟩ := Grid.exists_build accepted short
    refine ⟨g, done, fun i j => ?_⟩
    rw [image.allows_iff, length, accepted.permits_iff]

/-- The widest band, a repeated offset and two offsets past the sequence, under the causal cut. -/
theorem builders_decide_clamped :
    (∃ t, RunTable.build ⟨13, 4, some [7, 7, 20, 9223372036854775807], 9223372036854775807,
        .clamped⟩ = .ok t ∧ ∀ i j : UInt64, t.allows i j = true ↔
      Pattern.Permits ⟨13, 4, some [7, 7, 20, 9223372036854775807], 9223372036854775807, .clamped⟩
        i.toNat j.toNat) ∧
    ∃ g, Grid.build ⟨13, 4, some [7, 7, 20, 9223372036854775807], 9223372036854775807,
        .clamped⟩ = .ok g ∧ ∀ i j : UInt64, g.allows i j = true ↔
      Pattern.Permits ⟨13, 4, some [7, 7, 20, 9223372036854775807], 9223372036854775807, .clamped⟩
        i.toNat j.toNat := by
  have both := builders_decide
    (p := ⟨13, 4, some [7, 7, 20, 9223372036854775807], 9223372036854775807, .clamped⟩)
    (by decide) (by unfold Mask.Fits; decide)
  exact ⟨both.1, both.2 (by decide)⟩

/-- The expanded table is the painted image, and the compacted image is the assembled table. -/
theorem builders_meet (ok : p.check = .ok ()) (short : p.length.toInt < 2 ^ 32) :
    ∃ t g, RunTable.build p = .ok t ∧ Grid.build p = .ok g ∧ t.toGrid = .ok g ∧
      g.toRunTable = t := by
  have accepted := Pattern.check_eq_ok_iff.mp ok
  have bound : p.length.toUInt64.toNat < 2 ^ 32 := by
    rw [accepted.toNat_length]
    omega
  obtain ⟨t, built, length, table⟩ :=
    RunTable.exists_build accepted (accepted.room_of_short short)
  obtain ⟨g, painted, length', image⟩ := Grid.exists_build accepted short
  obtain ⟨g', expanded, length'', image'⟩ := table.exists_toGrid (length ▸ bound)
  have same : g' = g := image'.unique image (by rw [length'', length, length'])
  have back : g.toRunTable = t := image.represents_toRunTable.unique table
    (by rw [g.length_toRunTable, length', length])
  exact ⟨t, g, built, painted, same ▸ expanded, back⟩

theorem builders_meet_unclamped :
    ∃ t g, RunTable.build ⟨13, 4, some [9, 7, 7, 20], 1, .unclamped⟩ = .ok t ∧
      Grid.build ⟨13, 4, some [9, 7, 7, 20], 1, .unclamped⟩ = .ok g ∧ t.toGrid = .ok g ∧
        g.toRunTable = t :=
  builders_meet (by decide) (by decide)

end AttentionMask
