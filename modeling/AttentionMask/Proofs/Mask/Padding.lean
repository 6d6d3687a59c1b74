import AttentionMask.Proofs.Mask.Relation

/-! The image of every matrix that builds and conversions lead to, whatever room the tables on the
way would need. A table whose starts wrap has at least `2 ^ 32` rows and cannot be expanded, so a
matrix always comes from a short sequence. Its rows lie at the least multiple of a cache line that
holds one, each live byte is one or zero as its pair is permitted, and all other bytes are zero; so
equal relations have equal images. -/

namespace AttentionMask

namespace Grid

variable {g g' : Grid} {R R' : Nat → Nat → Prop}

/-- The layout of an image whose live bytes say what the matrix permits. -/
structure Imaged (g : Grid) : Prop where
  stride_isLeast : IsLeast {k | 64 ∣ k ∧ g.length.toNat ≤ k} g.stride.toNat
  size_bytes : g.bytes.size = g.length.toNat * g.stride.toNat
  size_lt : g.length.toNat * g.stride.toNat < 2 ^ 64
  live : ∀ i < g.length.toNat, ∀ j < g.length.toNat, g.bytes[i * g.stride.toNat + j]? =
    some (if g.allows (UInt64.ofNat i) (UInt64.ofNat j) then 1 else 0)
  padding : ∀ i < g.length.toNat, ∀ j < g.stride.toNat, g.length.toNat ≤ j →
    g.bytes[i * g.stride.toNat + j]? = some 0

theorem Represents.live_eq (h : g.Represents R) {i j : Nat} (row : i < g.length.toNat)
    (key : j < g.length.toNat) : g.bytes[g.place i j]? =
      some (if g.allows (UInt64.ofNat i) (UInt64.ofNat j) then 1 else 0) := by
  have top := g.length.toNat_lt
  have i' := Words.toNat_ofNat (k := i) (by omega)
  have j' := Words.toNat_ofNat (k := j) (by omega)
  have decides : g.allows (UInt64.ofNat i) (UInt64.ofNat j) = true ↔ R i j := by
    rw [h.allows_iff, UInt64.lt_iff_toNat_lt, UInt64.lt_iff_toNat_lt, i', j']
    exact ⟨fun held => held.2.2, fun related => ⟨row, key, related⟩⟩
  by_cases related : R i j
  · rw [h.one i row j key related, if_pos (decides.mpr related)]
  · rw [h.zero i row j key related, if_neg (mt decides.mp related)]

theorem Represents.imaged (h : g.Represents R) : g.Imaged where
  stride_isLeast := Storage.isLeast_stride (by have short := h.framed.short; omega)
  size_bytes := h.framed.size_bytes
  size_lt := Storage.length_mul_stride_lt h.framed.short
  live _ row _ key := h.live_eq row key
  padding := h.framed.padding

/-- The length and the permitted pairs determine the image. -/
theorem Represents.eq_of_allows_eq (h : g.Represents R) (h' : g'.Represents R')
    (length : g.length = g'.length)
    (same : ∀ i < g.length, ∀ j < g.length, g.allows i j = g'.allows i j) : g = g' := by
  refine h.framed.ext h'.framed length fun i row j key => ?_
  rw [h.live_eq row key, h'.live_eq (length ▸ row) (length ▸ key),
    same _ (Words.ofNat_lt row) _ (Words.ofNat_lt key)]

end Grid

namespace Mask

variable {m : Mask} {p : Pattern} {allowed : Pattern → Prop}

/-- What holds of a mask whatever room its parameters would need: it has their length, and a short
mask represents the pairs they permit. A matrix is always short. -/
structure StemsFrom (m : Mask) (p : Pattern) : Prop where
  accepted : p.Accepted
  length : m.length = p.length.toUInt64
  short : m.form = .grid → p.length.toInt < 2 ^ 32
  represents : p.length.toInt < 2 ^ 32 → m.Represents p.Permits

theorem StemsFrom.expresses (h : m.StemsFrom p) (short : p.length.toInt < 2 ^ 32) :
    m.Expresses p :=
  ⟨h.accepted, h.length, h.represents short⟩

theorem stemsFrom_of_build {form : Form} (done : buildAs form p = .ok m) : m.StemsFrom p := by
  have own (short : p.length.toInt < 2 ^ 32) : m.Expresses p :=
    expresses_of_build (fun ok => ok.room_of_short short) done
  cases form with
  | grid =>
      obtain ⟨g, built, rfl⟩ := buildAs_grid_iff.mp done
      obtain ⟨ok, short⟩ := Grid.accepted_of_build built
      exact ⟨ok, (own short).length, fun _ => short, fun short => (own short).represents⟩
  | runs =>
      obtain ⟨t, built, rfl⟩ := buildAs_runs_iff.mp done
      exact ⟨RunTable.accepted_of_build built, RunTable.length_of_build built,
        nofun, fun short => (own short).represents⟩

theorem StemsFrom.expanded (h : m.StemsFrom p) {g : Grid} (done : m.toGrid = .ok g) :
    (grid g).StemsFrom p := by
  have count := h.accepted.toNat_length
  have bound := h.accepted.toNat_length_le
  have short : p.length.toInt < 2 ^ 32 := by
    cases m with
    | grid g' => exact h.short rfl
    | runs t =>
        have length : t.length = p.length.toUInt64 := h.length
        have few := RunTable.short_of_toGrid (by rw [length]; omega) done
        rw [length] at few
        omega
  have image := (h.expresses short).expanded done
  exact ⟨h.accepted, image.length, fun _ => short, fun _ => image.represents⟩

theorem StemsFrom.compacted (h : m.StemsFrom p) : (runs m.toRunTable).StemsFrom p := by
  cases m with
  | grid g =>
      have table := (h.expresses (h.short rfl)).compacted
      exact ⟨h.accepted, table.length, nofun, fun _ => table.represents⟩
  | runs t => exact h

theorem Derived.exists_stemsFrom (h : Derived allowed m) : ∃ p, m.StemsFrom p := by
  induction h with
  | built _ done => exact ⟨_, stemsFrom_of_build done⟩
  | expanded _ done ih =>
      obtain ⟨p, own⟩ := ih
      exact ⟨p, own.expanded done⟩
  | compacted _ ih =>
      obtain ⟨p, own⟩ := ih
      exact ⟨p, own.compacted⟩

theorem Derived.exists_represents {g : Grid} (h : Derived allowed (grid g)) :
    ∃ R, g.Represents R := by
  obtain ⟨p, own⟩ := h.exists_stemsFrom
  exact ⟨p.Permits, own.represents (own.short rfl)⟩

/-- Whatever accepted parameters a matrix goes back to, its image has the layout of one that permits
what it permits. Two such matrices of one length with the same permitted pairs have the same bytes,
those between the rows included. -/
theorem derived_imaged :
    (∀ g, Derived (fun _ => True) (grid g) → g.Imaged) ∧
      ∀ g g', Derived (fun _ => True) (grid g) → Derived (fun _ => True) (grid g') →
        g.length = g'.length → (∀ i < g.length, ∀ j < g.length, g.allows i j = g'.allows i j) →
          g.bytes = g'.bytes := by
  constructor
  · intro g h
    obtain ⟨R, image⟩ := h.exists_represents
    exact image.imaged
  · intro g g' h h' length same
    obtain ⟨R, image⟩ := h.exists_represents
    obtain ⟨R', image'⟩ := h'.exists_represents
    exact congrArg Grid.bytes (image.eq_of_allows_eq image' length same)

/-- A painted matrix, and the matrix that the table of the same parameters expands to. -/
theorem derived_imaged_small :
    ∃ g t g', Grid.build ⟨13, 4, some [7, 7, 20], 1, .clamped⟩ = .ok g ∧
      RunTable.build ⟨13, 4, some [7, 7, 20], 1, .clamped⟩ = .ok t ∧ t.toGrid = .ok g' ∧
        g.Imaged ∧ g'.Imaged ∧ g.bytes = g'.bytes := by
  have ok : Pattern.Accepted ⟨13, 4, some [7, 7, 20], 1, .clamped⟩ :=
    Pattern.check_eq_ok_iff.mp (by decide)
  obtain ⟨g, painted, length, image⟩ := Grid.exists_build ok (by decide)
  obtain ⟨t, built, length', table⟩ := RunTable.exists_build ok (ok.room_of_short (by decide))
  have short : t.length.toNat < 2 ^ 32 := by
    rw [length']
    decide
  obtain ⟨g', expanded, length'', image'⟩ := table.exists_toGrid short
  have own : Derived (fun _ => True) (grid g) :=
    .built trivial (buildAs_grid_iff.mpr ⟨g, painted, rfl⟩)
  have source : Derived (fun _ => True) (runs t) :=
    .built trivial (buildAs_runs_iff.mpr ⟨t, built, rfl⟩)
  have own' : Derived (fun _ => True) (grid g') := .expanded source expanded
  have same : g.length = g'.length := by rw [length, length'', length']
  have alike (i j : UInt64) : g.allows i j = g'.allows i j := by
    rw [Bool.eq_iff_iff, image.allows_iff, image'.allows_iff, same]
  exact ⟨g, t, g', painted, built, expanded, derived_imaged.1 g own, derived_imaged.1 g' own',
    derived_imaged.2 g g' own own' same fun i _ j _ => alike i j⟩

end Mask
end AttentionMask
