/-! Lists of writes to an array, carried out one after another. A place that no entry names
keeps its value; a place whose entries agree ends with the value they give, in whatever
order they come. -/

namespace AttentionMask.Writes

variable {α ι : Type}

/-- Each entry is a place and the value written there. -/
def apply (image : Array α) (entries : List (Nat × α)) : Array α :=
  entries.foldl (fun image entry => image.setIfInBounds entry.1 entry.2) image

theorem foldl_apply (entries : ι → List (Nat × α)) (order : List ι) (image : Array α) :
    order.foldl (fun image i => apply image (entries i)) image =
      apply image (order.flatMap entries) :=
  List.foldl_flatMap.symm

@[simp] theorem size_apply (image : Array α) (entries : List (Nat × α)) :
    (apply image entries).size = image.size := by
  induction entries generalizing image with
  | nil => rfl
  | cons entry rest ih => exact (ih _).trans Array.size_setIfInBounds

theorem getElem?_apply_of_notMem {entries : List (Nat × α)} {place : Nat}
    (absent : ∀ value, (place, value) ∉ entries) (image : Array α) :
    (apply image entries)[place]? = image[place]? := by
  induction entries generalizing image with
  | nil => rfl
  | cons entry rest ih =>
      have other : entry.1 ≠ place := by
        intro same
        exact absent entry.2 (by rw [← same]; exact List.mem_cons_self)
      have later : ∀ value, (place, value) ∉ rest :=
        fun value listed => absent value (List.mem_cons_of_mem entry listed)
      exact (ih later _).trans (Array.getElem?_setIfInBounds_ne other)

/-- The last entry for a place decides, so entries that agree decide in any order. -/
theorem getElem?_apply_of_mem {entries : List (Nat × α)} {place : Nat} {value : α}
    (listed : (place, value) ∈ entries) (agree : ∀ v, (place, v) ∈ entries → v = value)
    {image : Array α} (inside : place < image.size) :
    (apply image entries)[place]? = some value := by
  induction entries generalizing image with
  | nil => cases listed
  | cons entry rest ih =>
      have agree' : ∀ v, (place, v) ∈ rest → v = value :=
        fun v later => agree v (List.mem_cons_of_mem entry later)
      by_cases later : (place, value) ∈ rest
      · exact ih later agree' (by rw [Array.size_setIfInBounds]; exact inside)
      · have own : (place, value) = entry := (List.mem_cons.mp listed).resolve_right later
        have absent : ∀ v, (place, v) ∉ rest := by
          intro v again
          rw [agree' v again] at again
          exact later again
        subst own
        exact (getElem?_apply_of_notMem absent _).trans
          (Array.getElem?_setIfInBounds_self_of_lt inside)

/-- Entries that agree may be carried out in any order. -/
theorem apply_congr {entries entries' : List (Nat × α)}
    (agree : ∀ place v v', (place, v) ∈ entries → (place, v') ∈ entries → v = v')
    (same : ∀ entry, entry ∈ entries' ↔ entry ∈ entries) (image : Array α) :
    apply image entries' = apply image entries := by
  refine Array.ext_getElem? fun place => ?_
  by_cases named : ∃ value, (place, value) ∈ entries
  · obtain ⟨value, listed⟩ := named
    by_cases inside : place < image.size
    · rw [getElem?_apply_of_mem listed (fun v also => agree place v value also listed) inside,
        getElem?_apply_of_mem ((same _).mpr listed)
          (fun v also => agree place v value ((same _).mp also) listed) inside]
    · rw [Array.getElem?_eq_none (by rw [size_apply]; omega),
        Array.getElem?_eq_none (by rw [size_apply]; omega)]
  · rw [getElem?_apply_of_notMem fun value listed => named ⟨value, listed⟩,
      getElem?_apply_of_notMem fun value listed => named ⟨value, (same _).mp listed⟩]

def ones (places : List Nat) : List (Nat × UInt8) :=
  places.map fun place => (place, 1)

theorem mem_ones {places : List Nat} {place : Nat} {value : UInt8} :
    (place, value) ∈ ones places ↔ place ∈ places ∧ value = 1 := by
  simp only [ones, List.mem_map, Prod.mk.injEq]
  exact ⟨fun ⟨_, listed, same, one⟩ => ⟨same ▸ listed, one.symm⟩,
    fun ⟨listed, one⟩ => ⟨place, listed, rfl, one.symm⟩⟩

theorem getElem?_ones_of_mem {places : List Nat} {place : Nat} (listed : place ∈ places)
    {image : Array UInt8} (inside : place < image.size) :
    (apply image (ones places))[place]? = some 1 :=
  getElem?_apply_of_mem (mem_ones.mpr ⟨listed, rfl⟩) (fun _ also => (mem_ones.mp also).2) inside

theorem getElem?_ones_of_notMem {places : List Nat} {place : Nat} (absent : place ∉ places)
    (image : Array UInt8) : (apply image (ones places))[place]? = image[place]? :=
  getElem?_apply_of_notMem (fun _ listed => absent (mem_ones.mp listed).1) image

end AttentionMask.Writes
