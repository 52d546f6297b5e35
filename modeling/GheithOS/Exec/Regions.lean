import GheithOS.MemoryMapping.Disjoint

/-!
# GheithOS.Exec.Regions — a mapping as a list of regions

What `map` with an address does, on a plain list of entries: an address is taken if it lies in the
last region that does not start above it, and a new region is accepted if neither its first nor its
last byte is taken.  `Tracks` connects the list to the tree of a process.
-/

namespace GheithOS.Exec

open Lib BitTree MemoryMapping Function

abbrev Regions := List VirtualMemoryEntry

/-- The address lies in the last region that does not start above it. -/
def Taken (regions : Regions) (a : ℕ) : Prop :=
  ∃ e ∈ regions, (e.start ≤ a ∧ a < e.start + e.size) ∧ ∀ e' ∈ regions, e'.start ≤ a → e'.start ≤ e.start

instance (regions : Regions) (a : ℕ) : Decidable (Taken regions a) :=
  inferInstanceAs (Decidable (∃ e ∈ regions, _))

/-- The range is accepted as a new region. -/
def Accepts (regions : Regions) (start size : ℕ) : Prop :=
  start % frameSize = 0 ∧ start + size ≤ sharedAddress ∧ ¬ Taken regions start ∧
  ¬ Taken regions (start + size - 1)

instance (regions : Regions) (start size : ℕ) : Decidable (Accepts regions start size) :=
  inferInstanceAs (Decidable (_ ∧ _ ∧ _ ∧ _))

theorem taken_iff {regions : Regions} {a : ℕ} :
    Taken regions a ↔ ∃ e, Last (· ∈ regions) a e ∧ a < e.start + e.size := by
  constructor
  · rintro ⟨e, he, ⟨hle, hlt⟩, hlast⟩
    exact ⟨e, ⟨he, hle, hlast⟩, hlt⟩
  · rintro ⟨e, ⟨he, hle, hlast⟩, hlt⟩
    exact ⟨e, he, ⟨hle, hlt⟩, hlast⟩

/-! ### The tree of a process -/

/-- The tree `t` has the entries of the list. -/
structure Tracks (s : Mappings) (t : ℕ) (A : ℕ → ℕ → Option VirtualMemoryEntry)
    (regions : Regions) : Prop where
  runs : FamilyRuns params s A
  tree : t ∈ s.trees
  ok : EntriesOk (A t)
  mem : ∀ e, e ∈ regions ↔ ∃ k < keys, A t k = some e

namespace Tracks

variable {s : Mappings} {t a : ℕ} {A : ℕ → ℕ → Option VirtualMemoryEntry} {regions : Regions}

theorem lookupFloor_iff (h : Tracks s t A regions) (ha : a < 2 ^ 32) {e : VirtualMemoryEntry} :
    lookupFloor s t a = some e ↔ Last (· ∈ regions) a e := by
  rw [MemoryMapping.lookupFloor_iff h.runs h.tree h.ok ha]
  have hmem : Present (A t) = (· ∈ regions) := funext fun e => propext (h.mem e).symm
  rw [hmem]

theorem isMapped_iff (h : Tracks s t A regions) (ha : a < 2 ^ 32) (b : Bool) :
    (checkAddress s t a b).isMapped = true ↔ Taken regions a := by
  rw [checkAddress_iff h.runs h.tree h.ok, taken_iff]
  simp only [h.lookupFloor_iff ha]
  exact exists_congr fun e => and_congr_right fun hlast => and_iff_right hlast.2.1

theorem place_eq (h : Tracks s t A regions) {start size : ℕ} (hstart : userMemStart ≤ start)
    (hlt : start < 2 ^ 32) (hpos : 0 < size) (hsize : size < 2 ^ 32)
    (haligned : size % frameSize = 0) :
    place s t start size = if Accepts regions start size then .ok start else .error .EINVAL := by
  have h0 : start ≠ 0 := by
    unfold userMemStart at hstart
    omega
  unfold place
  by_cases haddr : start % frameSize = 0
  swap
  · rw [if_pos (.inr (.inl haddr)), if_neg fun hacc => haddr hacc.1]
  rw [if_neg (by omega), if_pos h0]
  have hbounds := checkBounds_iff hlt hsize hstart
  by_cases hup : start + size ≤ sharedAddress
  swap
  · rw [if_pos (.inr (by simpa [← hbounds] using hup)), if_neg fun hacc => hup hacc.2.1]
  have hend : start + size < 2 ^ 32 := by
    unfold sharedAddress at hup
    omega
  have hlast : (start + size + 2 ^ 32 - 1) % 2 ^ 32 = start + size - 1 := by omega
  rw [if_neg (by simpa [hbounds.mpr hup] using hstart), hlast]
  simp only [h.isMapped_iff hlt, h.isMapped_iff (show start + size - 1 < 2 ^ 32 by omega)]
  by_cases hfirst : Taken regions start
  · rw [if_pos hfirst, if_neg fun hacc => hacc.2.2.1 hfirst]
  rw [if_neg hfirst]
  by_cases hlasth : Taken regions (start + size - 1)
  · rw [if_pos hlasth, if_neg fun hacc => hacc.2.2.2 hlasth]
  · rw [if_neg hlasth, if_pos ⟨haddr, hup, hfirst, hlasth⟩]

theorem slot_empty (h : Tracks s t A regions) {start size k : ℕ} (hacc : Accepts regions start size)
    (hk : params.key start = some k) : A t k = none := by
  obtain ⟨haligned, -, hfree, -⟩ := hacc
  obtain ⟨hlow, hkey, hlt⟩ := key_eq_some.mp hk
  cases hentry : A t k with
  | none => rfl
  | some e =>
    -- an entry in the slot starts at the address, and no other one does
    have hOk := h.ok k hlt e hentry
    have hstart : e.start = start := by
      have := hOk.start_eq
      unfold userMemStart frameSize at *
      omega
    refine absurd ⟨e, (h.mem e).mpr ⟨k, hlt, hentry⟩, ⟨hstart.le, ?_⟩, fun e' _ hle => ?_⟩ hfree
    · have := hOk.pos
      omega
    · omega

theorem mem_update {M : ℕ → Option VirtualMemoryEntry}
    (hmem : ∀ e, e ∈ regions ↔ ∃ k < keys, M k = some e) {k : ℕ} (hk : k < keys)
    (hempty : M k = none) (new e : VirtualMemoryEntry) :
    e ∈ new :: regions ↔ ∃ j < keys, update M k (some new) j = some e := by
  rw [List.mem_cons, hmem]
  constructor
  · rintro (rfl | ⟨j, hj, hje⟩)
    · exact ⟨k, hk, update_self k _ M⟩
    · have hne : j ≠ k := by
        rintro rfl
        simp [hempty] at hje
      exact ⟨j, hj, by rwa [update_of_ne hne]⟩
  · rintro ⟨j, hj, hje⟩
    by_cases hjk : j = k
    · subst hjk
      rw [update_self] at hje
      exact .inl (Option.some.inj hje).symm
    · rw [update_of_ne hjk] at hje
      exact .inr ⟨j, hj, hje⟩

/-- `map` at an address adds a region, or leaves the list as it is. -/
theorem map (h : Tracks s t A regions) {start size : ℕ} (hstart : userMemStart ≤ start)
    (hlt : start < 2 ^ 32) (hpos : 0 < size) (hsize : size < 2 ^ 32)
    (haligned : size % frameSize = 0) (file : Option ℕ) (fileOffset fileSize : ℕ) :
    (∃ A', Tracks (MemoryMapping.map s t start size file fileOffset fileSize).1 t A'
      (if Accepts regions start size then ⟨start, size, file, fileOffset,
        fileSize⟩ :: regions else regions)) ∧
    (MemoryMapping.map s t start size file fileOffset fileSize).2 =
      if Accepts regions start size then .ok start else .error .EINVAL := by
  have hplace := h.place_eq hstart hlt hpos hsize haligned
  by_cases hacc : Accepts regions start size
  · rw [if_pos hacc] at hplace
    simp only [if_pos hacc]
    have haddr := hacc.1
    have hup := hacc.2.1
    have hk := key_of_word hstart hlt
    obtain ⟨-, -, hkeys⟩ := key_eq_some.mp hk
    obtain ⟨hruns, htrees⟩ := map_runs h.runs h.tree file fileOffset fileSize hplace hk
    refine ⟨⟨_, hruns, by rw [htrees]; exact h.tree, ?_, ?_⟩, ?_⟩
    · rw [update_self]
      refine h.ok.update ?_
      rintro _ ⟨⟩
      exact InUser.ok ⟨hpos, haddr, haligned, hstart, hup⟩ hk file fileOffset fileSize
    · rw [update_self]
      exact mem_update h.mem hkeys (h.slot_empty hacc hk) _
    · unfold MemoryMapping.map
      rw [hplace]
  · rw [if_neg hacc] at hplace
    simp only [if_neg hacc]
    have hmap : MemoryMapping.map s t start size file fileOffset fileSize = (s, .error .EINVAL) := by
      unfold MemoryMapping.map
      rw [hplace]
    rw [hmap]
    exact ⟨⟨A, h⟩, rfl⟩

end Tracks

end GheithOS.Exec
