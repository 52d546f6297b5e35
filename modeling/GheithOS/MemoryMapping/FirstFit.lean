import GheithOS.MemoryMapping.Disjoint

/-!
# GheithOS.MemoryMapping.FirstFit — `map` without an address

`map(0, size)` looks for room from the start of user memory on, from entry to entry.  On a mapping
whose entries are disjoint the search ends, finds the least address with room, and finds one if
there is any (`map_first_fit`).
-/

namespace GheithOS.MemoryMapping

open Lib BitTree Function

/-- There is room for `size` bytes at `a`. -/
def Fits (M : ℕ → Option VirtualMemoryEntry) (size a : ℕ) : Prop := InUser a size ∧ Free M a size

variable {s : Mappings} {A : ℕ → ℕ → Option VirtualMemoryEntry}
  {M M' : ℕ → Option VirtualMemoryEntry} {t a k size : ℕ}

theorem fits_congr (h : ∀ k < keys, M' k = M k) : Fits M' size a ↔ Fits M size a := by
  refine and_congr_right fun _ => ?_
  constructor
  · intro hf k hk e he
    exact hf k hk e ((h k hk).trans he)
  · intro hf k hk e he
    exact hf k hk e ((h k hk).symm.trans he)

theorem Fits.key_free (hM : EntriesOk M) (h : Fits M size a) (hk : params.key a = some k) : M k = none := by
  by_contra hc
  obtain ⟨e, he⟩ := Option.ne_none_iff_exists'.mp hc
  obtain ⟨h1, h2, h3⟩ := key_eq_some.mp hk
  have hOk := hM k h3 e he
  have hstart := hOk.start_eq
  have hpos := hOk.pos
  have hfree := h.2 k h3 e he
  have hin := h.1.pos
  have hal := h.1.start_aligned
  unfold userMemStart frameSize at *
  omega

theorem place_zero (hpos : 0 < size) (hal : size % frameSize = 0) :
    place s t 0 size = if findRoom s t size findRoomFuel userMemStart = 0 then .error .ENOMEM
      else .ok (findRoom s t size findRoomFuel userMemStart) := by
  unfold place
  rw [if_neg, if_neg]
  · simp
  · simp [hal]
    omega

/-- **First fit.**  On a mapping with disjoint entries, `map(0, size)` ends; it takes the least
address with room and adds the one entry there, or there is none and it changes nothing. -/
theorem map_first_fit (h : FamilyRuns params s A) (ht : t ∈ s.trees) (hM : EntriesOk (entries s t))
    (hd : Apart (entries s t)) (hpos : 0 < size) (hal : size % frameSize = 0) (hs : size < 2 ^ 32)
    (file : Option ℕ) (fileOffset fileSize : ℕ) :
    FindRoomEnds s t size findRoomFuel userMemStart ∧
    ((∃ a, Fits (entries s t) size a) → ∃ a k, IsLeast {a | Fits (entries s t) size a} a ∧
      (map s t 0 size file fileOffset fileSize).2 = .ok a ∧ params.key a = some k ∧ entries s t k = none ∧
      ∀ t' ∈ s.trees, ∀ k' < keys, entries (map s t 0 size file fileOffset fileSize).1 t' k' =
        if t' = t ∧ k' = k then some ⟨a, size, file, fileOffset, fileSize⟩ else entries s t' k') ∧
    ((¬∃ a, Fits (entries s t) size a) →
      map s t 0 size file fileOffset fileSize = (s, .error .ENOMEM)) := by
  have hsame : ∀ k < keys, entries s t k = A t k := fun k hk => entries_eq h ht hk
  have hMA : EntriesOk (A t) := fun k hk e he => hM k hk e ((hsame k hk).trans he)
  have hdA : Apart (A t) := fun k hk k' hk' hne e e' he he' =>
    hd k hk k' hk' hne e e' ((hsame k hk).trans he) ((hsame k' hk').trans he')
  obtain ⟨hends, hroom, hfirst⟩ := findRoom_start h ht hMA hs
  obtain ⟨hfree, hleast⟩ := hfirst hdA
  have hplace := place_zero (s := s) (t := t) hpos hal
  refine ⟨hends, ?_, fun hnone => ?_⟩
  · rintro ⟨q, hq⟩
    have hqA := (fits_congr hsame).mp hq
    have hne := (hleast q hqA.1.lower hqA.1.upper hqA.2).1
    obtain ⟨h1, h2, h3⟩ := hroom hne
    have hfits : Fits (entries s t) size (findRoom s t size findRoomFuel userMemStart) :=
      (fits_congr hsame).mpr ⟨⟨hpos, h1, hal, h2, h3⟩, hfree hne⟩
    rw [if_neg hne] at hplace
    have hkey := key_of_word h2 (by unfold sharedAddress at h3; omega)
    obtain ⟨hruns, htrees⟩ := map_runs h ht file fileOffset fileSize hplace hkey
    refine ⟨_, _, ⟨hfits, fun q' hq' => ?_⟩, ?_, hkey, hfits.key_free hM hkey, fun t' ht' k' hk' => ?_⟩
    · have hq'A := (fits_congr hsame).mp hq'
      exact (hleast q' hq'A.1.lower hq'A.1.upper hq'A.2).2
    · unfold map
      rw [hplace]
    · rw [entries_eq hruns (htrees ▸ ht') hk']
      by_cases htt : t' = t
      · subst htt
        rw [update_self]
        by_cases hkk : k' = (findRoom s t' size findRoomFuel userMemStart - userMemStart) / frameSize
        · rw [if_pos ⟨rfl, hkk⟩, hkk, update_self]
        · rw [if_neg fun hc => hkk hc.2, update_of_ne hkk, hsame k' hk']
      · rw [if_neg fun hc => htt hc.1, update_of_ne htt, entries_eq h ht' hk']
  · have hzero : findRoom s t size findRoomFuel userMemStart = 0 := by
      by_contra hne
      obtain ⟨h1, h2, h3⟩ := hroom hne
      exact hnone ⟨_, (fits_congr hsame).mpr ⟨⟨hpos, h1, hal, h2, h3⟩, hfree hne⟩⟩
    rw [if_pos hzero] at hplace
    unfold map
    rw [hplace]

theorem entries_onePage (hk : k < keys) :
    entries onePage 0 k = if k = 1 then some ⟨0x80001000, 0x1000, none, 0, 0⟩ else none := by
  have hempty : FamilyRuns params emptyMapping fun _ _ => none := FamilyRuns.start _
  obtain ⟨hruns, -⟩ := map_runs hempty (show 0 ∈ [0] by decide) none 0 0
    (show place emptyMapping 0 0x80001000 0x1000 = .ok 0x80001000 by decide)
      (by decide : params.key 0x80001000 = some 1)
  rw [show onePage = (map emptyMapping 0 0x80001000 0x1000 none 0 0).1 from rfl,
    entries_eq hruns (by decide) hk, update_self]
  by_cases hk1 : k = 1
  · rw [if_pos hk1, hk1, update_self]
  · rw [if_neg hk1, update_of_ne hk1]

/-- A page in front of the one that is mapped. -/
theorem map_first_fit_one_page : Fits (entries onePage 0) 0x1000 0x80000000 ∧
    ∃ a k, IsLeast {a | Fits (entries onePage 0) 0x1000 a} a ∧ (map onePage 0 0 0x1000 none 0 0).2 = .ok a ∧
      params.key a = some k ∧ entries onePage 0 k = none := by
  obtain ⟨A, hA, hI⟩ := reach_onePage.runs
  have ht : 0 ∈ onePage.trees := by decide
  have hsame : ∀ k < keys, entries onePage 0 k = A 0 k := fun k hk => entries_eq hA ht hk
  have hfits : Fits (entries onePage 0) 0x1000 0x80000000 := by
    refine ⟨⟨by decide, by decide, by decide, by decide, by decide⟩, fun k hk e he => ?_⟩
    rw [entries_onePage hk] at he
    split at he
    · obtain rfl := Option.some.inj he
      exact .inr (by decide)
    · simp at he
  obtain ⟨-, hroom, -⟩ := map_first_fit hA ht
    (fun k hk e he => (hI 0 ht).1 k hk e ((hsame k hk).symm.trans he))
    (fun k hk k' hk' hne e e' he he' =>
      (hI 0 ht).2 k hk k' hk' hne e e' ((hsame k hk).symm.trans he) ((hsame k' hk').symm.trans he'))
    (show 0 < 0x1000 by decide) (by decide) (by decide) none 0 0
  obtain ⟨a, k, h1, h2, h3, h4, -⟩ := hroom ⟨_, hfits⟩
  exact ⟨hfits, a, k, h1, h2, h3, h4⟩

end GheithOS.MemoryMapping
