import GheithOS.MemoryMapping.Model

/-!
# GheithOS.MemoryMapping.Disjoint — the entries of a mapping

What `map` accepts lies on whole pages of user memory, in every state.  Whether it is apart from the
entries that exist is another matter: a call with an address looks at the first and the last byte
only, so an entry strictly between them goes unnoticed (`overlapping_entries`).  Without such a call
the entries of every mapping are disjoint, and `check_address` answers for all of them
(`mappings_disjoint`).
-/

namespace GheithOS.MemoryMapping

open Lib BitTree Function

/-! ### Entries -/

namespace VirtualMemoryEntry

/-- The addresses of an entry. -/
def Covers (e : VirtualMemoryEntry) (a : ℕ) : Prop := e.start ≤ a ∧ a < e.start + e.size

/-- An entry of user memory, stored under its key. -/
structure Ok (k : ℕ) (e : VirtualMemoryEntry) : Prop where
  pos : 0 < e.size
  start_aligned : e.start % frameSize = 0
  size_aligned : e.size % frameSize = 0
  lower : userMemStart ≤ e.start
  upper : e.start + e.size ≤ sharedAddress
  key : params.key e.start = some k

end VirtualMemoryEntry

/-- The number of keys. -/
def keys : ℕ := 32 ^ params.levels

def EntriesOk (M : ℕ → Option VirtualMemoryEntry) : Prop := ∀ k < keys, ∀ e, M k = some e → e.Ok k

/-- Distinct entries have no address in common. -/
def Apart (M : ℕ → Option VirtualMemoryEntry) : Prop :=
  ∀ k < keys, ∀ k' < keys, k ≠ k' → ∀ e e', M k = some e → M k' = some e' →
    ∀ a, ¬ (e.Covers a ∧ e'.Covers a)

/-- The entry is one of the mapping. -/
def Present (M : ℕ → Option VirtualMemoryEntry) (e : VirtualMemoryEntry) : Prop := ∃ k < keys, M k = some e

/-- Of some entries, the last one that does not start above the address. -/
def Last (P : VirtualMemoryEntry → Prop) (a : ℕ) (e : VirtualMemoryEntry) : Prop :=
  P e ∧ e.start ≤ a ∧ ∀ e', P e' → e'.start ≤ a → e'.start ≤ e.start

/-- An entry covers the address. -/
def Mapped (M : ℕ → Option VirtualMemoryEntry) (a : ℕ) : Prop := ∃ k < keys, ∃ e, M k = some e ∧ e.Covers a

variable {a : ℕ}

theorem key_eq_some {k : ℕ} :
    params.key a = some k ↔ userMemStart ≤ a ∧ (a - userMemStart) / frameSize = k ∧ k < keys := by
  have hp : params.offset = userMemStart ∧ params.divisor = frameSize ∧ 32 ^ params.levels = keys :=
    ⟨rfl, rfl, rfl⟩
  unfold Params.key
  rw [hp.1, hp.2.1, hp.2.2]
  constructor
  · intro h
    split at h
    · rename_i hc
      obtain rfl := Option.some.inj h
      exact ⟨hc.1, rfl, hc.2⟩
    · simp at h
  · rintro ⟨h1, rfl, h3⟩
    rw [if_pos ⟨h1, h3⟩]

theorem key_of_word (h1 : userMemStart ≤ a) (h2 : a < 2 ^ 32) :
    params.key a = some ((a - userMemStart) / frameSize) := by
  refine key_eq_some.mpr ⟨h1, rfl, ?_⟩
  have : keys = 1048576 := by decide
  unfold userMemStart frameSize at *
  omega

variable {M : ℕ → Option VirtualMemoryEntry} {e e' : VirtualMemoryEntry} {k k' a : ℕ}

theorem VirtualMemoryEntry.Ok.start_eq (h : e.Ok k) : e.start = userMemStart + k * frameSize := by
  obtain ⟨h1, h2, -⟩ := key_eq_some.mp h.key
  have h3 := h.start_aligned
  unfold userMemStart frameSize at *
  omega

theorem VirtualMemoryEntry.Ok.lt (h : e.Ok k) : e.start + e.size < 2 ^ 32 := by
  have := h.upper
  unfold sharedAddress at this
  omega

theorem Apart.le (hd : Apart M) (hM : EntriesOk M) (hk : k < keys) (hk' : k' < keys) (hlt : k < k')
    (he : M k = some e) (he' : M k' = some e') : e.start + e.size ≤ e'.start := by
  have h1 := hM k hk e he
  have h2 := hM k' hk' e' he'
  have h3 := hd k hk k' hk' (by omega) e e' he he' e'.start
  have h4 := h1.start_eq
  have h5 := h2.start_eq
  have h6 := h2.pos
  unfold VirtualMemoryEntry.Covers at h3
  unfold userMemStart frameSize at *
  omega

/-! ### Lookups -/

section Lookups

variable {s : Mappings} {A : ℕ → ℕ → Option VirtualMemoryEntry} {t : ℕ}

theorem params_valid : params.Valid := ⟨by decide, by decide⟩

section Tree

variable (h : FamilyRuns params s A) (ht : t ∈ s.trees)
include h ht

theorem lookupFloor_spec (hk : params.key a = some k) :
    Nearest true (A t) keys k (lookupFloor s t a) := by
  obtain ⟨L, lvl, H⟩ := h.shared params_valid (by decide)
  have := (H.on params_valid ht (.lookupFloor a) trivial).1
  simp only [Op.Answer, hk] at this
  exact this

theorem lookupCeil_spec (hk : params.key a = some k) :
    Nearest false (A t) keys k (lookupCeil s t a) := by
  obtain ⟨L, lvl, H⟩ := h.shared params_valid (by decide)
  have := (H.on params_valid ht (.lookupCeil a) trivial).1
  simp only [Op.Answer, hk] at this
  exact this

theorem lookupFloor_none (hk : params.key a = none) : lookupFloor s t a = none := by
  obtain ⟨L, lvl, H⟩ := h.shared params_valid (by decide)
  have := (H.on params_valid ht (.lookupFloor a) trivial).1
  simp only [Op.Answer, hk] at this
  exact this

variable (hM : EntriesOk (A t))
include hM

/-- The entry that `lookup_floor` returns for an address: the last one that does not start above
it. -/
theorem lookupFloor_some (he : lookupFloor s t a = some e) :
    ∃ k < keys, A t k = some e ∧ e.start ≤ a ∧
      ∀ k' < keys, ∀ e', A t k' = some e' → e'.start ≤ a → k' ≤ k := by
  cases hk : params.key a with
  | none => simp [lookupFloor_none h ht hk] at he
  | some ka =>
    have hn := lookupFloor_spec h ht hk
    rw [he] at hn
    obtain ⟨h1, h2, h3⟩ := key_eq_some.mp hk
    cases hn with
    | @found j _ lt side here nearest =>
      have hj := (hM j lt e here).start_eq
      simp only [Side, ite_true] at side nearest
      refine ⟨j, lt, here, ?_, fun k' hk' e' he' hle => nearest k' hk' ?_ (by simp [he'])⟩
      · unfold userMemStart frameSize at *
        omega
      · have := (hM k' hk' e' he').start_eq
        unfold userMemStart frameSize at *
        omega

theorem lookupFloor_eq_none (ha : a < 2 ^ 32)
    (he : lookupFloor s t a = none) (hk : k < keys) (hek : A t k = some e) : a < e.start := by
  by_contra hc
  have hOk := hM k hk e hek
  have hlow := hOk.lower
  have hka := key_of_word (by omega) ha
  have hn := lookupFloor_spec h ht hka
  rw [he] at hn
  cases hn with
  | none empty =>
    have hstart := hOk.start_eq
    have hside : Side true k ((a - userMemStart) / frameSize) := by
      simp only [Side, ite_true]
      unfold userMemStart frameSize at *
      omega
    simp [empty k hk hside] at hek

/-- `lookup_floor` finds the last entry that does not start above the address. -/
theorem lookupFloor_iff (ha : a < 2 ^ 32) :
    lookupFloor s t a = some e ↔ Last (Present (A t)) a e := by
  constructor
  · intro hf
    obtain ⟨k, hk, hek, hle, hmax⟩ := lookupFloor_some h ht hM hf
    refine ⟨⟨k, hk, hek⟩, hle, ?_⟩
    rintro e' ⟨k', hk', hek'⟩ hle'
    have := hmax k' hk' e' hek' hle'
    rw [(hM k hk e hek).start_eq, (hM k' hk' e' hek').start_eq]
    unfold frameSize
    omega
  · rintro ⟨⟨k, hk, hek⟩, hle, hlast⟩
    cases hf : lookupFloor s t a with
    | none =>
      have := lookupFloor_eq_none h ht hM ha hf hk hek
      omega
    | some e' =>
      obtain ⟨k', hk', hek', hle', hmax⟩ := lookupFloor_some h ht hM hf
      have hbefore := hmax k hk e hek hle
      have hafter := hlast e' ⟨k', hk', hek'⟩ hle'
      have hs := (hM k hk e hek).start_eq
      have hs' := (hM k' hk' e' hek').start_eq
      obtain rfl : k = k' := by
        unfold frameSize at hs hs'
        omega
      exact hek'.symm.trans hek

/-- The entry that `lookup_ceil` returns for a page: the first one that does not start below it. -/
theorem lookupCeil_some (hp : a % frameSize = 0)
    (hlow : userMemStart ≤ a) (ha : a < 2 ^ 32) (he : lookupCeil s t a = some e) :
    ∃ k < keys, A t k = some e ∧ a ≤ e.start ∧ ∀ k' < keys, ∀ e', A t k' = some e' →
      a ≤ e'.start → k ≤ k' := by
  have hn := lookupCeil_spec h ht (key_of_word hlow ha)
  rw [he] at hn
  cases hn with
  | @found j _ lt side here nearest =>
    have hj := (hM j lt e here).start_eq
    simp only [Side, Bool.false_eq_true, ite_false] at side nearest
    refine ⟨j, lt, here, ?_, fun k' hk' e' he' hle => nearest k' hk' ?_ (by simp [he'])⟩
    · unfold userMemStart frameSize at *
      omega
    · have := (hM k' hk' e' he').start_eq
      unfold userMemStart frameSize at *
      omega

theorem lookupCeil_eq_none (hlow : userMemStart ≤ a) (ha : a < 2 ^ 32)
    (he : lookupCeil s t a = none) (hk : k < keys) (hek : A t k = some e) : e.start < a := by
  by_contra hc
  have hn := lookupCeil_spec h ht (key_of_word hlow ha)
  rw [he] at hn
  cases hn with
  | none empty =>
    have hstart := (hM k hk e hek).start_eq
    have hside : Side false k ((a - userMemStart) / frameSize) := by
      simp only [Side, Bool.false_eq_true, ite_false]
      unfold userMemStart frameSize at *
      omega
    simp [empty k hk hside] at hek

theorem checkAddress_iff (b : Bool) :
    (checkAddress s t a b).isMapped = true ↔ ∃ e, lookupFloor s t a = some e ∧ e.Covers a := by
  unfold checkAddress
  cases he : lookupFloor s t a with
  | none => simp
  | some e =>
    obtain ⟨k, hk, hek, hle, -⟩ := lookupFloor_some h ht hM he
    have hlt := (hM k hk e hek).lt
    simp only [Nat.mod_eq_of_lt hlt, Option.some.injEq, exists_eq_left', VirtualMemoryEntry.Covers]
    by_cases hc : a < e.start + e.size
    · simp [hc, hle]
    · simp [hc]

/-- **`check_address`** sees every entry, if they are disjoint. -/
theorem checkAddress_mapped (hd : Apart (A t))
    (ha : a < 2 ^ 32) (b : Bool) : (checkAddress s t a b).isMapped = true ↔ Mapped (A t) a := by
  rw [checkAddress_iff h ht hM]
  constructor
  · rintro ⟨e, he, hc⟩
    obtain ⟨k, hk, hek, -⟩ := lookupFloor_some h ht hM he
    exact ⟨k, hk, e, hek, hc⟩
  · rintro ⟨k, hk, e, hek, hc⟩
    cases he : lookupFloor s t a with
    | none =>
      have := lookupFloor_eq_none h ht hM ha he hk hek
      exact absurd hc.1 (by omega)
    | some e₁ =>
      obtain ⟨k₁, hk₁, hek₁, hle, hmax⟩ := lookupFloor_some h ht hM he
      -- an entry between the two would lie inside the one that covers the address
      have hkk : k = k₁ := by
        by_contra hne
        have hlt : k < k₁ := lt_of_le_of_ne (hmax k hk e hek hc.1) hne
        have := hd.le hM hk hk₁ hlt hek hek₁
        have := hc.2
        omega
      subst hkk
      obtain rfl : e₁ = e := Option.some.inj (hek₁.symm.trans hek)
      exact ⟨e₁, rfl, hc⟩

end Tree

/-! ### Placing an entry -/

/-- The range `[start, start + size)` has no address in common with an entry. -/
def Free (M : ℕ → Option VirtualMemoryEntry) (start size : ℕ) : Prop :=
  ∀ k < keys, ∀ e, M k = some e → e.start + e.size ≤ start ∨ start + size ≤ e.start

/-- Whole pages of user memory. -/
structure InUser (start size : ℕ) : Prop where
  pos : 0 < size
  start_aligned : start % frameSize = 0
  size_aligned : size % frameSize = 0
  lower : userMemStart ≤ start
  upper : start + size ≤ sharedAddress

/-- The guard of the loop, without the wrap-around. -/
theorem guard_iff {page size : ℕ} (hp : 0 < page) (hp' : page ≤ sharedAddress)
    (hs : size < 2 ^ 32) :
    ((page + size) % 2 ^ 32 > size ∧ (page + size) % 2 ^ 32 ≤ sharedAddress) ↔
    page + size ≤ sharedAddress := by
  unfold sharedAddress at *
  omega

/-- The loop of `map` comes to its end within so many rounds. -/
def FindRoomEnds (s : Mappings) (t size : ℕ) : ℕ → ℕ → Prop
  | 0, _ => False
  | rounds + 1, page =>
    (page + size) % 2 ^ 32 > size ∧ (page + size) % 2 ^ 32 ≤ sharedAddress →
    ∀ entry, lookupCeil s t page = some entry →
      (page + size) % 2 ^ 32 ≤ entry.start ∨
      FindRoomEnds s t size rounds ((entry.start + entry.size) % 2 ^ 32)

/-- A round that does not end the loop goes on behind an entry, at least one page further. -/
theorem VirtualMemoryEntry.Ok.next_page (h : e.Ok k) {page : ℕ} (hle : page ≤ e.start) :
    (e.start + e.size) % frameSize = 0 ∧ page + frameSize ≤ e.start + e.size := by
  have h1 := h.pos
  have h2 := h.size_aligned
  have h3 := h.start_aligned
  unfold frameSize at *
  omega

/-- **The search for room** is first fit.  A round moves past one entry, so the rounds suffice; if
the entries are disjoint, the room found is free, and no free range of this size lies in front of
it. -/
theorem findRoom_spec (h : FamilyRuns params s A) (ht : t ∈ s.trees) (hM : EntriesOk (A t)) {size : ℕ}
    (hs' : size < 2 ^ 32) (fuel : ℕ) {page : ℕ} (hal : page % frameSize = 0) (hlow : userMemStart ≤ page)
    (hup : page ≤ sharedAddress) (hfuel : sharedAddress - page < fuel * frameSize) :
    FindRoomEnds s t size fuel page ∧
    (findRoom s t size fuel page ≠ 0 → findRoom s t size fuel page % frameSize = 0 ∧
      page ≤ findRoom s t size fuel page ∧ findRoom s t size fuel page + size ≤ sharedAddress) ∧
    (Apart (A t) → (∀ k < keys, ∀ e, A t k = some e → e.start < page → e.start + e.size ≤ page) →
      (findRoom s t size fuel page ≠ 0 → Free (A t) (findRoom s t size fuel page) size) ∧
      ∀ q, page ≤ q → q + size ≤ sharedAddress → Free (A t) q size →
        findRoom s t size fuel page ≠ 0 ∧ findRoom s t size fuel page ≤ q) := by
  induction fuel generalizing page with
  | zero => omega
  | succ fuel ih =>
    have hpos : page ≠ 0 := by unfold userMemStart at hlow; omega
    have hword : page < 2 ^ 32 := by unfold sharedAddress at hup; omega
    rw [findRoom, FindRoomEnds]
    simp only [guard_iff (Nat.pos_of_ne_zero hpos) hup hs']
    by_cases hg : page + size ≤ sharedAddress
    · have hmod : (page + size) % 2 ^ 32 = page + size :=
        Nat.mod_eq_of_lt (by unfold sharedAddress at hg; omega)
      rw [if_pos hg, hmod]
      cases he : lookupCeil s t page with
      | none =>
        refine ⟨fun _ entry hentry => by simp at hentry, fun _ => ⟨hal, le_rfl, hg⟩,
          fun _ hbelow => ⟨fun _ => ?_, ?_⟩⟩
        · exact fun k hk e hek => .inl (hbelow k hk e hek (lookupCeil_eq_none h ht hM hlow hword he hk hek))
        · exact fun q hq _ _ => ⟨hpos, hq⟩
      | some e₀ =>
        obtain ⟨k₀, hk₀, hek₀, hle, hmin⟩ := lookupCeil_some h ht hM hal hlow hword he
        have hOk := hM k₀ hk₀ e₀ hek₀
        -- the entries that do not start below the page come after this one
        have hafter : Apart (A t) → ∀ k < keys, ∀ e, A t k = some e → page ≤ e.start →
            k = k₀ ∨ e₀.start + e₀.size ≤ e.start := by
          intro hd k hk e hek hpe
          rcases Nat.lt_or_eq_of_le (hmin k hk e hek hpe) with hlt | heq
          · exact .inr (hd.le hM hk₀ hk hlt hek₀ hek)
          · exact .inl heq.symm
        simp only [Option.some.injEq, forall_eq']
        by_cases hfit : page + size ≤ e₀.start
        · simp only [hfit, ite_true]
          refine ⟨fun _ => .inl trivial, fun _ => ⟨hal, le_rfl, hg⟩,
            fun hd hbelow => ⟨fun _ k hk e hek => ?_, ?_⟩⟩
          · by_cases hpe : page ≤ e.start
            · rcases hafter hd k hk e hek hpe with rfl | hge
              · obtain rfl : e₀ = e := Option.some.inj (hek₀.symm.trans hek)
                exact .inr hfit
              · exact .inr (by have := hOk.pos; omega)
            · exact .inl (hbelow k hk e hek (by omega))
          · exact fun q hq _ _ => ⟨hpos, hq⟩
        · simp only [hfit, ite_false, false_or, Nat.mod_eq_of_lt hOk.lt]
          obtain ⟨hal', hstep⟩ := hOk.next_page hle
          have hpage : page ≤ e₀.start + e₀.size := le_trans (Nat.le_add_right _ _) hstep
          have hrest : sharedAddress - (e₀.start + e₀.size) < fuel * frameSize := by
            have hu := hOk.upper
            rw [Nat.add_mul] at hfuel
            unfold frameSize at *
            omega
          obtain ⟨ih₁, ih₂, ih₃⟩ := ih hal' (le_trans hlow hpage) hOk.upper hrest
          refine ⟨fun _ => ih₁, fun h0 => ?_, fun hd hbelow => ?_⟩
          · obtain ⟨h1, h2, h3⟩ := ih₂ h0
            exact ⟨h1, le_trans hpage h2, h3⟩
          · obtain ⟨ih₄, ih₅⟩ := ih₃ hd fun k hk e hek hlt => by
              by_cases hpe : page ≤ e.start
              · rcases hafter hd k hk e hek hpe with rfl | hge
                · obtain rfl : e₀ = e := Option.some.inj (hek₀.symm.trans hek)
                  exact le_rfl
                · omega
              · exact le_trans (hbelow k hk e hek (by omega)) hpage
            refine ⟨ih₄, fun q hq hqs hfree => ih₅ q ?_ hqs hfree⟩
            -- a range that starts before the end of this entry runs into it
            have := hfree k₀ hk₀ e₀ hek₀
            omega
    · rw [if_neg hg]
      refine ⟨fun h => absurd h hg, fun h0 => absurd rfl h0,
        fun _ _ => ⟨fun h0 => absurd rfl h0, fun q hq hqs => ?_⟩⟩
      omega

theorem findRoom_start (h : FamilyRuns params s A) (ht : t ∈ s.trees) (hM : EntriesOk (A t))
    {size : ℕ} (hs' : size < 2 ^ 32) :
    FindRoomEnds s t size findRoomFuel userMemStart ∧
    (findRoom s t size findRoomFuel userMemStart ≠ 0 →
      findRoom s t size findRoomFuel userMemStart % frameSize = 0 ∧
      userMemStart ≤ findRoom s t size findRoomFuel userMemStart ∧
      findRoom s t size findRoomFuel userMemStart + size ≤ sharedAddress) ∧
    (Apart (A t) → (findRoom s t size findRoomFuel userMemStart ≠ 0 →
        Free (A t) (findRoom s t size findRoomFuel userMemStart) size) ∧
      ∀ q, userMemStart ≤ q → q + size ≤ sharedAddress → Free (A t) q size →
        findRoom s t size findRoomFuel userMemStart ≠ 0 ∧
        findRoom s t size findRoomFuel userMemStart ≤ q) := by
  obtain ⟨h1, h2, h3⟩ :=
    findRoom_spec h ht hM hs' findRoomFuel (show userMemStart % frameSize = 0 by decide)
    le_rfl (by decide) (by decide)
  exact ⟨h1, h2, fun hd => h3 hd fun k hk e hek hlt => absurd (hM k hk e hek).lower (by omega)⟩

/-- The arguments of `map` that name an address: the range is inside user memory. -/
theorem checkBounds_iff {start size : ℕ} (hs : start < 2 ^ 32) (hs' : size < 2 ^ 32)
    (hlow : userMemStart ≤ start) :
    checkBounds start size 1 userMemStart (sharedAddress + 1) = true ↔ start + size ≤ sharedAddress := by
  unfold checkBounds
  simp only [Nat.mul_one, Nat.div_one, Nat.mod_eq_of_lt hs', ne_eq, not_true_eq_false, ite_false]
  by_cases hov : (start + size) % 2 ^ 32 < start
  · rw [if_pos hov]
    unfold userMemStart sharedAddress at *
    simp only [Bool.false_eq_true, false_iff]
    omega
  · rw [if_neg hov, decide_eq_true_iff]
    unfold userMemStart sharedAddress at *
    omega

/-- What `map` accepts lies on whole pages of user memory. -/
theorem place_inUser (h : FamilyRuns params s A) (ht : t ∈ s.trees) (hM : EntriesOk (A t))
    {start size : ℕ} (hs : start < 2 ^ 32) (hs' : size < 2 ^ 32)
    (hok : place s t start size = .ok a) : InUser a size ∧ (start ≠ 0 → a = start) := by
  unfold place at hok
  split at hok
  · simp at hok
  rename_i hargs
  simp only [not_or, not_not] at hargs
  by_cases h0 : start = 0
  · rw [if_neg (by simpa using h0)] at hok
    dsimp only at hok
    split at hok
    · simp at hok
    rename_i hr
    obtain rfl := Except.ok.inj hok
    obtain ⟨h1, h2, h3⟩ := (findRoom_start h ht hM hs').2.1 hr
    exact ⟨⟨by omega, h1, hargs.2.2, h2, h3⟩, fun h => absurd h0 h⟩
  · rw [if_pos h0] at hok
    split at hok
    · simp at hok
    rename_i hb
    simp only [not_or, not_lt, Bool.not_eq_false] at hb
    split at hok
    · simp at hok
    split at hok
    · simp at hok
    obtain rfl := Except.ok.inj hok
    exact ⟨⟨by omega, hargs.2.1, hargs.2.2, hb.1, (checkBounds_iff hs hs' hb.1).mp hb.2⟩, fun _ => rfl⟩

/-- An entry strictly inside the range, which the two lookups of `map` do not see. -/
def Encloses (M : ℕ → Option VirtualMemoryEntry) (start size : ℕ) : Prop :=
  ∃ k < keys, ∃ e, M k = some e ∧ start < e.start ∧ e.start + e.size < start + size

/-- **The room that `map` takes is free**, unless the call names an address and the range encloses
an entry. -/
theorem place_free (h : FamilyRuns params s A) (ht : t ∈ s.trees) (hM : EntriesOk (A t)) (hd : Apart (A t))
    {start size : ℕ} (hs : start < 2 ^ 32) (hs' : size < 2 ^ 32) (hok : place s t start size = .ok a)
    (henc : start ≠ 0 → ¬ Encloses (A t) start size) : Free (A t) a size := by
  have hin := place_inUser h ht hM hs hs' hok
  unfold place at hok
  split at hok
  · simp at hok
  by_cases h0 : start = 0
  · rw [if_neg (by simpa using h0)] at hok
    dsimp only at hok
    split at hok
    · simp at hok
    rename_i hr
    obtain rfl := Except.ok.inj hok
    exact ((findRoom_start h ht hM hs').2.2 hd).1 hr
  · rw [if_pos h0] at hok
    split at hok
    · simp at hok
    split at hok
    · simp at hok
    rename_i hfirst
    split at hok
    · simp at hok
    rename_i hlast
    obtain rfl := Except.ok.inj hok
    have hup : start + size < 2 ^ 32 := by
      have := hin.1.upper
      unfold sharedAddress at this
      omega
    have hpos := hin.1.pos
    rw [checkAddress_mapped h ht hM hd hs] at hfirst
    have hend : (start + size + 2 ^ 32 - 1) % 2 ^ 32 = start + size - 1 := by omega
    rw [hend, checkAddress_mapped h ht hM hd (by omega)] at hlast
    intro k hk e hek
    by_contra hc
    -- an entry in the way covers one of the two ends, or neither
    have h1 : ¬ e.Covers start := fun hcov => hfirst ⟨k, hk, e, hek, hcov⟩
    have h2 : ¬ e.Covers (start + size - 1) := fun hcov => hlast ⟨k, hk, e, hek, hcov⟩
    unfold VirtualMemoryEntry.Covers at h1 h2
    exact henc h0 ⟨k, hk, e, hek, by omega, by omega⟩

end Lookups

/-! ### Runs -/

/-- The operations on the mappings of the processes; `copy` is a fork. -/
inductive MappingOp
  | newMapping
  | map (t start size : ℕ) (file : Option ℕ) (fileOffset fileSize : ℕ)
  | unmap (t address : ℕ)
  | clear (t : ℕ)
  | copy (t : ℕ)
  | destroy (t : ℕ)

namespace MappingOp

def exec (s : Mappings) : MappingOp → Mappings
  | newMapping => s.exec params .newTree
  | map t start size file fileOffset fileSize =>
      (MemoryMapping.map s t start size file fileOffset fileSize).1
  | unmap t address => (MemoryMapping.unmap s t address).1
  | clear t => s.exec params (.clear t)
  | copy t => s.exec params (.copy t)
  | destroy t => s.exec params (.destroy t)

/-- The mapping exists, and numbers are 32-bit words. -/
def Allowed (s : Mappings) : MappingOp → Prop
  | newMapping => True
  | map t start size _ _ _ => t ∈ s.trees ∧ start < 2 ^ 32 ∧ size < 2 ^ 32
  | unmap t address => t ∈ s.trees ∧ address < 2 ^ 32
  | clear t => t ∈ s.trees
  | copy t => t ∈ s.trees
  | destroy t => t ∈ s.trees

end MappingOp

/-- One mapping without entries. -/
def emptyMapping : Mappings :=
  ⟨(Store.newTree ⟨fun _ => .empty, fun _ => ⟨0, 0, none, 0, 0⟩, 0, [], [], [], []⟩).1, [0], []⟩

/-- The states reached from an empty mapping by operations that meet the condition `C`. -/
inductive Reach (C : Mappings → MappingOp → Prop) : Mappings → Prop
  | start : Reach C emptyMapping
  | step {s : Mappings} (h : Reach C s) (op : MappingOp) (allowed : op.Allowed s) (cond : C s op) :
      Reach C (op.exec s)

/-- The entries of a mapping, by key. -/
def entries (s : Mappings) (t : ℕ) : ℕ → Option VirtualMemoryEntry := value s.store params.levels t

section Runs

variable {s : Mappings} {A : ℕ → ℕ → Option VirtualMemoryEntry} {t : ℕ}

theorem map_runs (h : FamilyRuns params s A) (ht : t ∈ s.trees) {start size : ℕ} (file : Option ℕ)
    (fileOffset fileSize : ℕ) (hok : place s t start size = .ok a) (hk : params.key a = some k) :
    FamilyRuns params (map s t start size file fileOffset fileSize).1
      (update A t (update (A t) k (some ⟨a, size, file, fileOffset, fileSize⟩))) ∧
    (map s t start size file fileOffset fileSize).1.trees = s.trees := by
  have hmap : (map s t start size file fileOffset fileSize).1 =
      (s.exec params (.newItem ⟨a, size, file, fileOffset, fileSize⟩)).exec params
        (.on t (.insert a s.store.next)) := by
    unfold map
    rw [hok]
    rfl
  rw [hmap]
  have h₁ := h.step (.newItem ⟨a, size, file, fileOffset, fileSize⟩) trivial
  have h₂ := h₁.step (.on t (.insert a s.store.next)) ⟨ht, List.mem_cons_self⟩
  refine ⟨?_, rfl⟩
  have hitem : (s.exec params (.newItem ⟨a, size, file, fileOffset, fileSize⟩)).store.item s.store.next =
      ⟨a, size, file, fileOffset, fileSize⟩ := by
    simp [Family.exec, Store.newItem]
  simp only [Family.after, Op.after, hk, hitem] at h₂
  exact h₂

theorem unmap_runs (h : FamilyRuns params s A) (ht : t ∈ s.trees) (hM : EntriesOk (A t)) (address : ℕ) :
    ((unmap s t address).1 = s ∧ (unmap s t address).2 = ⟨0, 0⟩ ∧
      ∀ e, lookupFloor s t address = some e → ¬ e.Covers address) ∨
    ∃ k < keys, ∃ e, A t k = some e ∧ e.Covers address ∧ (unmap s t address).2 = ⟨e.start, e.size⟩ ∧
      FamilyRuns params (unmap s t address).1 (update A t (update (A t) k none)) ∧
      (unmap s t address).1.trees = s.trees := by
  unfold unmap
  cases he : lookupFloor s t address with
  | none => exact .inl ⟨rfl, rfl, by simp⟩
  | some e =>
    obtain ⟨k, hk, hek, hle, -⟩ := lookupFloor_some h ht hM he
    have hOk := hM k hk e hek
    simp only [Nat.mod_eq_of_lt hOk.lt, ge_iff_le]
    by_cases hc : e.start + e.size ≤ address
    · rw [if_pos hc]
      refine .inl ⟨rfl, rfl, ?_⟩
      rintro e' he' ⟨-, h2⟩
      obtain rfl := Option.some.inj he'
      omega
    · rw [if_neg hc]
      refine .inr ⟨k, hk, e, hek, ⟨hle, by omega⟩, rfl, ?_⟩
      have h₁ := h.step (.on t (.remove e.start)) ⟨ht, trivial⟩
      simp only [Family.after, Op.after, hOk.key] at h₁
      cases hr : (s.store.remove params t e.start).2 with
      | none => exact ⟨h₁, rfl⟩
      | some x =>
        refine ⟨h₁.step (.deleteItem x) ?_, rfl⟩
        show x ∈ heldAfter s.held none (s.store.remove params t e.start).2
        rw [hr]
        simp [heldAfter]

theorem entries_eq (h : FamilyRuns params s A) (ht : t ∈ s.trees) (hk : k < keys) :
    entries s t k = A t k := by
  obtain ⟨L, lvl, H⟩ := h.shared params_valid (by decide)
  exact H.map t ht k hk

variable {C : Mappings → MappingOp → Prop}

/-- **An invariant of the maps** is one that the empty map has, and that insertions by `map` and
removals keep. -/
theorem Reach.maps {I : (ℕ → Option VirtualMemoryEntry) → Prop} (h : Reach C s)
    (h0 : I fun _ => none) (hok : ∀ M, I M → EntriesOk M)
    (hremove : ∀ M k, I M → I (update M k none))
    (hmap : ∀ (s : Mappings) (A : ℕ → ℕ → Option VirtualMemoryEntry) (t start size a k : ℕ)
      (file : Option ℕ) (fileOffset fileSize : ℕ), FamilyRuns params s A → t ∈ s.trees → I (A t) →
    start < 2 ^ 32 → size < 2 ^ 32 → C s (.map t start size file fileOffset fileSize) →
    place s t start size = .ok a → params.key a = some k →
    I (update (A t) k (some ⟨a, size, file, fileOffset, fileSize⟩))) :
    ∃ A, FamilyRuns params s A ∧ ∀ t ∈ s.trees, I (A t) := by
  -- an operation on one tree concerns its own map only
  have hupdate : ∀ {A : ℕ → ℕ → Option VirtualMemoryEntry} {ts : List ℕ} {t : ℕ}
      {M : ℕ → Option VirtualMemoryEntry},
      (∀ t' ∈ ts, t' ≠ t → I (A t')) → I M → ∀ t' ∈ ts, I (update A t M t') := by
    intro A ts t M hA hI t' ht'
    by_cases htt : t' = t
    · rw [htt, update_self]
      exact hI
    · rw [update_of_ne htt]
      exact hA t' ht' htt
  induction h with
  | start => exact ⟨_, FamilyRuns.start _, fun t _ => h0⟩
  | @step s _ op allowed cond ih =>
    obtain ⟨A, hA, hI⟩ := ih
    cases op with
    | newMapping =>
      refine ⟨_, hA.step .newTree trivial, hupdate (fun t' ht' hne => hI t' ?_) h0⟩
      exact (List.mem_cons.mp ht').resolve_left hne
    | map t start size file fileOffset fileSize =>
      obtain ⟨ht, hs, hs'⟩ := allowed
      show ∃ A, FamilyRuns params (map s t start size file fileOffset fileSize).1 A ∧
        ∀ t' ∈ (map s t start size file fileOffset fileSize).1.trees, I (A t')
      cases hp : place s t start size with
      | error e =>
        have : (map s t start size file fileOffset fileSize).1 = s := by unfold map; rw [hp]
        rw [this]
        exact ⟨A, hA, hI⟩
      | ok a =>
        have hin := (place_inUser hA ht (hok _ (hI t ht)) hs hs' hp).1
        have hk := key_of_word hin.lower (by have := hin.upper; unfold sharedAddress at this; omega)
        obtain ⟨h₁, h₂⟩ := map_runs hA ht file fileOffset fileSize hp hk
        refine ⟨_, h₁, ?_⟩
        rw [h₂]
        exact hupdate (fun t' ht' _ => hI t' ht')
          (hmap s A t start size a _ file fileOffset fileSize hA ht (hI t ht) hs hs' cond hp hk)
    | unmap t address =>
      show ∃ A, FamilyRuns params (unmap s t address).1 A ∧ ∀ t' ∈ (unmap s t address).1.trees, I (A t')
      rcases unmap_runs hA allowed.1 (hok _ (hI t allowed.1)) address with
        ⟨h₁, -⟩ | ⟨k, -, e, -, -, -, h₁, h₂⟩
      · rw [h₁]
        exact ⟨A, hA, hI⟩
      · refine ⟨_, h₁, ?_⟩
        rw [h₂]
        exact hupdate (fun t' ht' _ => hI t' ht') (hremove _ k (hI t allowed.1))
    | clear t => exact ⟨_, hA.step (.clear t) allowed, hupdate (fun t' ht' _ => hI t' ht') h0⟩
    | copy t =>
      refine ⟨_, hA.step (.copy t) allowed, hupdate (fun t' ht' hne => hI t' ?_) (hI t allowed)⟩
      exact (List.mem_cons.mp ht').resolve_left hne
    | destroy t => exact ⟨_, hA.step (.destroy t) allowed, fun t' ht' => hI t' (List.mem_of_mem_erase ht')⟩

/-! ### Disjointness -/

theorem InUser.ok {start size : ℕ} (h : InUser start size) (hk : params.key start = some k)
    (file : Option ℕ) (fileOffset fileSize : ℕ) :
    (⟨start, size, file, fileOffset, fileSize⟩ : VirtualMemoryEntry).Ok k :=
  ⟨h.pos, h.start_aligned, h.size_aligned, h.lower, h.upper, hk⟩

theorem EntriesOk.update (hM : EntriesOk M) {v : Option VirtualMemoryEntry}
    (hv : ∀ e, v = some e → e.Ok k) : EntriesOk (Function.update M k v) := by
  intro j hj e he
  by_cases hjk : j = k
  · rw [hjk, update_self] at he
    rw [hjk]
    exact hv e he
  · rw [update_of_ne hjk] at he
    exact hM j hj e he

theorem Apart.remove (hd : Apart M) (k : ℕ) : Apart (update M k none) := by
  intro j hj j' hj' hne e e' he he'
  have hold : ∀ {i : ℕ} {x : VirtualMemoryEntry}, update M k none i = some x → M i = some x := by
    intro i x hx
    by_cases hik : i = k
    · rw [hik, update_self] at hx
      simp at hx
    · rwa [update_of_ne hik] at hx
  exact hd j hj j' hj' hne e e' (hold he) (hold he')

theorem Apart.insert (hd : Apart M) {start size : ℕ} (hfree : Free M start size) (file : Option ℕ)
    (fileOffset fileSize k : ℕ) : Apart (update M k (some ⟨start, size, file, fileOffset, fileSize⟩)) := by
  -- the new entry and an old one
  have hnew : ∀ j < keys, ∀ e, M j = some e → ∀ a,
      ¬ ((⟨start, size, file, fileOffset, fileSize⟩ : VirtualMemoryEntry).Covers a ∧ e.Covers a) := by
    rintro j hj e he a ⟨⟨h1, h2⟩, h3, h4⟩
    have := hfree j hj e he
    simp only at h1 h2
    omega
  intro j hj j' hj' hne e e' he he' a
  by_cases hjk : j = k
  · subst hjk
    rw [update_self] at he
    rw [update_of_ne (Ne.symm hne)] at he'
    obtain rfl := Option.some.inj he
    exact hnew j' hj' e' he' a
  · rw [update_of_ne hjk] at he
    by_cases hjk' : j' = k
    · subst hjk'
      rw [update_self] at he'
      obtain rfl := Option.some.inj he'
      exact fun h => hnew j hj e he a h.symm
    · rw [update_of_ne hjk'] at he'
      exact hd j hj j' hj' hne e e' he he' a

/-- No call of `map` that names an address encloses an entry. -/
def NotEnclosing (s : Mappings) : MappingOp → Prop
  | .map t start size _ _ _ => start ≠ 0 → ¬ Encloses (entries s t) start size
  | _ => True

theorem encloses_congr {M' : ℕ → Option VirtualMemoryEntry} (h : ∀ k < keys, M' k = M k)
    {start size : ℕ} : Encloses M' start size ↔ Encloses M start size := by
  unfold Encloses
  constructor <;> rintro ⟨k, hk, e, he, h1⟩
  · exact ⟨k, hk, e, (h k hk).symm.trans he, h1⟩
  · exact ⟨k, hk, e, (h k hk).trans he, h1⟩

/-- Every entry is one of user memory under its own key, no two have an address in common, and
`check_address` finds an entry exactly where there is one. -/
structure WellFormed (s : Mappings) : Prop where
  ok : ∀ t ∈ s.trees, EntriesOk (entries s t)
  apart : ∀ t ∈ s.trees, Apart (entries s t)
  check : ∀ t ∈ s.trees, ∀ a < 2 ^ 32, ∀ b, (checkAddress s t a b).isMapped = true ↔ Mapped (entries s t) a

theorem wellFormed_of_runs (h : FamilyRuns params s A)
    (hI : ∀ t ∈ s.trees, EntriesOk (A t) ∧ Apart (A t)) : WellFormed s := by
  have he : ∀ t ∈ s.trees, ∀ k < keys, entries s t k = A t k := fun t ht k hk => entries_eq h ht hk
  refine ⟨fun t ht k hk e hek => (hI t ht).1 k hk e ((he t ht k hk).symm.trans hek), ?_, ?_⟩
  · intro t ht k hk k' hk' hne e e' hek hek'
    exact (hI t ht).2 k hk k' hk' hne e e' ((he t ht k hk).symm.trans hek)
      ((he t ht k' hk').symm.trans hek')
  · intro t ht a ha b
    rw [checkAddress_mapped h ht (hI t ht).1 (hI t ht).2 ha]
    constructor <;> rintro ⟨k, hk, e, hek, hc⟩
    · exact ⟨k, hk, e, (he t ht k hk).trans hek, hc⟩
    · exact ⟨k, hk, e, (he t ht k hk).symm.trans hek, hc⟩

theorem Reach.runs (h : Reach NotEnclosing s) :
    ∃ A, FamilyRuns params s A ∧ ∀ t ∈ s.trees, EntriesOk (A t) ∧ Apart (A t) := by
  refine h.maps (I := fun M => EntriesOk M ∧ Apart M) ⟨by simp [EntriesOk], by simp [Apart]⟩
    (fun M hM => hM.1)
    (fun M k hM => ⟨hM.1.update (by simp), hM.2.remove k⟩) ?_
  intro s A t start size a k file fileOffset fileSize hA ht hM hs hs' hcond hp hk
  refine ⟨hM.1.update ?_,
    hM.2.insert (place_free hA ht hM.1 hM.2 hs hs' hp fun h0 => ?_) file fileOffset fileSize k⟩
  · rintro e he
    obtain rfl := Option.some.inj he
    exact (place_inUser hA ht hM.1 hs hs' hp).1.ok hk file fileOffset fileSize
  · rw [← encloses_congr fun k hk => entries_eq hA ht hk]
    exact hcond h0

theorem map_error {start size : ℕ} {file : Option ℕ} {fileOffset fileSize : ℕ} {err : Errno}
    (h : (map s t start size file fileOffset fileSize).2 = .error err) :
    (map s t start size file fileOffset fileSize).1 = s := by
  unfold map at h ⊢
  cases hp : place s t start size with
  | error e => rfl
  | ok a => simp [hp] at h

theorem Reach.family (h : Reach C s) :
    ∃ A, FamilyRuns params s A ∧ ∀ t ∈ s.trees, EntriesOk (A t) := by
  refine h.maps (I := EntriesOk) (by simp [EntriesOk]) (fun _ => id) (fun M k hM => hM.update (by simp)) ?_
  intro s A t start size a k file fileOffset fileSize hA ht hM hs hs' _ hp hk
  refine hM.update ?_
  rintro e he
  obtain rfl := Option.some.inj he
  exact (place_inUser hA ht hM hs hs' hp).1.ok hk file fileOffset fileSize

/-- In every state that is reached, the entries are on whole pages of user memory, under their
keys. -/
theorem Reach.entriesOk (h : Reach C s) (ht : t ∈ s.trees) : EntriesOk (entries s t) := by
  obtain ⟨A, hA, hI⟩ := h.family
  intro k hk e he
  exact hI t ht k hk e ((entries_eq hA ht hk).symm.trans he)

/-- **Disjoint mappings.**  In every run without a call that encloses an entry the mappings are well
formed; such a call, if it is accepted, is what breaks them.  A call of `map` that fails changes
nothing. -/
theorem mappings_disjoint (h : Reach NotEnclosing s) :
    WellFormed s ∧
    (∀ t start size file fileOffset fileSize err,
      (map s t start size file fileOffset fileSize).2 = .error err →
      (map s t start size file fileOffset fileSize).1 = s) ∧
    ∀ t ∈ s.trees, ∀ start < 2 ^ 32, ∀ size < 2 ^ 32, ∀ file fileOffset fileSize a,
      (map s t start size file fileOffset fileSize).2 = .ok a →
      (WellFormed (map s t start size file fileOffset fileSize).1 ↔
        NotEnclosing s (.map t start size file fileOffset fileSize)) := by
  obtain ⟨A, hA, hI⟩ := h.runs
  refine ⟨wellFormed_of_runs hA hI, fun _ _ _ _ _ _ _ => map_error, ?_⟩
  intro t ht start hs size hs' file fileOffset fileSize a hok
  constructor
  · rintro hW h0 ⟨k, hk, e, hek, hlt, hend⟩
    -- the enclosed entry shares its first address with the new one
    have hp : place s t start size = .ok a := by
      unfold map at hok
      cases hp : place s t start size with
      | error err => simp [hp] at hok
      | ok a' =>
        simp only [hp] at hok
        exact congrArg Except.ok (Except.ok.inj hok)
    obtain ⟨hin, rfl⟩ := place_inUser hA ht (hI t ht).1 hs hs' hp |>.imp_right fun h => h h0
    have hka := key_of_word hin.lower hs
    have hklt := (key_eq_some.mp hka).2.2
    obtain ⟨h₁, h₂⟩ := map_runs hA ht file fileOffset fileSize hp hka
    have heA : A t k = some e := (entries_eq hA ht hk).symm.trans hek
    have hkey := (key_eq_some.mp ((hI t ht).1 k hk e heA).key).2.1
    have hal := ((hI t ht).1 k hk e heA).start_aligned
    have hne : (a - userMemStart) / frameSize ≠ k := by
      have := hin.start_aligned
      have := hin.lower
      unfold userMemStart frameSize at *
      omega
    have ht' : t ∈ (map s t a size file fileOffset fileSize).1.trees := by rwa [h₂]
    have hnew : entries (map s t a size file fileOffset fileSize).1 t ((a - userMemStart) / frameSize) =
        some ⟨a, size, file, fileOffset, fileSize⟩ := by
      rw [entries_eq h₁ ht' hklt, update_self, update_self]
    have hold : entries (map s t a size file fileOffset fileSize).1 t k = some e := by
      rw [entries_eq h₁ ht' hk, update_self, update_of_ne (Ne.symm hne), heA]
    have hpos := ((hI t ht).1 k hk e heA).pos
    refine hW.apart t ht' _ hklt k hk hne _ _ hnew hold e.start ⟨⟨?_, ?_⟩, le_rfl, by omega⟩
    · show a ≤ e.start
      omega
    · show e.start < a + size
      omega
  · intro hcond
    obtain ⟨A', hA', hI'⟩ := (h.step (.map t start size file fileOffset fileSize) ⟨ht, hs, hs'⟩ hcond).runs
    exact wellFormed_of_runs hA' hI'

/-- One page, mapped at an address. -/
def onePage : Mappings := (MappingOp.map 0 0x80001000 0x1000 none 0 0).exec emptyMapping

theorem reach_onePage : Reach NotEnclosing onePage := by
  have hempty : ∀ k < keys, entries emptyMapping 0 k = none := fun k hk =>
    entries_eq (FamilyRuns.start _) (show 0 ∈ [0] by decide) hk
  refine Reach.start.step (.map 0 0x80001000 0x1000 none 0 0) ⟨by decide, by decide, by decide⟩ ?_
  rintro - ⟨k, hk, e, he, -⟩
  simp [hempty k hk] at he

/-- Another page behind it. -/
def twoPages : Mappings := (MappingOp.map 0 0x80003000 0x1000 none 0 0).exec onePage

theorem mappings_disjoint_two_pages :
    entries twoPages 0 1 = some ⟨0x80001000, 0x1000, none, 0, 0⟩ ∧
      entries twoPages 0 3 = some ⟨0x80003000, 0x1000, none, 0, 0⟩ ∧ WellFormed twoPages := by
  refine ⟨by decide, by decide, (mappings_disjoint (reach_onePage.step (.map 0 0x80003000 0x1000 none 0 0)
    ⟨by decide, by decide, by decide⟩ ?_)).1⟩
  -- a page does not enclose an entry
  rintro - ⟨k, hk, e, he, hlt, hend⟩
  have haligned := (reach_onePage.entriesOk (by decide) k hk e he).start_aligned
  unfold frameSize at haligned
  omega

/-- Three pages around it. -/
def threePages : Mappings := (MappingOp.map 0 0x80000000 0x3000 none 0 0).exec onePage

/-- **An enclosing call** is accepted: two entries overlap, and `check_address` misses the last of
the three pages. -/
theorem overlapping_entries :
    Reach (fun _ _ => True) threePages ∧ entries threePages 0 0 = some ⟨0x80000000, 0x3000, none, 0, 0⟩ ∧
      entries threePages 0 1 = some ⟨0x80001000, 0x1000, none, 0, 0⟩ ∧
      (checkAddress threePages 0 0x80002000 false).isMapped = false ∧ ¬ WellFormed threePages := by
  have h1 : entries threePages 0 0 = some ⟨0x80000000, 0x3000, none, 0, 0⟩ := by decide
  have h2 : entries threePages 0 1 = some ⟨0x80001000, 0x1000, none, 0, 0⟩ := by decide
  refine ⟨?_, h1, h2, by decide, fun hW => ?_⟩
  · exact (Reach.start.step (.map 0 0x80001000 0x1000 none 0 0)
      ⟨by decide, by decide, by decide⟩ trivial).step
      (.map 0 0x80000000 0x3000 none 0 0) ⟨by decide, by decide, by decide⟩ trivial
  · exact hW.apart 0 (by decide) 0 (by decide) 1 (by decide) (by decide) _ _ h1 h2 0x80001000
      ⟨⟨by decide, by decide⟩, by decide, by decide⟩

end Runs

end GheithOS.MemoryMapping
