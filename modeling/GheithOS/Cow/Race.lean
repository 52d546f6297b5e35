import Mathlib.Data.Fintype.Card
import GheithOS.Lib.Count
import GheithOS.Cow.Entry

/-!
# GheithOS.Cow.Race — `COW::copy` and `COW::unref` of one data frame on several cores

Any number of processes hold one read-only entry each for the data frame `p`; each of them runs at
most one `COW::copy(entry, false)` or `COW::unref(entry, false)`.  A process is a program counter
over the atomic steps of the two functions (`page_locks` and `ref_counts` are `Atomic<uint8_t>` and
`Atomic<uint32_t>`, so a load and an `add_fetch` are one step each), its entry, and the local
`new_frame`.  `step p s i a` lets process `i` take its next step; `a` is the frame address the
allocator hands out when that step is `alloc_frame`.

* `Violation`: process `i` deallocates the frame, or makes an entry that targets it writable, while
  another process is between its `page_locks` increment and decrement in the copying branch.
* `unref` waits for `page_locks` *before* it drops its reference; `copy` drops its reference first
  and waits afterwards.  The window this leaves open is `copy_unref_race`.
* `race_free_of_guarded`: the window is the only defect.  In every run in which the last decrement
  of `unref` happens while no one holds a page lock, and in which the one-byte lock counter never
  wraps, no step is a violation.
-/

namespace GheithOS.Cow.Race

open Lib Function

/-! ### The atomic steps -/

inductive Pc
  | copyStart | copyLock | copyDecr
  | lastUnlock | lastWait | lastFlip
  | copyAlloc | copyData | copyUnlock | copyStore
  | unrefStart | unrefWait | unrefDecr | unrefDealloc | unrefClear
  | done
  deriving DecidableEq, Repr

structure Thread where
  pc : Pc
  entry : Word
  newFrame : Word
  deriving DecidableEq, Repr

structure State (n : ℕ) where
  pageLocks : BitVec 8
  refCounts : BitVec 32
  thread : Fin n → Thread
  /-- the frame has been handed to `dealloc_frame` -/
  freed : Bool

variable {n : ℕ}

/-- Process `i` moves on to `pc`. -/
def State.goto (s : State n) (i : Fin n) (pc : Pc) : State n :=
  { s with thread := update s.thread i { s.thread i with pc := pc } }

/-- Process `i` stores `e` in its entry and moves on to `pc`. -/
def State.store (s : State n) (i : Fin n) (e : Word) (pc : Pc) : State n :=
  { s with thread := update s.thread i { s.thread i with pc := pc, entry := e } }

/-- One atomic step of process `i` on the frame `p`. -/
def step (p : ℕ) (s : State n) (i : Fin n) (a : Word) : Option (State n) :=
  let entry := (s.thread i).entry
  match (s.thread i).pc with
  -- COW::copy
  | .copyStart => some (s.goto i (if !isPresent entry || isRw entry then .done else .copyLock))
  | .copyLock => some ({ s with pageLocks := s.pageLocks + 1 }.goto i .copyDecr)
  | .copyDecr =>
    some ({ s with refCounts := s.refCounts - 1 }.goto i
      (if s.refCounts - 1 = 0 then .lastUnlock else .copyAlloc))
  | .lastUnlock => some ({ s with pageLocks := s.pageLocks - 1 }.goto i .lastWait)
  | .lastWait => some (if s.pageLocks > 0 then s else s.goto i .lastFlip)
  | .lastFlip => some (s.store i (entry ||| flagRw) .done)
  | .copyAlloc =>
    -- the allocator never hands out a frame that is still allocated
    if pageNumber a = p ∧ s.freed = false then none
    else some { s with thread := update s.thread i ⟨.copyData, entry, a⟩ }
  | .copyData => some (s.goto i .copyUnlock)
  | .copyUnlock => some ({ s with pageLocks := s.pageLocks - 1 }.goto i .copyStore)
  | .copyStore =>
    some (s.store i (((s.thread i).newFrame &&& pgNumMask) ||| (entry &&& flagsMask) ||| flagRw) .done)
  -- COW::unref
  | .unrefStart => some (s.goto i (if !isPresent entry then .done else .unrefWait))
  | .unrefWait => some (if s.pageLocks > 0 then s else s.goto i .unrefDecr)
  | .unrefDecr =>
    if isRw entry then some (s.goto i .unrefDealloc)
    else some ({ s with refCounts := s.refCounts - 1 }.goto i
      (if s.refCounts - 1 = 0 then .unrefDealloc else .unrefClear))
  | .unrefDealloc => some ({ s with freed := true }.goto i .unrefClear)
  | .unrefClear => some (s.store i 0 .done)
  | .done => none

/-- Some process takes a step. -/
def Step (p : ℕ) (s s' : State n) : Prop := ∃ i a, step p s i a = some s'

/-- All processes are about to start, each with a present read-only entry for the frame `p`. -/
structure Init (p : ℕ) (s : State n) : Prop where
  locks : s.pageLocks = 0
  refs : s.refCounts.toNat = n
  freed : s.freed = false
  start : ∀ i, (s.thread i).pc = .copyStart ∨ (s.thread i).pc = .unrefStart
  entry : ∀ i, tgt (s.thread i).entry = some p ∧ isRw (s.thread i).entry = false

/-- Between the `page_locks` increment and decrement of the copying branch.  At `copyDecr` the
branch is not decided yet; counting that point in makes the exclusion stronger. -/
def Pc.inCopyBranch : Pc → Bool
  | .copyDecr | .copyAlloc | .copyData | .copyUnlock => true
  | _ => false

/-- The step of `i` from `s` to `s'` deallocates the frame or makes an entry that targets it
writable, while another process is in the copying branch. -/
def Violation (p : ℕ) (s : State n) (i : Fin n) (s' : State n) : Prop :=
  ((s.thread i).pc = .unrefDealloc ∨
    (isRw (s.thread i).entry = false ∧ isRw (s'.thread i).entry = true ∧
      tgt (s'.thread i).entry = some p)) ∧
  ∃ j, j ≠ i ∧ (s.thread j).pc.inCopyBranch = true

/-! ### The invariant -/

variable {p : ℕ} {s s' : State n} {i : Fin n}

section Invariant

/-- The process has taken a page lock and not released it. -/
def Pc.locked : Pc → Bool
  | .copyDecr | .lastUnlock | .copyAlloc | .copyData | .copyUnlock => true
  | _ => false

/-- The process still owns a counted reference to the frame. -/
def Pc.holding : Pc → Bool
  | .copyStart | .copyLock | .copyDecr | .unrefStart | .unrefWait | .unrefDecr => true
  | _ => false

/-- The process dropped the last reference. -/
def Pc.last : Pc → Bool
  | .lastUnlock | .lastWait | .lastFlip | .unrefDealloc => true
  | _ => false

/-- The process is about to flip or to deallocate. -/
def Pc.ready : Pc → Bool
  | .lastFlip | .unrefDealloc => true
  | _ => false

/-- Number of processes that hold a page lock. -/
def lockers (s : State n) : ℕ := countOn Finset.univ (fun t : Thread => t.pc.locked = true) s.thread

/-- Number of processes that own a reference. -/
def holders (s : State n) : ℕ := countOn Finset.univ (fun t : Thread => t.pc.holding = true) s.thread

/-- What one process knows about its own words. -/
def LocalOk (p : ℕ) (t : Thread) : Prop :=
  (t.pc.holding = true → tgt t.entry = some p ∧ isRw t.entry = false) ∧
  (t.pc = .copyStore ∨ t.pc = .copyData ∨ t.pc = .copyUnlock → pageNumber t.newFrame ≠ p)

structure Inv (p : ℕ) (s : State n) : Prop where
  locks : s.pageLocks.toNat = lockers s
  refs : s.refCounts.toNat = holders s
  loc : ∀ i, LocalOk p (s.thread i)
  last : ∀ i, (s.thread i).pc.last = true → holders s = 0
  quiet : s.freed = true ∨ (∃ i, (s.thread i).pc.ready = true) → holders s = 0 ∧ lockers s = 0

theorem inv_of_init (h : Init p s) : Inv p s := by
  have hpc : ∀ i, (s.thread i).pc.locked = false ∧ (s.thread i).pc.holding = true ∧
      (s.thread i).pc.last = false ∧ (s.thread i).pc.ready = false := by
    intro i
    rcases h.start i with h | h <;> rw [h] <;> decide
  refine ⟨?_, ?_, ?_, ?_, ?_⟩
  · rw [h.locks, lockers, countOn_eq_zero_iff.mpr]
    · rfl
    · intro i _
      simp [hpc i]
  · rw [h.refs, holders, countOn, Finset.filter_true_of_mem fun i _ => (hpc i).2.1]
    simp
  · intro i
    refine ⟨fun _ => h.entry i, ?_⟩
    rcases h.start i with h | h <;> simp [h]
  · intro i hi
    simp [hpc i] at hi
  · rintro (hf | ⟨i, hi⟩)
    · simp [h.freed] at hf
    · simp [hpc i] at hi

theorem Inv.change (hI : Inv p s) {t : Thread} (ht : s'.thread = update s.thread i t)
    (hl : s'.pageLocks.toNat + (s.thread i).pc.locked.toNat = s.pageLocks.toNat + t.pc.locked.toNat)
    (hr : s'.refCounts.toNat + (s.thread i).pc.holding.toNat = s.refCounts.toNat + t.pc.holding.toNat)
    (hloc : LocalOk p t) (hhold : t.pc.holding = true → (s.thread i).pc.holding = true)
    (hlock : t.pc.locked = true → (s.thread i).pc.locked = true ∨ (s.thread i).pc.holding = true)
    (hlast : t.pc.last = true → s'.refCounts = 0) (hquiet : t.pc.ready = true → s'.pageLocks = 0)
    (hfreed : s'.freed = true → s.freed = true ∨ (s.thread i).pc.ready = true) : Inv p s' := by
  have hL : lockers s' + (s.thread i).pc.locked.toNat = lockers s + t.pc.locked.toNat := by
    have := countOn_update (p := fun t : Thread => t.pc.locked = true) (f := s.thread)
      (Finset.mem_univ i) t
    rw [lockers, lockers, ht]
    cases h1 : (s.thread i).pc.locked <;> cases h2 : t.pc.locked <;> simp_all
  have hH : holders s' + (s.thread i).pc.holding.toNat = holders s + t.pc.holding.toNat := by
    have := countOn_update (p := fun t : Thread => t.pc.holding = true) (f := s.thread)
      (Finset.mem_univ i) t
    rw [holders, holders, ht]
    cases h1 : (s.thread i).pc.holding <;> cases h2 : t.pc.holding <;> simp_all
  have hlocks := hI.locks
  have hrefs := hI.refs
  have hlocks' : s'.pageLocks.toNat = lockers s' := by omega
  have hrefs' : s'.refCounts.toNat = holders s' := by omega
  -- references only disappear, and once all are gone so do the locks
  have hmono : holders s = 0 → holders s' = 0 := by
    intro h0
    cases h2 : t.pc.holding with
    | false => rw [h2] at hH; simp at hH; omega
    | true => rw [hhold h2, h2] at hH; simp at hH; omega
  have hmonoL : holders s = 0 → lockers s = 0 → lockers s' = 0 := by
    intro h0 h1
    have hnl : (s.thread i).pc.locked = false := by
      by_contra hc
      have := countOn_pos (p := fun t : Thread => t.pc.locked = true) (f := s.thread)
        (Finset.mem_univ i) (by simpa using hc)
      rw [lockers] at h1
      omega
    have hnh : (s.thread i).pc.holding = false := by
      by_contra hc
      have := countOn_pos (p := fun t : Thread => t.pc.holding = true) (f := s.thread)
        (Finset.mem_univ i) (by simpa using hc)
      rw [holders] at h0
      omega
    have hnt : t.pc.locked = false := by
      by_contra hc
      rcases hlock (by simpa using hc) with h | h
      · simp [hnl] at h
      · simp [hnh] at h
    rw [hnl, hnt] at hL
    simp at hL
    omega
  refine ⟨hlocks', hrefs', ?_, ?_, ?_⟩
  · intro j
    rw [ht]
    by_cases hj : j = i
    · subst hj; simpa using hloc
    · simpa [update_of_ne hj] using hI.loc j
  · intro j hj
    rw [ht] at hj
    by_cases hji : j = i
    · subst hji
      have := hlast (by simpa using hj)
      rw [← hrefs', this]
      rfl
    · exact hmono (hI.last j (by simpa [update_of_ne hji] using hj))
  · have hold : s.freed = true ∨ (∃ j, (s.thread j).pc.ready = true) →
        holders s' = 0 ∧ lockers s' = 0 := fun h =>
      ⟨hmono (hI.quiet h).1, hmonoL (hI.quiet h).1 (hI.quiet h).2⟩
    rintro (hf | ⟨j, hj⟩)
    · rcases hfreed hf with h | h
      · exact hold (.inl h)
      · exact hold (.inr ⟨i, h⟩)
    · rw [ht] at hj
      by_cases hji : j = i
      · subst hji
        have hready : t.pc.ready = true := by simpa using hj
        have hlst : t.pc.last = true := by
          revert hready
          cases t.pc <;> decide
        constructor
        · rw [← hrefs', hlast hlst]; rfl
        · rw [← hlocks', hquiet hready]; rfl
      · exact hold (.inr ⟨j, by simpa [update_of_ne hji] using hj⟩)

end Invariant

/-! ### Guarded runs are race free -/

variable {s₀ : State n}

section Guarded

/-- The condition on a step of `i` from `s`: a lock increment does not wrap the one-byte counter,
and a decrement of `unref` that drops the last reference happens while no page lock is held. -/
def Guard (s : State n) (i : Fin n) : Prop :=
  ((s.thread i).pc = .copyLock → s.pageLocks ≠ 255) ∧
  ((s.thread i).pc = .unrefDecr → s.refCounts = 1 → s.pageLocks = 0)

def GuardedStep (p : ℕ) (s s' : State n) : Prop := ∃ i a, step p s i a = some s' ∧ Guard s i

variable {a : Word}

attribute [local simp] State.goto State.store Pc.locked Pc.holding Pc.last Pc.ready LocalOk

theorem inv_step (hI : Inv p s) (hg : Guard s i) (h : step p s i a = some s') : Inv p s' := by
  have hloc := hI.loc i
  have hposR : (s.thread i).pc.holding = true → 0 < s.refCounts.toNat := by
    intro hh
    rw [hI.refs]
    exact countOn_pos (p := fun t : Thread => t.pc.holding = true) (Finset.mem_univ i) hh
  have hposL : (s.thread i).pc.locked = true → 0 < s.pageLocks.toNat := by
    intro hh
    rw [hI.locks]
    exact countOn_pos (p := fun t : Thread => t.pc.locked = true) (Finset.mem_univ i) hh
  have hrefs0 : (s.thread i).pc.last = true → s.refCounts = 0 := by
    intro hh
    apply BitVec.eq_of_toNat_eq
    rw [hI.refs, hI.last i hh]
    rfl
  unfold step at h
  cases hpc : (s.thread i).pc with
  | copyStart =>
    simp only [hpc, Option.some.injEq] at h
    subst h
    have hent := hloc.1 (by rw [hpc]; rfl)
    have hp : isPresent (s.thread i).entry = true := (tgt_eq_some.mp hent.1).1
    simp only [hp, hent.2, Bool.not_true, Bool.or_false, Bool.false_eq_true, ite_false]
    apply hI.change (i := i) rfl <;> simp [hpc, hent]
  | copyLock =>
    simp only [hpc, Option.some.injEq] at h
    subst h
    have hent := hloc.1 (by rw [hpc]; rfl)
    have hw : s.pageLocks ≠ 255 := hg.1 hpc
    apply hI.change (i := i) rfl <;> simp [hpc, hent]
    bv_omega
  | copyDecr =>
    simp only [hpc, Option.some.injEq] at h
    subst h
    have h0 : 0 < s.refCounts.toNat := hposR (by rw [hpc]; rfl)
    by_cases hr : s.refCounts - 1 = 0
    · simp only [hr, ite_true]
      apply hI.change (i := i) rfl <;> simp [hpc]
      bv_omega
    · simp only [hr, ite_false]
      apply hI.change (i := i) rfl <;> simp [hpc]
      bv_omega
  | lastUnlock =>
    simp only [hpc, Option.some.injEq] at h
    subst h
    have h0 : 0 < s.pageLocks.toNat := hposL (by rw [hpc]; rfl)
    have hr0 := hrefs0 (by rw [hpc]; rfl)
    apply hI.change (i := i) rfl <;> simp [hpc, hr0]
    bv_omega
  | lastWait =>
    simp only [hpc, Option.some.injEq] at h
    subst h
    have hr0 := hrefs0 (by rw [hpc]; rfl)
    split
    · exact hI
    · have hl0 : s.pageLocks = 0 := by bv_omega
      apply hI.change (i := i) rfl <;> simp [hpc, hr0, hl0]
  | lastFlip =>
    simp only [hpc, Option.some.injEq] at h
    subst h
    apply hI.change (i := i) rfl <;> simp [hpc]
  | copyAlloc =>
    simp only [hpc] at h
    -- the frame is not free while this process is in the copying branch
    have hnf : s.freed = false := by
      by_contra hc
      have := (hI.quiet (.inl (by simpa using hc))).2
      have := hposL (by rw [hpc]; rfl)
      have := hI.locks
      omega
    split at h
    · simp at h
    · rename_i hne
      simp only [Option.some.injEq] at h
      subst h
      apply hI.change (i := i) rfl <;> simp [hpc, hnf]
      exact fun h => hne ⟨h, hnf⟩
  | copyData =>
    simp only [hpc, Option.some.injEq] at h
    subst h
    have hnew := hloc.2 (by rw [hpc]; simp)
    apply hI.change (i := i) rfl <;> simp [hpc, hnew]
  | copyUnlock =>
    simp only [hpc, Option.some.injEq] at h
    subst h
    have hnew := hloc.2 (by rw [hpc]; simp)
    have h0 : 0 < s.pageLocks.toNat := hposL (by rw [hpc]; rfl)
    apply hI.change (i := i) rfl <;> simp [hpc, hnew]
    bv_omega
  | copyStore =>
    simp only [hpc, Option.some.injEq] at h
    subst h
    apply hI.change (i := i) rfl <;> simp [hpc]
  | unrefStart =>
    simp only [hpc, Option.some.injEq] at h
    subst h
    have hent := hloc.1 (by rw [hpc]; rfl)
    have hp : isPresent (s.thread i).entry = true := (tgt_eq_some.mp hent.1).1
    simp only [hp, Bool.not_true, Bool.false_eq_true, ite_false]
    apply hI.change (i := i) rfl <;> simp [hpc, hent]
  | unrefWait =>
    simp only [hpc, Option.some.injEq] at h
    subst h
    have hent := hloc.1 (by rw [hpc]; rfl)
    split
    · exact hI
    · apply hI.change (i := i) rfl <;> simp [hpc, hent]
  | unrefDecr =>
    have hent := hloc.1 (by rw [hpc]; rfl)
    have h0 : 0 < s.refCounts.toNat := hposR (by rw [hpc]; rfl)
    simp only [hpc, hent.2, Bool.false_eq_true, ite_false, Option.some.injEq] at h
    subst h
    by_cases hr : s.refCounts - 1 = 0
    · -- the last reference: the guard says that nobody holds a page lock
      have hl0 : s.pageLocks = 0 := hg.2 hpc (by bv_omega)
      simp only [hr, ite_true]
      apply hI.change (i := i) rfl <;> simp [hpc, hl0]
      bv_omega
    · simp only [hr, ite_false]
      apply hI.change (i := i) rfl <;> simp [hpc]
      bv_omega
  | unrefDealloc =>
    simp only [hpc, Option.some.injEq] at h
    subst h
    apply hI.change (i := i) rfl <;> simp [hpc]
  | unrefClear =>
    simp only [hpc, Option.some.injEq] at h
    subst h
    apply hI.change (i := i) rfl <;> simp [hpc]
  | done => simp [hpc] at h

theorem step_entry (h : step p s i a = some s') :
    (s'.thread i).entry = (s.thread i).entry ∨ (s.thread i).pc = .lastFlip ∨
    ((s.thread i).pc = .copyStore ∧ pageNumber (s'.thread i).entry = pageNumber (s.thread i).newFrame) ∨
    (s'.thread i).entry = 0#32 := by
  unfold step at h
  cases hpc : (s.thread i).pc with
  | lastFlip => exact .inr (.inl rfl)
  | copyStore =>
    simp only [hpc, Option.some.injEq] at h
    subst h
    refine .inr (.inr (.inl ⟨rfl, ?_⟩))
    simp only [State.store, update_self]
    rw [pageNumber_or_flags (by decide), pageNumber_or, pageNumber_flagsMask_and, Nat.or_zero,
      pageNumber_and_of_full (by decide)]
  | unrefClear =>
    simp only [hpc, Option.some.injEq] at h
    subst h
    exact .inr (.inr (.inr (by simp [State.store])))
  | lastWait | unrefWait =>
    simp only [hpc, Option.some.injEq] at h
    subst h
    left
    split <;> simp [State.goto]
  | copyAlloc =>
    simp only [hpc] at h
    left
    split at h
    · simp at h
    · cases h
      simp
  | unrefDecr =>
    simp only [hpc] at h
    left
    split at h <;> cases h <;> simp [State.goto]
  | done => simp [hpc] at h
  | copyStart | copyLock | copyDecr | lastUnlock | copyData | copyUnlock | unrefStart | unrefDealloc =>
    simp only [hpc, Option.some.injEq] at h
    subst h
    left
    simp [State.goto]

theorem no_violation (hI : Inv p s) (h : step p s i a = some s') : ¬ Violation p s i s' := by
  rintro ⟨hev, j, -, hj⟩
  have hlocked : (s.thread j).pc.locked = true := by
    revert hj
    cases (s.thread j).pc <;> decide
  have hpos : 0 < lockers s :=
    countOn_pos (p := fun t : Thread => t.pc.locked = true) (Finset.mem_univ j) hlocked
  have hready : (s.thread i).pc.ready = true → False := fun hr => by
    have := (hI.quiet (.inr ⟨i, hr⟩)).2
    omega
  rcases hev with hd | ⟨hro, hrw, htgt⟩
  · exact hready (by rw [hd]; rfl)
  · rcases step_entry h with he | hpc | ⟨hpc, hpn⟩ | he
    · rw [he, hro] at hrw
      exact absurd hrw (by decide)
    · exact hready (by rw [hpc]; rfl)
    · -- the fresh frame is another frame
      exact (hI.loc i).2 (.inl hpc) (hpn ▸ (tgt_eq_some.mp htgt).2)
    · rw [he] at hrw
      simp at hrw

theorem inv_of_guarded (h0 : Init p s₀) (hrun : Relation.ReflTransGen (GuardedStep p) s₀ s) :
    Inv p s := by
  induction hrun with
  | refl => exact inv_of_init h0
  | tail _ hstep ih =>
    obtain ⟨i, a, hs, hg⟩ := hstep
    exact inv_step ih hg hs

/-- **Guarded runs are race free.**  From any number of processes that are about to copy or to drop
their read-only entries for the frame, in every interleaving whose steps meet `Guard` no step
deallocates the frame or makes an entry for it writable while another process is copying it. -/
theorem race_free_of_guarded {p : ℕ} {s₀ s s' : State n} {i : Fin n} {a : Word} (h0 : Init p s₀)
    (hrun : Relation.ReflTransGen (GuardedStep p) s₀ s) (hs : step p s i a = some s') :
    ¬ Violation p s i s' :=
  no_violation (inv_of_guarded h0 hrun) hs

end Guarded

/-! ### The window that `unref` leaves open -/

section Window

/-- One process about to copy, one about to drop, as `fork` leaves them. -/
def forked : State 2 where
  pageLocks := 0
  refCounts := 2
  thread := fun i => ⟨if i = 0 then .copyStart else .unrefStart, 0x5005#32, 0⟩
  freed := false

/-- `unref` sees no lock; then `copy` locks and drops its reference, so it has to copy; then `unref`
drops the last reference. -/
def raceSchedule : List (Fin 2 × Word) := [(1, 0), (1, 0), (0, 0), (0, 0), (0, 0), (0, 0x9000#32), (1, 0)]

/-- The steps of a schedule, one after the other. -/
def run (p : ℕ) (s : State n) : List (Fin n × Word) → Option (State n)
  | [] => some s
  | (i, a) :: l => (step p s i a).bind fun s' => run p s' l

theorem steps_of_run : ∀ {l : List (Fin n × Word)} {s s' : State n}, run p s l = some s' →
    Relation.ReflTransGen (Step p) s s'
  | [], s, s', h => by
    simp only [run, Option.some.injEq] at h
    subst h
    exact Relation.ReflTransGen.refl
  | (i, a) :: l, s, s', h => by
    obtain ⟨t, ht, hl⟩ := Option.bind_eq_some_iff.mp h
    exact Relation.ReflTransGen.head ⟨i, a, ht⟩ (steps_of_run hl)

/-- **The race**: `unref` deallocates the frame while `copy` is still copying it. -/
theorem copy_unref_race : ∃ (s s' : State 2), Init 5 forked ∧
    Relation.ReflTransGen (Step 5) forked s ∧ step 5 s 1 0 = some s' ∧ Violation 5 s 1 s' := by
  refine ⟨_, _, ?_, steps_of_run (l := raceSchedule) rfl, rfl, ?_⟩
  · constructor <;> decide
  · refine ⟨.inl (by decide), 0, by decide, by decide⟩

/-- The guarded half of the same start: `unref` has passed its first test, `copy` takes its lock. -/
theorem race_free_forked : ∃ s s' : State 2, Relation.ReflTransGen (GuardedStep 5) forked s ∧
    step 5 s 0 0 = some s' ∧ ¬ Violation 5 s 0 s' := by
  have h0 : Init 5 forked := by constructor <;> decide
  have hrun : Relation.ReflTransGen (GuardedStep 5) forked (forked.goto 1 .unrefWait) :=
    Relation.ReflTransGen.single ⟨1, 0, rfl, by decide, by decide⟩
  exact ⟨_, _, hrun, rfl, race_free_of_guarded (a := 0) h0 hrun rfl⟩

end Window

end GheithOS.Cow.Race
