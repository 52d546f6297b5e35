import Mathlib.Logic.Relation
import GheithOS.Cow.Entry
import GheithOS.Lib.Prog
import GheithOS.Lib.Spine

/-!
# GheithOS.PhysMem.Allocator — `physmem.cc`

Frames are handed out from a free list that runs through the first words of the free frames, and,
when it is empty, from the rest of the range.  Memory is an array of words, named by their address
divided by 4; the other numbers are 32-bit words.  The lock is left out, since each call runs under
it, and so are the trap for page faults and the debug output of `init`.

`Step` is a client that calls the allocator and writes anywhere but to frames that it has given
back.  `Sound` says that the free list is the list of those frames, and that together with the
frames that the client has they are the frames below `avail`.
-/

namespace GheithOS.PhysMem

open Function
open Cow (frameSize)
open Lib

/-! ### `physmem.cc` -/

structure State where
  /-- The words of memory. -/
  mem : ℕ → Word
  /-- The address of a frame; 0 is `nullptr`. -/
  firstFree : ℕ
  avail : ℕ
  limit : ℕ
  leakCount : ℕ

/-- Why the kernel stops. -/
inductive Stop
  /-- `panic("no more frames")`. -/
  | noMoreFrames
  | assertion
  deriving DecidableEq

abbrev Code (α : Type) := Prog Stop State α

def assert (c : Prop) [Decidable c] : Code Unit := if c then pure () else throw .assertion

def offset (pa : ℕ) : ℕ := pa &&& 0xFFF

/-- The word `k` lies in the frame at `p`. -/
def InFrame (p k : ℕ) : Prop := p / 4 ≤ k ∧ k < p / 4 + 1024

instance decidableInFrame (p k : ℕ) : Decidable (InFrame p k) := inferInstanceAs (Decidable (_ ∧ _))

/-- `bzero((void*)p, FRAME_SIZE)`. -/
def bzero (mem : ℕ → Word) (p : ℕ) : ℕ → Word := fun k => if InFrame p k then 0#32 else mem k

/-- The frame `p` of `alloc_frame`: the first one of the free list, or the next one of the range. -/
def chooseFrame : Code ℕ := fun s =>
  if s.firstFree ≠ 0 then .ok (s.firstFree, { s with firstFree := (s.mem (s.firstFree / 4)).toNat })
  else if s.avail = s.limit then .error .noMoreFrames
  else .ok (s.avail, { s with avail := (s.avail + frameSize) % 2 ^ 32 })

def allocFrame : Code ℕ := do
  let p ← chooseFrame
  assert (offset p = 0)
  modify fun s => { s with mem := bzero s.mem p }
  modify fun s => { s with leakCount := (s.leakCount + 1) % 2 ^ 32 }
  return p

def deallocFrame (p : ℕ) : Code Unit := do
  assert (offset p = 0)
  modify fun s => { s with mem := update s.mem (p / 4) (BitVec.ofNat 32 s.firstFree) }
  modify fun s => { s with firstFree := p }
  modify fun s => { s with leakCount := (s.leakCount + 2 ^ 32 - 1) % 2 ^ 32 }

def init (start size : ℕ) : Code Unit := do
  assert (offset start = 0)
  assert (offset size = 0)
  modify fun s => { s with avail := start }
  modify fun s => { s with limit := (start + size) % 2 ^ 32 }

/-! ### The calls -/

section Calls

variable {s : State} {p k start size : ℕ}

theorem offset_eq (pa : ℕ) : offset pa = pa % frameSize := Nat.and_two_pow_sub_one_eq_mod pa 12

theorem assert_of (h : p % frameSize = 0) : assert (offset p = 0) s = .ok ((), s) := by
  unfold assert
  rw [if_pos ((offset_eq p).trans h)]
  rfl

/-- The state when `p` has been handed out. -/
def State.handOut (s : State) (p : ℕ) : State :=
  { s with mem := bzero s.mem p, leakCount := (s.leakCount + 1) % 2 ^ 32 }

/-- The state when `p` has been given back. -/
def State.giveBack (s : State) (p : ℕ) : State :=
  { s with
    mem := update s.mem (p / 4) (BitVec.ofNat 32 s.firstFree), firstFree := p,
    leakCount := (s.leakCount + 2 ^ 32 - 1) % 2 ^ 32 }

theorem allocFrame_first (h : s.firstFree ≠ 0) (hoff : s.firstFree % frameSize = 0) :
    allocFrame s = .ok (s.firstFree,
      ({ s with firstFree := (s.mem (s.firstFree / 4)).toNat }).handOut s.firstFree) := by
  unfold allocFrame
  rw [bind_of_eq (show chooseFrame s = _ from if_pos h), bind_of_eq (assert_of hoff)]
  rfl

theorem allocFrame_next (h : s.firstFree = 0) (hne : s.avail ≠ s.limit) (hoff : s.avail % frameSize = 0) :
    allocFrame s = .ok (s.avail, ({ s with avail := (s.avail + frameSize) % 2 ^ 32 }).handOut s.avail) := by
  unfold allocFrame
  rw [bind_of_eq (show chooseFrame s = _ from (if_neg (not_not.mpr h)).trans (if_neg hne)),
    bind_of_eq (assert_of hoff)]
  rfl

theorem allocFrame_none (h : s.firstFree = 0) (heq : s.avail = s.limit) :
    allocFrame s = .error .noMoreFrames := by
  unfold allocFrame
  rw [bind_of_error (show chooseFrame s = _ from (if_neg (not_not.mpr h)).trans (if_pos heq))]

theorem deallocFrame_eq (hoff : p % frameSize = 0) : deallocFrame p s = .ok ((), s.giveBack p) := by
  unfold deallocFrame
  rw [bind_of_eq (assert_of hoff)]
  rfl

theorem init_eq (hstart : start % frameSize = 0) (hsize : size % frameSize = 0) :
    init start size s = .ok ((), { s with avail := start, limit := (start + size) % 2 ^ 32 }) := by
  unfold init
  rw [bind_of_eq (assert_of hstart), bind_of_eq (assert_of hsize)]
  rfl

end Calls

/-! ### The free list -/

section Links

variable {mem mem' : ℕ → Word} {p q k : ℕ} {F : List ℕ}

/-- An address as a pointer. -/
def pointer (a : ℕ) : Option ℕ := if a = 0 then none else some a

/-- `next` of a frame. -/
def link (mem : ℕ → Word) (p : ℕ) : Option ℕ := pointer (mem (p / 4)).toNat

/-- **The free list** of a state. -/
def FreeList (s : State) (F : List ℕ) : Prop := Spine (link s.mem) (pointer s.firstFree) F

theorem pointer_eq_some : pointer p = some q ↔ p = q ∧ q ≠ 0 := by
  unfold pointer
  split_ifs with h
  · simp only [false_iff, not_and, not_not]
    exact fun hq => hq ▸ h
  · rw [Option.some.injEq]
    exact ⟨fun hq => ⟨hq, hq ▸ h⟩, And.left⟩

theorem pointer_eq_none : pointer p = none ↔ p = 0 := by
  unfold pointer
  split_ifs with h <;> simp [h]

theorem first_inFrame (hp : p % frameSize = 0) (hq : q % frameSize = 0) : InFrame p (q / 4) ↔ q = p := by
  unfold InFrame frameSize at *
  omega

theorem inFrame_first (p : ℕ) : InFrame p (p / 4) := ⟨Nat.le_refl _, by omega⟩

theorem bzero_of_not (h : ¬ InFrame p k) : bzero mem p k = mem k := if_neg h

theorem link_congr (h : mem' (p / 4) = mem (p / 4)) : link mem' p = link mem p := by rw [link, link, h]

end Links

/-! ### Clients -/

/-- The allocator, the frames that the client has, and all those that were ever handed out to it. -/
structure Machine where
  state : State
  allocated : List ℕ
  handedOut : List ℕ

/-- The frame was given back and has not been handed out again. -/
def Machine.GivenBack (m : Machine) (p : ℕ) : Prop := p ∈ m.handedOut ∧ p ∉ m.allocated

/-- **What a client does**: it takes a frame, gives one back that it has, or writes somewhere, but
not to a frame that was given back. -/
inductive Step (m : Machine) : Machine → Prop
  | alloc {p : ℕ} {s : State} (hrun : allocFrame m.state = .ok (p, s)) :
      Step m ⟨s, p :: m.allocated, p :: m.handedOut⟩
  | dealloc {p : ℕ} {s : State} (hp : p ∈ m.allocated) (hrun : deallocFrame p m.state = .ok ((), s)) :
      Step m ⟨s, m.allocated.erase p, m.handedOut⟩
  | write {mem : ℕ → Word} (hmem : ∀ p k, m.GivenBack p → InFrame p k → mem k = m.state.mem k) :
      Step m ⟨{ m.state with mem := mem }, m.allocated, m.handedOut⟩

/-- The frames of the range. -/
def InRange (start size p : ℕ) : Prop := p % frameSize = 0 ∧ start ≤ p ∧ p < start + size

/-- **The invariant**: `F` is the free list, and it and the client's frames are the frames below
`avail`. -/
structure Sound (start size : ℕ) (m : Machine) (F : List ℕ) : Prop where
  limit : m.state.limit = start + size
  free : FreeList m.state F
  nodup : (m.allocated ++ F).Nodup
  used : ∀ p, p ∈ m.allocated ++ F ↔ p % frameSize = 0 ∧ start ≤ p ∧ p < m.state.avail
  handedOut : ∀ p, p ∈ m.handedOut ↔ p ∈ m.allocated ++ F
  avail : m.state.avail = start + frameSize * (m.allocated.length + F.length)
  avail_le : m.state.avail ≤ start + size
  leak : m.state.leakCount = m.allocated.length

section Runs

variable {start size p : ℕ} {m m' : Machine} {F : List ℕ}

/-- The range: it starts behind the first page and ends in front of the last one. -/
structure Range (start size : ℕ) : Prop where
  start_mod : start % frameSize = 0
  size_mod : size % frameSize = 0
  low : frameSize ≤ start
  high : start + size ≤ 2 ^ 32 - frameSize

theorem Sound.givenBack (h : Sound start size m F) : m.GivenBack p ↔ p ∈ F := by
  rw [Machine.GivenBack, h.handedOut, List.mem_append]
  refine ⟨fun hp => hp.1.resolve_left hp.2, fun hp => ⟨.inr hp, fun hc => ?_⟩⟩
  exact (List.nodup_append.mp h.nodup).2.2 p hc p hp rfl

theorem Sound.mem_range (h : Sound start size m F) (hp : p ∈ m.allocated ++ F) : InRange start size p := by
  obtain ⟨h1, h2, h3⟩ := (h.used p).mp hp
  have := h.avail_le
  exact ⟨h1, h2, by omega⟩

theorem Sound.pos (h : Sound start size m F) (R : Range start size) (hp : p ∈ m.allocated ++ F) :
    p ≠ 0 := by
  have h1 := (h.mem_range hp).2.1
  have h2 := R.low
  unfold frameSize at h2
  omega

theorem Sound.length_lt (h : Sound start size m F) (R : Range start size) :
    m.allocated.length + F.length + 1 < 2 ^ 32 := by
  have h1 := h.avail
  have h2 := h.avail_le
  have h3 := R.high
  unfold frameSize at *
  omega

theorem Sound.avail_mod (h : Sound start size m F) (R : Range start size) :
    m.state.avail % frameSize = 0 := by
  rw [h.avail, Nat.add_mul_mod_self_left]
  exact R.start_mod

/-- **The first free frame is handed out.** -/
theorem Sound.alloc_first (h : Sound start size m (p :: F)) (R : Range start size) :
    ∃ s, allocFrame m.state = .ok (p, s) ∧ (∀ k, InFrame p k → s.mem k = 0#32) ∧
      Sound start size ⟨s, p :: m.allocated, p :: m.handedOut⟩ F := by
  obtain ⟨hfirst, hrest⟩ := h.free
  obtain ⟨hfirst, hp⟩ := pointer_eq_some.mp hfirst
  have hmod : p % frameSize = 0 := ((h.used p).mp (by simp)).1
  have hperm : ∀ x, x ∈ p :: m.allocated ++ F ↔ x ∈ m.allocated ++ p :: F := fun x => by simp [or_left_comm]
  have hnodup : (p :: m.allocated ++ F).Nodup := List.nodup_middle.mp h.nodup
  have hlen := h.length_lt R
  refine ⟨_, hfirst ▸ allocFrame_first (hfirst ▸ hp) (hfirst ▸ hmod), fun k hk => ?_, ?_⟩
  · subst hfirst
    exact if_pos hk
  · subst hfirst
    refine ⟨h.limit, ?_, hnodup, fun x => (hperm x).trans (h.used x), fun x => ?_, ?_, h.avail_le, ?_⟩
    · refine hrest.congr fun q hq => link_congr (bzero_of_not ?_)
      rw [first_inFrame hmod ((h.used q).mp (by simp [hq])).1]
      rintro rfl
      exact (List.nodup_cons.mp hnodup).1 (by simp [hq])
    · rw [hperm, List.mem_cons, h.handedOut]
      exact or_iff_right_of_imp fun hx => by simp [hx]
    · show m.state.avail = _
      rw [h.avail]
      simp only [List.length_cons]
      congr 2
      omega
    · show (m.state.leakCount + 1) % 2 ^ 32 = (m.state.firstFree :: m.allocated).length
      rw [h.leak, List.length_cons]
      simp only [List.length_cons] at hlen
      exact Nat.mod_eq_of_lt (by omega)

/-- **The next frame of the range is handed out.** -/
theorem Sound.alloc_next (h : Sound start size m []) (R : Range start size)
    (hne : m.state.avail ≠ m.state.limit) :
    ∃ s, allocFrame m.state = .ok (m.state.avail, s) ∧ (∀ k, InFrame m.state.avail k → s.mem k = 0#32) ∧
      Sound start size ⟨s, m.state.avail :: m.allocated, m.state.avail :: m.handedOut⟩ [] := by
  have hfree : m.state.firstFree = 0 := pointer_eq_none.mp h.free
  have hmod := h.avail_mod R
  have hlen := h.length_lt R
  have hle : m.state.avail + frameSize ≤ start + size := by
    have h1 := h.avail_le
    have h2 := h.limit
    have h3 := R.start_mod
    have h4 := R.size_mod
    unfold frameSize at *
    omega
  have hword : (m.state.avail + frameSize) % 2 ^ 32 = m.state.avail + frameSize := by
    have := R.high
    exact Nat.mod_eq_of_lt (by unfold frameSize at *; omega)
  have hstart : start ≤ m.state.avail := h.avail ▸ Nat.le_add_right _ _
  have hnew : m.state.avail ∉ m.allocated ++ [] := fun hc => absurd ((h.used _).mp hc).2.2 (Nat.lt_irrefl _)
  refine ⟨_, allocFrame_next hfree hne hmod, fun k hk => if_pos hk, h.limit, ?_, ?_, fun x => ?_,
    fun x => ?_, ?_, ?_, ?_⟩
  · show Spine _ (pointer m.state.firstFree) []
    exact pointer_eq_none.mpr hfree
  · rw [List.cons_append]
    exact List.nodup_cons.mpr ⟨hnew, h.nodup⟩
  · show x ∈ m.state.avail :: m.allocated ++ [] ↔ _ ∧ _ ∧ x < (m.state.avail + frameSize) % 2 ^ 32
    rw [hword, List.cons_append, List.mem_cons, h.used]
    unfold frameSize at *
    omega
  · rw [List.cons_append, List.mem_cons, List.mem_cons, h.handedOut]
  · show (m.state.avail + frameSize) % 2 ^ 32 = _
    rw [hword]
    have := h.avail
    simp only [List.length_cons, List.length_nil] at this ⊢
    unfold frameSize at *
    omega
  · show (m.state.avail + frameSize) % 2 ^ 32 ≤ _
    rw [hword]
    exact hle
  · show (m.state.leakCount + 1) % 2 ^ 32 = (m.state.avail :: m.allocated).length
    rw [h.leak, List.length_cons]
    exact Nat.mod_eq_of_lt (by omega)

/-- **`alloc_frame`** hands a frame out, or all frames are allocated. -/
theorem Sound.alloc (h : Sound start size m F) (R : Range start size) :
    (∃ p s F', allocFrame m.state = .ok (p, s) ∧ (∀ k, InFrame p k → s.mem k = 0#32) ∧
      Sound start size ⟨s, p :: m.allocated, p :: m.handedOut⟩ F') ∨
    allocFrame m.state = .error .noMoreFrames ∧ F = [] ∧ m.state.avail = start + size := by
  cases F with
  | cons p F =>
    obtain ⟨s, hrun, hzero, h'⟩ := h.alloc_first R
    exact .inl ⟨p, s, F, hrun, hzero, h'⟩
  | nil =>
    by_cases heq : m.state.avail = m.state.limit
    · exact .inr ⟨allocFrame_none (pointer_eq_none.mp h.free) heq, rfl, heq.trans h.limit⟩
    · obtain ⟨s, hrun, hzero, h'⟩ := h.alloc_next R heq
      exact .inl ⟨_, s, [], hrun, hzero, h'⟩

/-- **`dealloc_frame`** puts a frame in front of the free list. -/
theorem Sound.dealloc (h : Sound start size m F) (R : Range start size) (hp : p ∈ m.allocated) :
    deallocFrame p m.state = .ok ((), m.state.giveBack p) ∧
      Sound start size ⟨m.state.giveBack p, m.allocated.erase p, m.handedOut⟩ (p :: F) := by
  have hp' : p ∈ m.allocated ++ F := List.mem_append_left F hp
  have hmod := (h.mem_range hp').1
  obtain ⟨hnodup, hnodupF, hdisj⟩ := List.nodup_append.mp h.nodup
  have hmem : ∀ x, x ∈ m.allocated.erase p ++ p :: F ↔ x ∈ m.allocated ++ F := fun x => by
    simp only [List.mem_append, List.mem_cons, hnodup.mem_erase_iff]
    by_cases hx : x = p <;> simp [hx, hp]
  have hlength := List.length_erase_of_mem hp
  have hpos := List.length_pos_of_mem hp
  have hlen := h.length_lt R
  refine ⟨deallocFrame_eq hmod, h.limit, ⟨?_, ?_⟩, ?_, fun x => (hmem x).trans (h.used x),
    fun x => (h.handedOut x).trans (hmem x).symm, ?_, h.avail_le, ?_⟩
  · exact pointer_eq_some.mpr ⟨rfl, h.pos R hp'⟩
  · have hword : m.state.firstFree < 2 ^ 32 := by
      rcases Nat.eq_zero_or_pos m.state.firstFree with h0 | hfree
      · omega
      · have hhead := h.free.eq_head
        have hin : m.state.firstFree ∈ F := List.mem_of_head? (hhead.symm.trans (if_neg (by omega)))
        have h1 := (h.mem_range (List.mem_append_right m.allocated hin)).2.2
        have h2 := R.high
        omega
    have hlink : link (m.state.giveBack p).mem p = pointer m.state.firstFree := by
      show pointer ((update m.state.mem (p / 4) (BitVec.ofNat 32 m.state.firstFree)) (p / 4)).toNat = _
      rw [update_self, BitVec.toNat_ofNat, Nat.mod_eq_of_lt hword]
    rw [hlink]
    refine h.free.congr fun q hq => link_congr (update_of_ne (fun hc => ?_) _ _)
    have hqmod := (h.mem_range (List.mem_append_right m.allocated hq)).1
    have heq : q = p := (first_inFrame hmod hqmod).mp (hc ▸ inFrame_first p)
    exact hdisj p hp q hq heq.symm
  · rw [List.nodup_append]
    refine ⟨hnodup.erase p, List.nodup_cons.mpr ⟨fun hc => hdisj p hp p hc rfl, hnodupF⟩,
      fun x hx y hy hxy => ?_⟩
    obtain ⟨hxp, hx⟩ := hnodup.mem_erase_iff.mp hx
    rcases List.mem_cons.mp hy with rfl | hy
    · exact hxp hxy
    · exact hdisj x hx y hy hxy
  · show m.state.avail = _
    rw [h.avail, hlength, List.length_cons]
    congr 2
    omega
  · show (m.state.leakCount + 2 ^ 32 - 1) % 2 ^ 32 = _
    rw [h.leak, hlength, show m.allocated.length + 2 ^ 32 - 1 = (m.allocated.length - 1) + 2 ^ 32 by omega,
      Nat.add_mod_right]
    exact Nat.mod_eq_of_lt (by omega)

/-- **A client's write.** -/
theorem Sound.write {mem : ℕ → Word} (h : Sound start size m F)
    (hmem : ∀ p k, m.GivenBack p → InFrame p k → mem k = m.state.mem k) :
    Sound start size ⟨{ m.state with mem := mem }, m.allocated, m.handedOut⟩ F := by
  refine ⟨h.limit, ?_, h.nodup, h.used, h.handedOut, h.avail, h.avail_le, h.leak⟩
  exact h.free.congr fun q hq => link_congr (hmem q (q / 4) (h.givenBack.mpr hq) (inFrame_first q))

theorem Sound.step (h : Sound start size m F) (R : Range start size) (hstep : Step m m') :
    ∃ F', Sound start size m' F' := by
  cases hstep with
  | alloc hrun =>
    rcases h.alloc R with ⟨p, s, F', hrun', -, h'⟩ | ⟨hrun', -⟩
    · obtain ⟨rfl, rfl⟩ := Prod.ext_iff.mp (Except.ok.inj (hrun'.symm.trans hrun))
      exact ⟨F', h'⟩
    · cases hrun'.symm.trans hrun
  | dealloc hp hrun =>
    obtain ⟨hrun', h'⟩ := h.dealloc R hp
    obtain ⟨-, rfl⟩ := Prod.ext_iff.mp (Except.ok.inj (hrun'.symm.trans hrun))
    exact ⟨_, h'⟩
  | write hmem => exact ⟨F, h.write hmem⟩

theorem Range.sound (R : Range start size) {s : State} (hfree : s.firstFree = 0) (hleak : s.leakCount = 0) :
    Sound start size ⟨{ s with avail := start, limit := (start + size) % 2 ^ 32 }, [], []⟩ [] where
  limit := by
    have := R.high
    exact Nat.mod_eq_of_lt (by unfold frameSize at this; omega)
  free := pointer_eq_none.mpr hfree
  nodup := List.nodup_nil
  used p := by
    simp only [List.append_nil, List.not_mem_nil, false_iff]
    omega
  handedOut p := Iff.rfl
  avail := rfl
  avail_le := Nat.le_add_right _ _
  leak := hleak

/-- **Runs.** -/
theorem Sound.run (h : Sound start size m F) (R : Range start size)
    (hrun : Relation.ReflTransGen Step m m') : ∃ F', Sound start size m' F' := by
  induction hrun with
  | refl => exact ⟨F, h⟩
  | tail _ hstep ih =>
    obtain ⟨F', h'⟩ := ih
    exact h'.step R hstep

/-- A frame of the range that was never handed out. -/
def Machine.NeverUsed (start size : ℕ) (m : Machine) (p : ℕ) : Prop :=
  InRange start size p ∧ p ∉ m.handedOut

/-- **The frame allocator.**  `init` succeeds, and whatever a client then does: its frames are
different frames of the range; the free list is finite, without repetition, and none of it is
allocated; the frames of the range are those that are allocated, those of the free list and those
that were never handed out, and no frame is two of these; `leak_count` is the number of allocated
frames; `alloc_frame` hands out a zeroed frame that was not allocated, or panics because all frames
are; and every allocated frame can be given back. -/
theorem frame_allocator (hstart : start % frameSize = 0) (hsize : size % frameSize = 0)
    (hlow : frameSize ≤ start) (hhigh : start + size ≤ 2 ^ 32 - frameSize) {s₀ : State}
    (hfree : s₀.firstFree = 0) (hleak : s₀.leakCount = 0) :
    ∃ s, init start size s₀ = .ok ((), s) ∧ ∀ m, Relation.ReflTransGen Step ⟨s, [], []⟩ m →
      m.allocated.Nodup ∧ (∀ p ∈ m.allocated, InRange start size p) ∧
      (∃ F, FreeList m.state F ∧ F.Nodup ∧ F.Disjoint m.allocated ∧
        (∀ p, InRange start size p ↔ p ∈ m.allocated ∨ p ∈ F ∨ m.NeverUsed start size p) ∧
        ∀ p, m.NeverUsed start size p → p ∉ m.allocated ∧ p ∉ F) ∧
      m.state.leakCount = m.allocated.length ∧
      (∀ p s, allocFrame m.state = .ok (p, s) →
        p ∉ m.allocated ∧ InRange start size p ∧ ∀ k, InFrame p k → s.mem k = 0#32) ∧
      (∀ e, allocFrame m.state = .error e → e = .noMoreFrames ∧ m.allocated.length = size / frameSize) ∧
      ∀ p ∈ m.allocated, ∃ s, deallocFrame p m.state = .ok ((), s) := by
  have R : Range start size := ⟨hstart, hsize, hlow, hhigh⟩
  refine ⟨_, init_eq hstart hsize, fun m hrun => ?_⟩
  obtain ⟨F, h⟩ := (R.sound hfree hleak).run R hrun
  obtain ⟨hnodup, hnodupF, hdisj⟩ := List.nodup_append.mp h.nodup
  have hnever : ∀ p, m.NeverUsed start size p → p ∉ m.allocated ∧ p ∉ F := fun p hp => by
    rw [← not_or, ← List.mem_append, ← h.handedOut]
    exact hp.2
  refine ⟨hnodup, fun p hp => h.mem_range (List.mem_append_left F hp),
    ⟨F, h.free, hnodupF, fun p hp hp' => hdisj p hp' p hp rfl, fun p => ⟨fun hp => ?_, ?_⟩, hnever⟩, h.leak,
    fun p s hs => ?_, fun e he => ?_, fun p hp => ⟨_, (h.dealloc R hp).1⟩⟩
  · rw [← or_assoc, ← List.mem_append, ← h.handedOut]
    by_cases hout : p ∈ m.handedOut
    · exact .inl hout
    · exact .inr ⟨hp, hout⟩
  · rintro (hp | hp | hp)
    · exact h.mem_range (List.mem_append_left F hp)
    · exact h.mem_range (List.mem_append_right m.allocated hp)
    · exact hp.1
  · rcases h.alloc R with ⟨p', s', F', hrun', hzero, h'⟩ | ⟨hrun', -⟩
    · obtain ⟨rfl, rfl⟩ := Prod.ext_iff.mp (Except.ok.inj (hrun'.symm.trans hs))
      have hcons := List.nodup_cons.mp h'.nodup
      exact ⟨fun hc => hcons.1 (List.mem_append_left F' hc), h'.mem_range (by simp), hzero⟩
    · cases hrun'.symm.trans hs
  · rcases h.alloc R with ⟨p, s, F', hrun', -, -⟩ | ⟨hrun', rfl, havail⟩
    · cases hrun'.symm.trans he
    · refine ⟨(Except.error.inj (hrun'.symm.trans he)).symm, ?_⟩
      have hcount := h.avail
      rw [havail, List.length_nil, Nat.add_zero] at hcount
      rw [Nat.add_left_cancel hcount, Nat.mul_div_cancel_left _ (by decide)]

/-- Memory without contents, in front of `init`. -/
def blank : State := ⟨fun _ => 0#32, 0, 0, 0, 0⟩

/-- A range of two frames, of which the first is handed out, given back, and handed out again. -/
theorem frame_allocator_reused : ∃ s, init 4096 8192 blank = .ok ((), s) ∧
    ∃ m, Relation.ReflTransGen Step ⟨s, [], []⟩ m ∧ m.allocated = [4096] ∧ m.handedOut = [4096, 4096] ∧
      m.state.leakCount = 1 := by
  obtain ⟨s, hinit, h⟩ := frame_allocator (show 4096 % frameSize = 0 by decide)
    (show 8192 % frameSize = 0 by decide) (by decide) (by decide) (show blank.firstFree = 0 from rfl) rfl
  obtain rfl : { blank with avail := 4096, limit := 12288 } = s :=
    (Prod.ext_iff.mp (Except.ok.inj ((init_eq (by decide) (by decide)).symm.trans hinit))).2
  have hfirst : Step ⟨{ blank with avail := 4096, limit := 12288 }, [], []⟩
      ⟨({ blank with avail := 8192, limit := 12288 } : State).handOut 4096, [4096], [4096]⟩ :=
    .alloc (allocFrame_next rfl (by decide) (by decide))
  have hrun := ((Relation.ReflTransGen.single hfirst).tail
    (.dealloc List.mem_cons_self (deallocFrame_eq (by decide)))).tail
    (.alloc (allocFrame_first (by decide) (by decide)))
  exact ⟨_, hinit, _, hrun, rfl, rfl, (h _ hrun).2.2.2.1⟩

end Runs

end GheithOS.PhysMem
