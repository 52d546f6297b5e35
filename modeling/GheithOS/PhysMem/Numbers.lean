import GheithOS.Lib.Simulation
import GheithOS.PhysMem.Allocator
import GheithOS.Vmm.Moves

/-!
# GheithOS.PhysMem.Numbers — the allocator by frame numbers

`Vmm.Model` names frames by their numbers and keeps memory by frames; `PhysMem.Allocator` has
addresses and words.  From related states, in a range as `init` is given one, both hand out the same
frame and stay related, and so they do when a frame is given back.  So a client gets the same
answers from both (`numbers_refine`).
-/

namespace GheithOS.PhysMem

open Function
open Cow (frameSize pageNumber frameAddr pageNumber_eq_shift)
open Lib
open Vmm (Vm Index Row setRow_self setRow_of_ne setWord_self setWord_of_ne)

variable {start size n p : ℕ} {m : Machine} {F : List ℕ} {v : Vm} {s : State}

/-- The same memory and the same frames, by numbers and by addresses. -/
structure Numbered (v : Vm) (s : State) : Prop where
  mem : ∀ n (i : Index), s.mem (n * 1024 + i.val) = v.mem n i
  firstFree : pointer s.firstFree = v.firstFree.map (· * frameSize)
  avail : s.avail = v.avail * frameSize
  limit : s.limit = v.limit * frameSize

theorem inFrame_number (n n' : ℕ) (i : Index) : InFrame (n * frameSize) (n' * 1024 + i.val) ↔ n' = n := by
  have hi := i.isLt
  unfold InFrame frameSize
  omega

theorem Numbered.mem_handOut (h : Numbered v s) (n n' : ℕ) (i : Index) :
    bzero s.mem (n * frameSize) (n' * 1024 + i.val) = (v.setRow n fun _ => 0#32).mem n' i := by
  by_cases hn : n' = n
  · rw [hn, setRow_self]
    exact if_pos ((inFrame_number n n i).mpr rfl)
  · rw [setRow_of_ne hn, bzero_of_not (mt (inFrame_number n n' i).mp hn), h.mem]

theorem pointer_unlink {w : Word} (h : w.toNat % frameSize = 0) :
    pointer w.toNat = (Vmm.unlink w).map (· * frameSize) := by
  unfold pointer Vmm.unlink
  by_cases hw : w = 0#32
  · rw [hw]
    rfl
  · have hpos : w.toNat ≠ 0 := fun hc => hw (BitVec.eq_of_toNat_eq hc)
    rw [if_neg hpos, if_neg hw, Option.map_some, pageNumber_eq_shift, Nat.shiftRight_eq_div_pow]
    unfold frameSize at *
    congr 1
    omega

/-- **`alloc_frame`**: the same frame, or none left. -/
theorem Numbered.alloc (h : Numbered v m.state) (S : Sound start size m F) (R : Range start size) :
    (∃ n v' s', Vmm.allocFrame v = .ok (n, v') ∧ allocFrame m.state = .ok (n * frameSize, s') ∧
      Numbered v' s') ∨
    Vmm.allocFrame v = .error .noMoreFrames ∧ allocFrame m.state = .error .noMoreFrames := by
  have hfirst := h.firstFree
  cases F with
  | cons p F =>
    obtain ⟨hp, hrest⟩ := S.free
    rw [hp] at hfirst
    obtain ⟨n, hn, rfl⟩ := Option.map_eq_some_iff.mp hfirst.symm
    obtain ⟨hp, hpos⟩ := pointer_eq_some.mp hp
    have hword : m.state.mem (m.state.firstFree / 4) = v.mem n 0 := by
      rw [hp, ← h.mem n 0]
      congr 1
      unfold frameSize
      show n * 4096 / 4 = n * 1024 + 0
      omega
    have hlink : (v.mem n 0).toNat % frameSize = 0 := by
      have hhead : pointer (v.mem n 0).toNat = F.head? := by
        rw [← hword, hp]
        exact hrest.eq_head
      by_cases h0 : (v.mem n 0).toNat = 0
      · rw [h0, Nat.zero_mod]
      · have hin : (v.mem n 0).toNat ∈ F := List.mem_of_head? (hhead.symm.trans (if_neg h0))
        exact (S.mem_range (List.mem_append_right _ (List.mem_cons_of_mem _ hin))).1
    have hvm : Vmm.allocFrame v = .ok (n,
        ({ v with firstFree := Vmm.unlink (v.mem n 0) }).setRow n fun _ => 0#32) := by
      rw [Vmm.allocFrame, hn]
    have halloc := allocFrame_first (s := m.state) (hp ▸ hpos) (hp ▸ Nat.mul_mod_left _ _)
    rw [hword, hp] at halloc
    exact .inl ⟨n, _, _, hvm, halloc, fun n' i => h.mem_handOut n n' i, pointer_unlink hlink,
      h.avail, h.limit⟩
  | nil =>
    have hnone : v.firstFree = none := by
      rw [show pointer m.state.firstFree = none from S.free] at hfirst
      exact Option.map_eq_none_iff.mp hfirst.symm
    have hzero := pointer_eq_none.mp S.free
    have hiff : m.state.avail = m.state.limit ↔ v.avail = v.limit := by
      rw [h.avail, h.limit]
      unfold frameSize
      omega
    by_cases heq : v.avail = v.limit
    · refine .inr ⟨?_, allocFrame_none hzero (hiff.mpr heq)⟩
      rw [Vmm.allocFrame, hnone]
      exact if_pos heq
    · have hle : m.state.avail + frameSize < 2 ^ 32 := by
        have h1 := S.avail_le
        have h2 := R.high
        have h3 := mt hiff.mp heq
        have h4 := S.limit
        unfold frameSize at *
        omega
      have hvm : Vmm.allocFrame v = .ok (v.avail,
          ({ v with avail := v.avail + 1 }).setRow v.avail fun _ => 0#32) := by
        rw [Vmm.allocFrame, hnone]
        exact if_neg heq
      have halloc := allocFrame_next hzero (mt hiff.mp heq) (S.avail_mod R)
      rw [Nat.mod_eq_of_lt hle, h.avail, ← Nat.succ_mul] at halloc
      exact .inl ⟨v.avail, _, _, hvm, halloc, fun n' i => h.mem_handOut v.avail n' i, h.firstFree,
        rfl, h.limit⟩

/-- **`dealloc_frame`** of the same frame. -/
theorem Numbered.dealloc (h : Numbered v s) (hn : n ≠ 0) :
    ∃ v' s', Vmm.deallocFrame n v = .ok ((), v') ∧ deallocFrame (n * frameSize) s = .ok ((), s') ∧
      Numbered v' s' := by
  refine ⟨_, _, rfl, deallocFrame_eq (Nat.mul_mod_left _ _), fun n' i => ?_, ?_, h.avail, h.limit⟩
  · have hat : n * frameSize / 4 = n * 1024 + (0 : Index).val := by
      unfold frameSize
      show n * 4096 / 4 = n * 1024 + 0
      omega
    show update s.mem (n * frameSize / 4) (BitVec.ofNat 32 s.firstFree) (n' * 1024 + i.val) =
      (v.setWord n 0 (Vmm.link v.firstFree)).mem n' i
    by_cases hni : n' = n ∧ i = 0
    · obtain ⟨rfl, rfl⟩ := hni
      rw [hat, update_self, setWord_self]
      have hfirst := h.firstFree
      cases hv : v.firstFree with
      | none =>
        rw [hv] at hfirst
        rw [pointer_eq_none.mp hfirst]
        rfl
      | some q =>
        rw [hv] at hfirst
        rw [(pointer_eq_some.mp hfirst).1]
        rfl
    · have hi := i.isLt
      have hne : n' * 1024 + i.val ≠ n * frameSize / 4 := fun hc => by
        unfold frameSize at hc
        exact hni ⟨by omega, Fin.ext (show i.val = 0 by omega)⟩
      rw [update_of_ne hne, h.mem, setWord_of_ne (by
        by_contra hc
        push Not at hc
        exact hni hc)]
  · exact pointer_eq_some.mpr ⟨rfl, Nat.mul_ne_zero hn (by decide)⟩

/-! ### Clients -/

/-- What a client asks for, by numbers of frames and of words in them. -/
inductive Command where
  | alloc
  | dealloc (n : ℕ)
  | read (n : ℕ) (i : Index)
  | write (n : ℕ) (i : Index) (x : Word)

inductive Answer where
  | frame (p : ℕ)
  | word (x : Word)
  | done
  /-- The kernel has stopped. -/
  | panic
  deriving DecidableEq

/-- The answer of the allocator by addresses. -/
def Machine.perform : Command → Machine → Answer × Machine
  | .alloc, m =>
    match allocFrame m.state with
    | .ok (p, s) => (.frame p, ⟨s, p :: m.allocated, p :: m.handedOut⟩)
    | .error _ => (.panic, m)
  | .dealloc n, m =>
    match deallocFrame (n * frameSize) m.state with
    | .ok ((), s) => (.done, ⟨s, m.allocated.erase (n * frameSize), m.handedOut⟩)
    | .error _ => (.panic, m)
  | .read n i, m => (.word (m.state.mem (n * 1024 + i.val)), m)
  | .write n i x, m =>
    (.done, { m with state.mem := update m.state.mem (n * 1024 + i.val) x })

/-- The answer of the allocator by numbers. -/
def performByNumber : Command → Vm → Answer × Vm
  | .alloc, v =>
    match Vmm.allocFrame v with
    | .ok (n, v) => (.frame n, v)
    | .error _ => (.panic, v)
  | .dealloc n, v =>
    match Vmm.deallocFrame n v with
    | .ok ((), v) => (.done, v)
    | .error _ => (.panic, v)
  | .read n i, v => (.word (v.mem n i), v)
  | .write n i x, v => (.done, v.setWord n i x)

/-- A client gives back frames that it has, and does not write to those that it has given back. -/
def Command.Legal : Command → Machine → Prop
  | .dealloc n, m => n * frameSize ∈ m.allocated
  | .write n _ _, m => ¬ m.GivenBack (n * frameSize)
  | _, _ => True

/-- The same answer, with the address of the frame. -/
def Answer.address : Answer → Answer
  | .frame n => .frame (n * frameSize)
  | a => a

/-- The machine of a state in which nothing has been given back. -/
def State.byNumber (s : State) (refCounts : ℕ → ℤ) : Vm :=
  ⟨fun n i => s.mem (n * 1024 + i.val), refCounts, none, s.avail / frameSize, s.limit / frameSize⟩

theorem word_inj {n n' : ℕ} {i i' : Index} (h : n * 1024 + i.val = n' * 1024 + i'.val) :
    n = n' ∧ i = i' := by
  have hi := i.isLt
  have hi' := i'.isLt
  exact ⟨by omega, Fin.ext (by omega)⟩

theorem Numbered.write (h : Numbered v s) (n : ℕ) (i : Index) (x : Word) :
    Numbered (v.setWord n i x) { s with mem := update s.mem (n * 1024 + i.val) x } := by
  refine ⟨fun n' i' => ?_, h.firstFree, h.avail, h.limit⟩
  show update s.mem (n * 1024 + i.val) x (n' * 1024 + i'.val) = _
  by_cases heq : n' = n ∧ i' = i
  · obtain ⟨rfl, rfl⟩ := heq
    rw [update_self, setWord_self]
  · rw [update_of_ne fun hc => heq (word_inj hc), setWord_of_ne (not_and_or.mp heq)]
    exact h.mem n' i'

theorem step_write (hlegal : ¬ m.GivenBack (n * frameSize)) (i : Index) (x : Word)
    (S : Sound start size m F) :
    Step m { m with state.mem := update m.state.mem (n * 1024 + i.val) x } := by
  refine .write fun p k hp hk => update_of_ne ?_ _ _
  rintro rfl
  -- the frames that were given back start at multiples of the frame size
  obtain ⟨n', rfl⟩ := Nat.dvd_of_mod_eq_zero
    (S.mem_range (List.mem_append_right m.allocated (S.givenBack.mp hp))).1
  rw [Nat.mul_comm, inFrame_number] at hk
  exact hlegal (by rwa [hk, Nat.mul_comm])

/-- **One command**: the two machines give the same answer and stay related, and what the client did
is a step. -/
theorem Numbered.perform {c : Command} (h : Numbered v m.state) (S : Sound start size m F)
    (R : Range start size) (hlegal : c.Legal m) :
    (m.perform c).1 = (performByNumber c v).1.address ∧
      Numbered (performByNumber c v).2 (m.perform c).2.state ∧
      (Step m (m.perform c).2 ∨ (m.perform c).2 = m) := by
  cases c with
  | alloc =>
    unfold Machine.perform performByNumber
    rcases h.alloc S R with ⟨n, v', s', hv, hs, h'⟩ | ⟨hv, hs⟩
    · simp only [hv, hs]
      exact ⟨rfl, h', .inl (.alloc hs)⟩
    · simp only [hv, hs]
      exact ⟨rfl, h, .inr trivial⟩
  | dealloc n =>
    have hpos := S.pos R (List.mem_append_left F hlegal)
    obtain ⟨v', s', hv, hs, h'⟩ := h.dealloc (left_ne_zero_of_mul hpos)
    unfold Machine.perform performByNumber
    simp only [hv, hs]
    exact ⟨rfl, h', .inl (.dealloc hlegal hs)⟩
  | read n i => exact ⟨congrArg Answer.word (h.mem n i), h, .inr rfl⟩
  | write n i x => exact ⟨rfl, h.write n i x, .inl (step_write hlegal i x S)⟩

theorem numbers_simulate (R : Range start size) :
    Simulates (fun m v => Numbered v m.state ∧ ∃ F, Sound start size m F) (fun a b => a = b.address)
      Command.Legal Machine.perform performByNumber := by
  constructor
  · rintro c m v ⟨h, F, S⟩ hlegal
    exact (h.perform S R hlegal).1
  · rintro c m v ⟨h, F, S⟩ hlegal
    obtain ⟨-, h', hnext | hsame⟩ := h.perform S R hlegal
    · exact ⟨h', S.step R hnext⟩
    · exact ⟨h', F, hsame.symm ▸ S⟩

/-- **The allocator by addresses and the one by numbers answer alike.**  After `init`, whatever a
client asks for: it gets the same frames, reads the same words, and the one panics when the other
does. -/
theorem numbers_refine (R : Range start size) {s₀ : State} (hfree : s₀.firstFree = 0)
    (hleak : s₀.leakCount = 0) (refCounts : ℕ → ℤ) :
    ∃ s, init start size s₀ = .ok ((), s) ∧ ∀ cs, Legal Command.Legal Machine.perform ⟨s, [], []⟩ cs →
      List.Forall₂ (fun a b => a = b.address) (runs Machine.perform ⟨s, [], []⟩ cs).1
        (runs performByNumber (s.byNumber refCounts) cs).1 ∧
      Numbered (runs performByNumber (s.byNumber refCounts) cs).2
        (runs Machine.perform ⟨s, [], []⟩ cs).2.state := by
  refine ⟨_, init_eq R.start_mod R.size_mod, fun cs hlegal => ?_⟩
  have S := R.sound hfree hleak
  have h : Numbered ({ s₀ with avail := start, limit := (start + size) % 2 ^ 32 }.byNumber refCounts)
      { s₀ with avail := start, limit := (start + size) % 2 ^ 32 } := by
    have hlimit := S.limit
    have hstart := R.start_mod
    have hsize := R.size_mod
    refine ⟨fun _ _ => rfl, pointer_eq_none.mpr hfree, ?_, ?_⟩
    · exact (Nat.div_mul_cancel (Nat.dvd_of_mod_eq_zero hstart)).symm
    · refine (Nat.div_mul_cancel (Nat.dvd_of_mod_eq_zero ?_)).symm
      rw [show (start + size) % 2 ^ 32 = start + size from hlimit, Nat.add_mod, hstart, hsize]
      rfl
  obtain ⟨hanswers, hend⟩ := (numbers_simulate R).runs cs ⟨h, [], S⟩ hlegal
  exact ⟨hanswers, hend.1⟩

/-- Two frames, of which the first is given back and handed out again. -/
theorem numbers_refine_reused : ∃ s, init 4096 8192 blank = .ok ((), s) ∧
    (runs Machine.perform ⟨s, [], []⟩ [.alloc, .alloc, .write 1 3 7#32, .dealloc 1, .alloc, .read 1 3]).1 =
      [.frame 4096, .frame 8192, .done, .done, .frame 4096, .word 0#32] := by
  have R : Range 4096 8192 := by constructor <;> decide
  obtain ⟨s, hinit, h⟩ := numbers_refine R (show blank.firstFree = 0 from rfl) rfl 0
  refine ⟨s, hinit, ?_⟩
  obtain rfl : _ = s :=
    (Prod.ext_iff.mp (Except.ok.inj ((init_eq (by decide) (by decide)).symm.trans hinit))).2
  have hanswers := (h [.alloc, .alloc, .write 1 3 7#32, .dealloc 1, .alloc, .read 1 3]
    ⟨trivial, trivial, fun hback => hback.2 (by decide), show 4096 ∈ [8192, 4096] by decide,
      trivial, trivial, trivial⟩).1
  rw [← List.forall₂_map_right_iff, List.forall₂_eq_eq_eq] at hanswers
  exact hanswers.trans rfl

end GheithOS.PhysMem
