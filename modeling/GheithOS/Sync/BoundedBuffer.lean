import Mathlib.Data.Fintype.EquivFin
import GheithOS.Lib.Tickets

/-!
# GheithOS.Sync.BoundedBuffer — `bounded_buffer.h`

The bodies of `put` and `get`, on any number of cores.  A call is a thread that makes one atomic
step at a time; the schedule is a list that says whose step comes next.  A step that cannot be made
(a permit of a semaphore that is not there, a `cmp_exchange` that fails) leaves the state as it is,
which is the round of a loop.  The semaphores are counting semaphores.

Beside its local variable `previous_index` a thread carries the number of its ticket, which the
program does not know: the buffer hands out tickets modulo its size.  That the size is enough to
tell the tickets apart is what the two semaphores are for (`Inv.window`); the rest is the order in
which tickets are committed (`Lib.Tickets`).
-/

namespace GheithOS.Sync.BoundedBuffer

open Lib Function

variable {α : Type} {N M : ℕ}

/-- Where a call of `put` is. -/
inductive PutPc where
  | blocked
  | permitted
  | drawn (ticket previousIndex : ℕ)
  | written (ticket previousIndex : ℕ)
  | committed (ticket : ℕ)
  | done (ticket : ℕ)

/-- Where a call of `get` is. -/
inductive GetPc (α : Type) where
  | blocked
  | permitted
  | drawn (ticket previousIndex : ℕ)
  | read (ticket previousIndex : ℕ) (value : α)
  | cleared (ticket previousIndex : ℕ) (value : α)
  | committed (ticket : ℕ) (value : α)
  | done (ticket : ℕ) (value : α)

namespace PutPc

@[simp] def rank : PutPc → ℕ
  | blocked => 0
  | permitted => 1
  | drawn _ _ => 2
  | written _ _ => 3
  | committed _ => 4
  | done _ => 5

@[simp] def ticket : PutPc → ℕ
  | drawn k _ | written k _ | committed k | done k => k
  | _ => 0

@[simp] def previousIndex : PutPc → Option ℕ
  | drawn _ p | written _ p => some p
  | _ => none

end PutPc

namespace GetPc

@[simp] def rank : GetPc α → ℕ
  | blocked => 0
  | permitted => 1
  | drawn _ _ => 2
  | read _ _ _ => 3
  | cleared _ _ _ => 4
  | committed _ _ => 5
  | done _ _ => 6

@[simp] def ticket : GetPc α → ℕ
  | drawn k _ | read k _ _ | cleared k _ _ | committed k _ | done k _ => k
  | _ => 0

@[simp] def previousIndex : GetPc α → Option ℕ
  | drawn _ p | read _ p _ | cleared _ p _ => some p
  | _ => none

/-- The value that the call has read. -/
@[simp] def value : GetPc α → Option α
  | read _ _ v | cleared _ _ v | committed _ v | done _ v => some v
  | _ => none

end GetPc

structure State (α : Type) (N M : ℕ) where
  senders : ℕ
  receivers : ℕ
  buffer : ℕ → α
  head : ℕ
  tail : ℕ
  committedAdds : ℕ
  committedRemoves : ℕ
  puts : Fin N → PutPc
  gets : Fin M → GetPc α

/-- A new buffer of `n` slots. -/
def init (n : ℕ) (empty : α) : State α N M where
  senders := n
  receivers := 0
  buffer _ := empty
  head := 0
  tail := 0
  committedAdds := 0
  committedRemoves := 0
  puts _ := .blocked
  gets _ := .blocked

/-- The next step of the `i`-th call of `put`, which puts `v i`. -/
def putStep (n : ℕ) (v : Fin N → α) (s : State α N M) (i : Fin N) : State α N M :=
  match s.puts i with
  | .blocked =>
    if 0 < s.senders then { s with senders := s.senders - 1, puts := update s.puts i .permitted } else s
  | .permitted =>
    { s with
      tail := (s.tail + 1) % n
      puts := update s.puts i (.drawn (atLeast PutPc.rank 2 s.puts) s.tail) }
  | .drawn k p =>
    { s with buffer := update s.buffer ((p + 1) % n) (v i), puts := update s.puts i (.written k p) }
  | .written k p =>
    if s.committedAdds = p then
      { s with committedAdds := (p + 1) % n, puts := update s.puts i (.committed k) }
    else s
  | .committed k => { s with receivers := s.receivers + 1, puts := update s.puts i (.done k) }
  | .done _ => s

/-- The next step of the `j`-th call of `get`. -/
def getStep (n : ℕ) (empty : α) (s : State α N M) (j : Fin M) : State α N M :=
  match s.gets j with
  | .blocked =>
    if 0 < s.receivers then { s with receivers := s.receivers - 1, gets := update s.gets j .permitted }
    else s
  | .permitted =>
    { s with
      head := (s.head + 1) % n
      gets := update s.gets j (.drawn (atLeast GetPc.rank 2 s.gets) s.head) }
  | .drawn k p => { s with gets := update s.gets j (.read k p (s.buffer ((p + 1) % n))) }
  | .read k p w =>
    { s with buffer := update s.buffer ((p + 1) % n) empty, gets := update s.gets j (.cleared k p w) }
  | .cleared k p w =>
    if s.committedRemoves = p then
      { s with committedRemoves := (p + 1) % n, gets := update s.gets j (.committed k w) }
    else s
  | .committed k w => { s with senders := s.senders + 1, gets := update s.gets j (.done k w) }
  | .done _ _ => s

/-- Whose step comes next. -/
inductive Turn (N M : ℕ) where
  | put (i : Fin N)
  | get (j : Fin M)

def step (n : ℕ) (v : Fin N → α) (empty : α) (s : State α N M) : Turn N M → State α N M
  | .put i => putStep n v s i
  | .get j => getStep n empty s j

def run (n : ℕ) (v : Fin N → α) (empty : α) (schedule : List (Turn N M)) : State α N M :=
  schedule.foldl (step n v empty) (init n empty)

/-! ### The invariant -/

/-- The slot of a ticket has been written and not yet cleared. -/
def Full (s : State α N M) (i : Fin N) : Prop :=
  3 ≤ (s.puts i).rank ∧ ∀ j, 4 ≤ (s.gets j).rank → (s.gets j).ticket ≠ (s.puts i).ticket

structure Inv (n : ℕ) (v : Fin N → α) (s : State α N M) : Prop where
  adds : Tickets PutPc.rank PutPc.ticket 2 4 s.puts
  removes : Tickets GetPc.rank GetPc.ticket 2 5 s.gets
  senders : s.senders + atLeast PutPc.rank 1 s.puts = n + atLeast GetPc.rank 6 s.gets
  receivers : s.receivers + atLeast GetPc.rank 1 s.gets = atLeast PutPc.rank 5 s.puts
  tail : s.tail = atLeast PutPc.rank 2 s.puts % n
  head : s.head = atLeast GetPc.rank 2 s.gets % n
  committedAdds : s.committedAdds = atLeast PutPc.rank 4 s.puts % n
  committedRemoves : s.committedRemoves = atLeast GetPc.rank 5 s.gets % n
  putIndex : ∀ i, ∀ p ∈ (s.puts i).previousIndex, p = (s.puts i).ticket % n
  getIndex : ∀ j, ∀ p ∈ (s.gets j).previousIndex, p = (s.gets j).ticket % n
  data : ∀ i, Full s i → s.buffer (((s.puts i).ticket + 1) % n) = v i
  got : ∀ j, ∀ w ∈ (s.gets j).value, ∃ i, 2 ≤ (s.puts i).rank ∧
      (s.puts i).ticket = (s.gets j).ticket ∧ w = v i

section Invariant

variable {n : ℕ} {v : Fin N → α} {s : State α N M} {i : Fin N} {j : Fin M}

theorem inv_init (n : ℕ) (v : Fin N → α) (empty : α) : Inv n v (init n empty : State α N M) := by
  have hp : ∀ r, 0 < r → atLeast PutPc.rank r (init n empty : State α N M).puts = 0 := fun r hr =>
    atLeast_zero_rank (p := PutPc.blocked) rfl hr
  have hg : ∀ r, 0 < r → atLeast GetPc.rank r (init n empty : State α N M).gets = 0 := fun r hr =>
    atLeast_zero_rank (p := GetPc.blocked) rfl hr
  exact {
    adds := tickets_init (p := PutPc.blocked) rfl (by decide)
    removes := tickets_init (p := GetPc.blocked) rfl (by decide)
    senders := by rw [hp 1 (by decide), hg 6 (by decide)]; rfl
    receivers := by rw [hp 5 (by decide), hg 1 (by decide)]; rfl
    tail := by rw [hp 2 (by decide), Nat.zero_mod]; rfl
    head := by rw [hg 2 (by decide), Nat.zero_mod]; rfl
    committedAdds := by rw [hp 4 (by decide), Nat.zero_mod]; rfl
    committedRemoves := by rw [hg 5 (by decide), Nat.zero_mod]; rfl
    putIndex := fun _ p h => by cases h
    getIndex := fun _ p h => by cases h
    data := fun _ h => absurd h.1 (by simp [init])
    got := fun _ w h => by cases h }

/-- **The window**: what has been added is at most `n` ahead of what has been removed, and what is
being removed has been added. -/
theorem Inv.window (h : Inv n v s) :
    atLeast PutPc.rank 2 s.puts ≤ atLeast GetPc.rank 5 s.gets + n ∧
      atLeast GetPc.rank 2 s.gets ≤ atLeast PutPc.rank 4 s.puts ∧
      atLeast GetPc.rank 5 s.gets ≤ atLeast GetPc.rank 2 s.gets ∧
      atLeast PutPc.rank 4 s.puts ≤ atLeast PutPc.rank 2 s.puts := by
  have h1 := h.senders
  have h2 := h.receivers
  have p12 : atLeast PutPc.rank 2 s.puts ≤ atLeast PutPc.rank 1 s.puts := atLeast_anti (by decide)
  have p24 : atLeast PutPc.rank 4 s.puts ≤ atLeast PutPc.rank 2 s.puts := atLeast_anti (by decide)
  have p45 : atLeast PutPc.rank 5 s.puts ≤ atLeast PutPc.rank 4 s.puts := atLeast_anti (by decide)
  have g12 : atLeast GetPc.rank 2 s.gets ≤ atLeast GetPc.rank 1 s.gets := atLeast_anti (by decide)
  have g25 : atLeast GetPc.rank 5 s.gets ≤ atLeast GetPc.rank 2 s.gets := atLeast_anti (by decide)
  have g56 : atLeast GetPc.rank 6 s.gets ≤ atLeast GetPc.rank 5 s.gets := atLeast_anti (by decide)
  omega

theorem Inv.slot_inj (h : Inv n v s) {k l : ℕ} (hk : atLeast GetPc.rank 5 s.gets ≤ k)
    (hk' : k < atLeast PutPc.rank 2 s.puts) (hl : atLeast GetPc.rank 5 s.gets ≤ l)
    (hl' : l < atLeast PutPc.rank 2 s.puts) (heq : (k + 1) % n = (l + 1) % n) : k = l := by
  have hw := h.window.1
  rcases Nat.le_total k l with hle | hle
  · have h0 : (l + 1 - (k + 1)) % n = 0 := Nat.sub_mod_eq_zero_of_mod_eq heq.symm
    rw [Nat.mod_eq_of_lt (by omega)] at h0
    omega
  · have h0 : (k + 1 - (l + 1)) % n = 0 := Nat.sub_mod_eq_zero_of_mod_eq heq
    rw [Nat.mod_eq_of_lt (by omega)] at h0
    omega

theorem Inv.full_window (h : Inv n v s) (hf : Full s i) :
    atLeast GetPc.rank 5 s.gets ≤ (s.puts i).ticket ∧ (s.puts i).ticket < atLeast PutPc.rank 2 s.puts := by
  refine ⟨?_, h.adds.lt i (by have := hf.1; omega)⟩
  by_contra hlt
  have hw := h.window
  -- the call of `get` with this ticket has committed, so it has cleared the slot
  obtain ⟨j, hj, hjk⟩ := h.removes.drawn (s.puts i).ticket (by omega)
  have hc := (h.removes.order j hj).mpr (by omega)
  exact hf.2 j (by omega) hjk

theorem Inv.get_window (h : Inv n v s) (hj : 2 ≤ (s.gets j).rank) (hj' : (s.gets j).rank < 5) :
    atLeast GetPc.rank 5 s.gets ≤ (s.gets j).ticket ∧ (s.gets j).ticket < atLeast PutPc.rank 2 s.puts := by
  have hw := h.window
  have h1 := h.removes.lt j hj
  have h2 := (h.removes.order j hj).not.mp (by omega)
  omega

theorem Inv.put_window (h : Inv n v s) (hi : 2 ≤ (s.puts i).rank) (hi' : (s.puts i).rank < 4) :
    atLeast GetPc.rank 5 s.gets ≤ (s.puts i).ticket ∧ (s.puts i).ticket < atLeast PutPc.rank 2 s.puts := by
  have hw := h.window
  have h1 := h.adds.lt i hi
  have h2 := (h.adds.order i hi).not.mp (by omega)
  omega

theorem Inv.written_of_get (h : Inv n v s) (hj : 2 ≤ (s.gets j).rank) (hj' : (s.gets j).rank < 4) :
    ∃ i, (s.puts i).ticket = (s.gets j).ticket ∧ Full s i := by
  have hw := h.window
  have h1 := h.removes.lt j hj
  obtain ⟨i, hi, hik⟩ := h.adds.drawn (s.gets j).ticket (by omega)
  have hc := (h.adds.order i hi).mpr (by omega)
  refine ⟨i, hik, by omega, fun l hl heq => ?_⟩
  have := h.removes.unique l j (by omega) hj (heq.trans hik)
  subst this
  omega

/-! ### One step -/

/-- **A step of a call of `put`** that raises its rank to that of `x`. -/
theorem Inv.put_advance (h : Inv n v s) {s' : State α N M} {x : PutPc} (hputs : s'.puts = update s.puts i x)
    (hgets : s'.gets = s.gets) (hx : x.rank = (s.puts i).rank + 1)
    (hdraw : x.rank = 2 → x.ticket = atLeast PutPc.rank 2 s.puts)
    (hkeep : 2 ≤ (s.puts i).rank → x.ticket = (s.puts i).ticket)
    (hgate : x.rank = 4 → (s.puts i).ticket = atLeast PutPc.rank 4 s.puts)
    (hindex : ∀ p ∈ x.previousIndex, p = x.ticket % n)
    (hsenders : s'.senders + (if 1 = x.rank then 1 else 0) = s.senders)
    (hreceivers : s'.receivers = s.receivers + if 5 = x.rank then 1 else 0)
    (htail : s'.tail = if 2 = x.rank then (s.tail + 1) % n else s.tail)
    (hcommitted : s'.committedAdds = if 4 = x.rank then (s.committedAdds + 1) % n else s.committedAdds)
    (hhead : s'.head = s.head) (hremoved : s'.committedRemoves = s.committedRemoves)
    (hbuffer : s'.buffer = if 3 = x.rank then update s.buffer ((x.ticket + 1) % n) (v i) else s.buffer) :
    Inv n v s' := by
  have hcount : ∀ r, atLeast PutPc.rank r (update s.puts i x) =
      atLeast PutPc.rank r s.puts + if r = x.rank then 1 else 0 := fun r => atLeast_advance hx r
  have hself : s'.puts i = x := by rw [hputs, update_self]
  have hother : ∀ l, l ≠ i → s'.puts l = s.puts l := fun l hl => by rw [hputs, update_of_ne hl]
  refine {
    adds := by
      rw [hputs]
      exact h.adds.advance (by decide) hx hdraw hkeep hgate
    removes := by
      rw [hgets]
      exact h.removes
    senders := ?_
    receivers := ?_
    tail := ?_
    head := by rw [hhead, hgets, h.head]
    committedAdds := ?_
    committedRemoves := by rw [hremoved, hgets, h.committedRemoves]
    putIndex := fun l p hp => ?_
    getIndex := by
      rw [hgets]
      exact h.getIndex
    data := fun l hl => ?_
    got := fun j w hw => ?_ }
  · have := h.senders
    rw [hputs, hgets, hcount]
    omega
  · have := h.receivers
    rw [hputs, hgets, hcount, hreceivers]
    omega
  · rw [htail, hputs, hcount, h.tail]
    split_ifs
    · rw [Nat.mod_add_mod]
    · rfl
  · rw [hcommitted, hputs, hcount, h.committedAdds]
    split_ifs
    · rw [Nat.mod_add_mod]
    · rfl
  · by_cases hli : l = i
    · subst hli
      rw [hself] at hp ⊢
      exact hindex p hp
    · rw [hother l hli] at hp ⊢
      exact h.putIndex l p hp
  · by_cases hli : l = i
    · subst hli
      rw [Full, hself, hgets] at hl
      rw [hself, hbuffer]
      by_cases h3 : 3 = x.rank
      · rw [if_pos h3, update_self]
      · rw [if_neg h3, hkeep (by omega)]
        refine h.data l ⟨by omega, ?_⟩
        rw [← hkeep (by omega)]
        exact hl.2
    · have hfull : Full s l := by
        rw [Full, hother l hli, hgets] at hl
        exact hl
      rw [hother l hli, hbuffer]
      by_cases h3 : 3 = x.rank
      · rw [if_pos h3, update_of_ne]
        · exact h.data l hfull
        · -- the slot that is written belongs to another ticket of the window
          intro heq
          rw [hkeep (by omega)] at heq
          have hw := h.full_window hfull
          have hw' := h.put_window (i := i) (by omega) (by omega)
          have hf := hfull.1
          exact hli (h.adds.unique l i (by omega) (by omega) (h.slot_inj hw.1 hw.2 hw'.1 hw'.2 heq))
      · rw [if_neg h3]
        exact h.data l hfull
  · rw [hgets] at hw ⊢
    obtain ⟨l, hl, hlk, hv⟩ := h.got j w hw
    refine ⟨l, ?_, ?_, hv⟩
    · by_cases hli : l = i
      · subst hli
        rw [hself]
        omega
      · rwa [hother l hli]
    · by_cases hli : l = i
      · subst hli
        rw [hself, hkeep hl, hlk]
      · rw [hother l hli, hlk]

/-- **A step of a call of `get`** that raises its rank to that of `x`. -/
theorem Inv.get_advance (h : Inv n v s) (empty : α) {s' : State α N M} {x : GetPc α}
    (hgets : s'.gets = update s.gets j x) (hputs : s'.puts = s.puts) (hx : x.rank = (s.gets j).rank + 1)
    (hdraw : x.rank = 2 → x.ticket = atLeast GetPc.rank 2 s.gets)
    (hkeep : 2 ≤ (s.gets j).rank → x.ticket = (s.gets j).ticket)
    (hgate : x.rank = 5 → (s.gets j).ticket = atLeast GetPc.rank 5 s.gets)
    (hindex : ∀ p ∈ x.previousIndex, p = x.ticket % n)
    (hvalue : ∀ w ∈ x.value, w ∈ (s.gets j).value ∧ 2 ≤ (s.gets j).rank ∨
      x.rank = 3 ∧ w = s.buffer ((x.ticket + 1) % n))
    (hreceivers : s'.receivers + (if 1 = x.rank then 1 else 0) = s.receivers)
    (hsenders : s'.senders = s.senders + if 6 = x.rank then 1 else 0)
    (hhead : s'.head = if 2 = x.rank then (s.head + 1) % n else s.head)
    (hremoved : s'.committedRemoves = if 5 = x.rank then (s.committedRemoves + 1) % n
      else s.committedRemoves)
    (htail : s'.tail = s.tail) (hcommitted : s'.committedAdds = s.committedAdds)
    (hbuffer : s'.buffer = if 4 = x.rank then update s.buffer ((x.ticket + 1) % n) empty else s.buffer) :
    Inv n v s' := by
  have hcount : ∀ r, atLeast GetPc.rank r (update s.gets j x) =
      atLeast GetPc.rank r s.gets + if r = x.rank then 1 else 0 := fun r => atLeast_advance hx r
  have hself : s'.gets j = x := by rw [hgets, update_self]
  have hother : ∀ l, l ≠ j → s'.gets l = s.gets l := fun l hl => by rw [hgets, update_of_ne hl]
  refine {
    adds := by
      rw [hputs]
      exact h.adds
    removes := by
      rw [hgets]
      exact h.removes.advance (by decide) hx hdraw hkeep hgate
    senders := ?_
    receivers := ?_
    tail := by rw [htail, hputs, h.tail]
    head := ?_
    committedAdds := by rw [hcommitted, hputs, h.committedAdds]
    committedRemoves := ?_
    putIndex := by
      rw [hputs]
      exact h.putIndex
    getIndex := fun l p hp => ?_
    data := fun i hi => ?_
    got := fun l w hw => ?_ }
  · have := h.senders
    rw [hputs, hgets, hcount, hsenders]
    omega
  · have := h.receivers
    rw [hputs, hgets, hcount]
    omega
  · rw [hhead, hgets, hcount, h.head]
    split_ifs
    · rw [Nat.mod_add_mod]
    · rfl
  · rw [hremoved, hgets, hcount, h.committedRemoves]
    split_ifs
    · rw [Nat.mod_add_mod]
    · rfl
  · by_cases hlj : l = j
    · subst hlj
      rw [hself] at hp ⊢
      exact hindex p hp
    · rw [hother l hlj] at hp ⊢
      exact h.getIndex l p hp
  · have hfull : Full s i := by
      rw [Full, hputs] at hi
      refine ⟨hi.1, fun l hl => ?_⟩
      have := hi.2 l
      by_cases hlj : l = j
      · subst hlj
        rw [hself, hkeep (by omega)] at this
        exact this (by omega)
      · rw [hother l hlj] at this
        exact this hl
    rw [hputs, hbuffer]
    by_cases h4 : 4 = x.rank
    · rw [if_pos h4, update_of_ne]
      · exact h.data i hfull
      · -- the slot that is cleared belongs to a ticket that is cleared
        intro heq
        rw [hkeep (by omega)] at heq
        have hw := h.full_window hfull
        have hw' := h.get_window (j := j) (by omega) (by omega)
        have hk := h.slot_inj hw.1 hw.2 hw'.1 hw'.2 heq
        have hne := hi.2 j
        rw [hself, hputs, hkeep (by omega)] at hne
        exact hne (by omega) hk.symm
    · rw [if_neg h4]
      exact h.data i hfull
  · rw [hputs]
    by_cases hlj : l = j
    · subst hlj
      rw [hself] at hw ⊢
      rcases hvalue w hw with ⟨hold, h2⟩ | ⟨h3, rfl⟩
      · rw [hkeep h2]
        exact h.got l w hold
      · rw [hkeep (by omega)]
        obtain ⟨i, hik, hfull⟩ := h.written_of_get (j := l) (by omega) (by omega)
        have hf := hfull.1
        refine ⟨i, by omega, hik, ?_⟩
        rw [← hik, h.data i hfull]
    · rw [hother l hlj] at hw ⊢
      exact h.got l w hw

theorem Inv.putStep (h : Inv n v s) (i : Fin N) : Inv n v (putStep n v s i) := by
  have hindex := h.putIndex i
  unfold BoundedBuffer.putStep
  match hp : s.puts i with
  | .blocked =>
    dsimp only
    by_cases hs : 0 < s.senders
    · rw [if_pos hs]
      refine h.put_advance (i := i) (x := .permitted) rfl rfl ?_ ?_ ?_ ?_ ?_ ?_ rfl rfl rfl rfl rfl
        rfl <;> simp [hp]
      omega
    · rw [if_neg hs]
      exact h
  | .permitted =>
    refine h.put_advance (i := i) (x := .drawn _ s.tail)
      rfl rfl ?_ ?_ ?_ ?_ ?_ rfl rfl rfl rfl rfl rfl rfl <;>
      simp [hp]
    exact h.tail
  | .drawn k p =>
    obtain rfl : p = k % n := by simpa [hp] using hindex
    refine h.put_advance (i := i) (x := .written k (k % n))
      rfl rfl ?_ ?_ ?_ ?_ ?_ rfl rfl rfl rfl rfl rfl ?_ <;>
      simp [hp]
  | .written k p =>
    obtain rfl : p = k % n := by simpa [hp] using hindex
    dsimp only
    by_cases hc : s.committedAdds = k % n
    · rw [if_pos hc]
      have hw := h.window
      have hturn := h.adds.turn (i := i) (n := n) (by omega) (by simp [hp]) (by simp [hp])
        (by rw [← h.committedAdds, hc, hp]; rfl)
      refine h.put_advance (i := i) (x := .committed k) rfl rfl ?_ ?_ ?_
        (fun _ => hturn) ?_ rfl rfl rfl ?_ rfl rfl rfl <;>
        simp [hp, hc]
    · rw [if_neg hc]
      exact h
  | .committed k =>
    refine h.put_advance (i := i) (x := .done k) rfl rfl ?_ ?_ ?_ ?_ ?_ rfl rfl rfl rfl rfl rfl rfl
      <;> simp [hp]
  | .done k => exact h

theorem Inv.getStep (h : Inv n v s) (empty : α) (j : Fin M) : Inv n v (getStep n empty s j) := by
  have hindex := h.getIndex j
  unfold BoundedBuffer.getStep
  match hp : s.gets j with
  | .blocked =>
    dsimp only
    by_cases hr : 0 < s.receivers
    · rw [if_pos hr]
      refine h.get_advance empty (j := j) (x := .permitted)
        rfl rfl ?_ ?_ ?_ ?_ ?_ ?_ ?_ rfl rfl rfl rfl rfl rfl <;>
        simp [hp]
      omega
    · rw [if_neg hr]
      exact h
  | .permitted =>
    refine h.get_advance empty (j := j) (x := .drawn _ s.head)
      rfl rfl ?_ ?_ ?_ ?_ ?_ ?_ rfl rfl rfl rfl rfl rfl rfl <;>
      simp [hp]
    exact h.head
  | .drawn k p =>
    obtain rfl : p = k % n := by simpa [hp] using hindex
    refine h.get_advance empty (j := j) (x := .read k (k % n) _)
      rfl rfl ?_ ?_ ?_ ?_ ?_ ?_ rfl rfl rfl rfl rfl rfl rfl <;>
      simp [hp]
  | .read k p w =>
    obtain rfl : p = k % n := by simpa [hp] using hindex
    refine h.get_advance empty (j := j) (x := .cleared k (k % n) w)
      rfl rfl ?_ ?_ ?_ ?_ ?_ ?_ rfl rfl rfl rfl rfl rfl ?_ <;>
      simp [hp]
  | .cleared k p w =>
    obtain rfl : p = k % n := by simpa [hp] using hindex
    dsimp only
    by_cases hc : s.committedRemoves = k % n
    · rw [if_pos hc]
      have hw := h.window
      have hturn := h.removes.turn (i := j) (n := n) (by omega) (by simp [hp]) (by simp [hp])
        (by rw [← h.committedRemoves, hc, hp]; rfl)
      refine h.get_advance empty (j := j) (x := .committed k w) rfl rfl ?_ ?_ ?_
        (fun _ => hturn) ?_ ?_ rfl rfl rfl ?_ rfl rfl
        rfl <;> simp [hp, hc]
    · rw [if_neg hc]
      exact h
  | .committed k w =>
    refine h.get_advance empty (j := j) (x := .done k w)
      rfl rfl ?_ ?_ ?_ ?_ ?_ ?_ rfl rfl rfl rfl rfl rfl rfl <;> simp [hp]
  | .done k w => exact h

end Invariant

/-! ### Whole schedules -/

theorem inv_run (n : ℕ) (v : Fin N → α) (empty : α) (schedule : List (Turn N M)) :
    Inv n v (run n v empty schedule) := by
  induction schedule using List.reverseRecOn with
  | nil => exact inv_init n v empty
  | append_singleton schedule turn ih =>
    rw [run, List.foldl_append]
    cases turn with
    | put i => exact ih.putStep i
    | get j => exact ih.getStep empty j

/-- **An exactly-once queue.**  On a buffer of any size, after any schedule of any number of calls
of `put` and `get`: a slot that is about to be written holds nothing that is still to be read; a
slot that is about to be read holds the value of the call of `put` with the same ticket; what a call
of `get` has read is the value of the call of `put` with the same ticket; and the tickets of either
side are 0, 1, 2, …, each drawn once. -/
theorem exactly_once (n : ℕ) (v : Fin N → α) (empty : α) (schedule : List (Turn N M)) :
    let s := run n v empty schedule
    (∀ i k p, s.puts i = .drawn k p → ∀ l, 3 ≤ (s.puts l).rank → ((s.puts l).ticket + 1) % n = (p + 1) % n →
      ∃ j, 4 ≤ (s.gets j).rank ∧ (s.gets j).ticket = (s.puts l).ticket) ∧
    (∀ j k p, s.gets j = .drawn k p →
      ∃ i, 3 ≤ (s.puts i).rank ∧ (s.puts i).ticket = k ∧ s.buffer ((p + 1) % n) = v i) ∧
    (∀ j, ∀ w ∈ (s.gets j).value, ∃ i, 2 ≤ (s.puts i).rank ∧
      (s.puts i).ticket = (s.gets j).ticket ∧ w = v i) ∧
    (∀ i, 2 ≤ (s.puts i).rank → (s.puts i).ticket < atLeast PutPc.rank 2 s.puts) ∧
    (∀ k < atLeast PutPc.rank 2 s.puts, ∃! i, 2 ≤ (s.puts i).rank ∧ (s.puts i).ticket = k) ∧
    (∀ j, 2 ≤ (s.gets j).rank → (s.gets j).ticket < atLeast GetPc.rank 2 s.gets) ∧
    (∀ k < atLeast GetPc.rank 2 s.gets, ∃! j, 2 ≤ (s.gets j).rank ∧ (s.gets j).ticket = k) := by
  intro s
  have h : Inv n v s := inv_run n v empty schedule
  refine ⟨fun i k p hi l hl heq => ?_, fun j k p hj => ?_, h.got, h.adds.lt, fun k hk => ?_,
    h.removes.lt, fun k hk => ?_⟩
  · by_contra hno
    push Not at hno
    have hfull : Full s l := ⟨hl, fun j hj => hno j hj⟩
    obtain rfl : p = k % n := by
      have := h.putIndex i
      simpa [hi] using this
    have hw := h.full_window hfull
    have hw' := h.put_window (i := i) (by simp [hi]) (by simp [hi])
    rw [Nat.mod_add_mod, show k = (s.puts i).ticket by rw [hi]; rfl] at heq
    have hli := h.adds.unique l i (by omega) (by simp [hi]) (h.slot_inj hw.1 hw.2 hw'.1 hw'.2 heq)
    subst hli
    rw [hi] at hl
    exact absurd hl (by simp)
  · obtain ⟨i, hik, hfull⟩ := h.written_of_get (j := j) (by simp [hj]) (by simp [hj])
    obtain rfl : p = k % n := by
      have := h.getIndex j
      simpa [hj] using this
    have hk : (s.gets j).ticket = k := by rw [hj]; rfl
    refine ⟨i, hfull.1, hik.trans hk, ?_⟩
    rw [Nat.mod_add_mod, ← h.data i hfull, hik, hk]
  · obtain ⟨i, hi, hik⟩ := h.adds.drawn k hk
    exact ⟨i, ⟨hi, hik⟩, fun l hl => h.adds.unique l i hl.1 hi (hl.2.trans hik.symm)⟩
  · obtain ⟨j, hj, hjk⟩ := h.removes.drawn k hk
    exact ⟨j, ⟨hj, hjk⟩, fun l hl => h.removes.unique l j hl.1 hj (hl.2.trans hjk.symm)⟩

/-- **When all calls are done**, each call of `get` has the value of a call of `put` of its own,
with the same ticket; if there were as many of both, every value has been received, and once. -/
theorem received_once (n : ℕ) (v : Fin N → α) (empty : α) (schedule : List (Turn N M))
    (hdone : ∀ j, ∃ k w, (run n v empty schedule).gets j = .done k w) :
    ∃ f : Fin M → Fin N, Injective f ∧ (M = N → Bijective f) ∧ ∀ j,
      ((run n v empty schedule).gets j).value = some (v (f j)) ∧
      ((run n v empty schedule).puts (f j)).ticket = ((run n v empty schedule).gets j).ticket := by
  have h : Inv n v (run n v empty schedule) := inv_run n v empty schedule
  have hget : ∀ j, ∃ i, ((run n v empty schedule).gets j).value = some (v i) ∧
      ((run n v empty schedule).puts i).ticket = ((run n v empty schedule).gets j).ticket := fun j => by
    obtain ⟨k, w, hj⟩ := hdone j
    obtain ⟨i, -, hticket, hw⟩ := h.got j w (by rw [hj]; rfl)
    exact ⟨i, by rw [hj, ← hw]; rfl, hticket⟩
  have hdrawn : ∀ j, 2 ≤ ((run n v empty schedule).gets j).rank := fun j => by
    obtain ⟨k, w, hj⟩ := hdone j
    simp [hj]
  choose f hvalue hticket using hget
  have hinj : Injective f := fun j l hjl =>
    h.removes.unique j l (hdrawn j) (hdrawn l) (by rw [← hticket j, ← hticket l, hjl])
  exact ⟨f, hinj, fun heq => (Fintype.bijective_iff_injective_and_card f).mpr ⟨hinj, by simp [heq]⟩,
    fun j => ⟨hvalue j, hticket j⟩⟩

end GheithOS.Sync.BoundedBuffer
