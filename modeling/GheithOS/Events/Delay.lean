import GheithOS.Events.Order

/-!
# GheithOS.Events.Delay — when an event becomes ready

`go` computes the deadline `jiffies + delay + 1` in 32 bits, and `remove_if_ready` compares it with
the counter as numbers.  As long as the sum does not pass the limit of the counter, an event is not
ready before `delay` ticks; when it does, the deadline has come at once.

The kernel is taken in steps: calls of `go`, ticks, and the parts of the event loops of the cores,
in any order.  A round of `event_loop` is a sequence of such steps (`round_run`).
-/

namespace GheithOS.Events

open Sync

namespace Kernel

/-- No entry is for this event, as for one that has just been made. -/
def Unqueued (s : Kernel) (e : ℕ) : Prop := ∀ p c, s.pq.entries p = some c → c.e ≠ e

/-- What happens in one step. -/
inductive Op
  | go (e delay : ℕ)
  | tick
  | poll (e : Option ℕ)
  | take
  deriving DecidableEq

/-- The steps: `new` finds a cell that is not in use, and an event that does not wait. -/
inductive Step : Kernel → Op → Kernel → Prop
  | go {s s' : Kernel} {fuel pqe e delay : ℕ} (hnew : s.pq.entries pqe = none) (he : s.Unqueued e)
      (h : s.go fuel pqe e delay = some s') : Step s (.go e delay) s'
  | tick (s : Kernel) : Step s .tick s.tick
  | poll {s s' : Kernel} {r : Option ℕ} (h : s.poll = some (r, s')) : Step s (.poll r) s'
  | take (s : Kernel) : Step s .take s.take.2

/-- Several steps. -/
inductive Run : Kernel → List Op → Kernel → Prop
  | nil (s : Kernel) : Run s [] s
  | cons {s s₁ s₂ : Kernel} {op : Op} {ops : List Op} (h : Step s op s₁) (hs : Run s₁ ops s₂) :
      Run s (op :: ops) s₂

/-- The states of the kernel. -/
def Reached (s : Kernel) : Prop := ∃ ops, Run init ops s

variable {s s' : Kernel} {ops : List Op} {op : Op} {M : List (ℕ × ℕ × ℕ)} {fuel pqe e delay : ℕ}

theorem Run.append {ops₁ ops₂ : List Op} {s₁ s₂ : Kernel} (h₁ : Run s ops₁ s₁) (h₂ : Run s₁ ops₂ s₂) :
    Run s (ops₁ ++ ops₂) s₂ := by
  induction h₁ with
  | nil _ => exact h₂
  | cons h _ ih => exact Run.cons h (ih h₂)

theorem ticks_run {n : ℕ} (h : s.jiffies + n < 2 ^ 32) :
    Run s (List.replicate n .tick) { s with jiffies := s.jiffies + n } := by
  induction n generalizing s with
  | zero => exact Run.nil s
  | succ n ih =>
    have htick : s.tick = { s with jiffies := s.jiffies + 1 } := by rw [tick, Nat.mod_eq_of_lt (by omega)]
    refine Run.cons (Step.tick s) ?_
    rw [htick, ← Nat.add_assoc, Nat.add_right_comm]
    exact ih (s := { s with jiffies := s.jiffies + 1 }) (by show s.jiffies + 1 + n < 2 ^ 32; omega)

/-! ### What a step does to the queue of deadlines -/

theorem go_of_pos (hdelay : 0 < delay) (h : s.go fuel pqe e delay = some s') :
    s.pq.add fuel pqe ((s.jiffies + delay + 1) % 2 ^ 32) e = some s'.pq ∧ s'.jiffies = s.jiffies := by
  rw [go, if_neg (by omega)] at h
  obtain ⟨pq, hpq, hs⟩ := Option.bind_eq_some_iff.mp h
  obtain rfl := Option.some.inj hs
  exact ⟨hpq, rfl⟩

theorem go_zero (h : s.go fuel pqe e 0 = some s') : s'.pq = s.pq ∧ s'.jiffies = s.jiffies := by
  rw [go, if_pos rfl] at h
  obtain rfl := Option.some.inj h
  exact ⟨rfl, rfl⟩

variable {x : ℕ × ℕ × ℕ}

/-- The inner loop takes the first entry when its deadline has come. -/
theorem poll_ready (h : s.pq.Holds (x :: M)) (hready : x.2.1 ≤ s.jiffies) :
    ∃ s', s.poll = some (some x.2.2, s') ∧ s'.pq.Holds M ∧ s'.jiffies = s.jiffies := by
  obtain ⟨q', hq', hremove⟩ := h.remove_cons s.jiffies
  rw [if_pos hready] at hremove
  refine ⟨{ s with pq := q' }.addReady x.2.2, ?_, hq', rfl⟩
  rw [poll, hremove]
  rfl

theorem poll_early (h : s.pq.Holds (x :: M)) (hearly : ¬ x.2.1 ≤ s.jiffies) :
    s.poll = some (none, s) := by
  obtain ⟨_, -, hremove⟩ := h.remove_cons s.jiffies
  rw [if_neg hearly] at hremove
  rw [poll, hremove]
  rfl

theorem poll_empty (h : s.pq.Holds []) : s.poll = some (none, s) := by
  rw [poll, h.remove_nil]
  rfl

variable {r : Option ℕ}

/-- What one round of the inner loop does: nothing, or it takes the first entry. -/
theorem poll_cases (h : s.pq.Holds M) (hpoll : s.poll = some (r, s')) :
    r = none ∧ s' = s ∨
      ∃ x M', M = x :: M' ∧ x.2.1 ≤ s.jiffies ∧ r = some x.2.2 ∧ s'.pq.Holds M' ∧
        s'.jiffies = s.jiffies := by
  cases M with
  | nil =>
    rw [poll_empty h] at hpoll
    obtain ⟨rfl, rfl⟩ := Prod.mk.inj (Option.some.inj hpoll)
    exact .inl ⟨rfl, rfl⟩
  | cons x M =>
    by_cases hready : x.2.1 ≤ s.jiffies
    · obtain ⟨s'', hpoll', hholds, hjiffies⟩ := poll_ready h hready
      rw [hpoll'] at hpoll
      obtain ⟨rfl, rfl⟩ := Prod.mk.inj (Option.some.inj hpoll)
      exact .inr ⟨x, M, rfl, hready, rfl, hholds, hjiffies⟩
    · rw [poll_early h hready] at hpoll
      obtain ⟨rfl, rfl⟩ := Prod.mk.inj (Option.some.inj hpoll)
      exact .inl ⟨rfl, rfl⟩

theorem go_cases (h : s.pq.Holds M) (hnew : s.pq.entries pqe = none)
    (hgo : s.go fuel pqe e delay = some s') :
    s'.jiffies = s.jiffies ∧ ∃ M', s'.pq.Holds M' ∧
      (delay = 0 ∧ M' = M ∨ 0 < delay ∧ ∃ A B, M = A ++ B ∧
        (∀ x ∈ A, x.2.1 ≤ (s.jiffies + delay + 1) % 2 ^ 32) ∧
        M' = A ++ (pqe, (s.jiffies + delay + 1) % 2 ^ 32, e) :: B) := by
  rcases Nat.eq_zero_or_pos delay with rfl | hpos
  · obtain ⟨hpq, hjiffies⟩ := go_zero hgo
    exact ⟨hjiffies, M, hpq ▸ h, .inl ⟨rfl, rfl⟩⟩
  · obtain ⟨hadd, hjiffies⟩ := go_of_pos hpos hgo
    obtain ⟨A, B, rfl, hA, -, hholds⟩ := (h.add hnew _ _ _).2 _ hadd
    exact ⟨hjiffies, _, hholds, .inr ⟨hpos, A, B, rfl, hA, rfl⟩⟩

/-- The queue is a queue, and the counter is one of 32 bits. -/
def Good (s : Kernel) : Prop := s.jiffies < 2 ^ 32 ∧ ∃ M, s.pq.Holds M

theorem Step.good (hs : s.Good) (h : Step s op s') : s'.Good := by
  obtain ⟨hlt, M, hM⟩ := hs
  cases h with
  | go hnew _ hgo =>
    obtain ⟨hjiffies, M', hM', -⟩ := go_cases hM hnew hgo
    exact ⟨hjiffies ▸ hlt, M', hM'⟩
  | tick => exact ⟨Nat.mod_lt _ (by decide), M, hM⟩
  | poll hpoll =>
    rcases poll_cases hM hpoll with ⟨-, rfl⟩ | ⟨x, M', -, -, -, hM', hjiffies⟩
    · exact ⟨hlt, M, hM⟩
    · exact ⟨hjiffies ▸ hlt, M', hM'⟩
  | take => exact ⟨hlt, M, hM⟩

theorem Run.good (hs : s.Good) (h : Run s ops s') : s'.Good := by
  induction h with
  | nil _ => exact hs
  | cons h _ ih => exact ih (h.good hs)

theorem Reached.good (h : Reached s) : s.Good := by
  obtain ⟨ops, hrun⟩ := h
  exact hrun.good ⟨by decide, [], PQ.holds_empty⟩

/-! ### The event loop in steps -/

theorem drain_isSome (h : s.pq.Holds M) (hfuel : M.length < fuel) : (s.drain fuel).isSome = true := by
  induction fuel generalizing s M with
  | zero => omega
  | succ fuel ih =>
    cases M with
    | nil =>
      rw [drain, poll_empty h]
      rfl
    | cons x M =>
      by_cases hready : x.2.1 ≤ s.jiffies
      · obtain ⟨s', hpoll, hholds, -⟩ := poll_ready h hready
        rw [drain, hpoll]
        exact ih hholds (by simpa using hfuel)
      · rw [drain, poll_early h hready]
        rfl

theorem drain_run (h : s.drain fuel = some s') : ∃ ops, Run s ops s' ∧ .tick ∉ ops := by
  induction fuel generalizing s with
  | zero => cases h
  | succ fuel ih =>
    obtain ⟨⟨r, s₁⟩, hpoll, hrest⟩ := Option.bind_eq_some_iff.mp h
    cases r with
    | none =>
      obtain rfl := Option.some.inj hrest
      exact ⟨[.poll none], Run.cons (Step.poll hpoll) (Run.nil _), by simp⟩
    | some e =>
      obtain ⟨ops, hrun, hticks⟩ := ih hrest
      exact ⟨.poll (some e) :: ops, Run.cons (Step.poll hpoll) hrun, by simp [hticks]⟩

/-- **A round of the event loop** is a run without ticks. -/
theorem round_run (h : s.round fuel = some (r, s')) : ∃ ops, Run s ops s' ∧ .tick ∉ ops := by
  obtain ⟨s₁, hdrain, htake⟩ := Option.bind_eq_some_iff.mp h
  obtain ⟨ops, hrun, hticks⟩ := drain_run hdrain
  have hs' : s₁.take.2 = s' := congrArg Prod.snd (Option.some.inj htake)
  refine ⟨ops ++ [.take], hrun.append (Run.cons (Step.take s₁) ?_), by simp [hticks]⟩
  rw [hs']
  exact Run.nil s'

/-! ### When the sum stays below the limit -/

/-- The event waits, with this deadline only. -/
structure Awaits (s : Kernel) (e at_ : ℕ) (M : List (ℕ × ℕ × ℕ)) : Prop where
  holds : s.pq.Holds M
  queued : ∃ x ∈ M, x.2.2 = e
  deadline : ∀ x ∈ M, x.2.2 = e → x.2.1 = at_

theorem Awaits.ne_of_unqueued {at_ e' : ℕ} (h : s.Awaits e at_ M) (he : s.Unqueued e') : e' ≠ e := by
  rintro rfl
  obtain ⟨x, hx, hxe⟩ := h.queued
  obtain ⟨c, hc, -, hce⟩ := PQ.exists_entry (h.holds.items x hx)
  exact he _ c hc (hce.trans hxe)

theorem Awaits.step {at_ : ℕ} (h : s.Awaits e at_ M) (hearly : s.jiffies < at_) (hat : at_ < 2 ^ 32)
    (hstep : Step s op s') :
    (∃ M', s'.Awaits e at_ M') ∧ s'.jiffies = s.jiffies + if op = .tick then 1 else 0 := by
  cases hstep with
  | @go _ _ _ e' _ hnew he hgo =>
    obtain ⟨hjiffies, M', hM', hcases⟩ := go_cases h.holds hnew hgo
    refine ⟨⟨M', ?_⟩, hjiffies⟩
    rcases hcases with ⟨-, rfl⟩ | ⟨-, A, B, rfl, -, rfl⟩
    · exact ⟨hM', h.queued, h.deadline⟩
    · have hne := h.ne_of_unqueued he
      obtain ⟨x, hx, hxe⟩ := h.queued
      refine ⟨hM', ⟨x, ?_, hxe⟩, fun y hy hye => ?_⟩
      · exact List.mem_append.mpr ((List.mem_append.mp hx).imp_right (List.mem_cons_of_mem _))
      rcases List.mem_append.mp hy with hy | hy
      · exact h.deadline y (List.mem_append_left _ hy) hye
      · rcases List.mem_cons.mp hy with rfl | hy
        · exact absurd hye hne
        · exact h.deadline y (List.mem_append_right _ hy) hye
  | tick => exact ⟨⟨M, h.holds, h.queued, h.deadline⟩, Nat.mod_eq_of_lt (by omega)⟩
  | poll hpoll =>
    rcases poll_cases h.holds hpoll with ⟨-, rfl⟩ | ⟨x, M', rfl, hready, -, hM', hjiffies⟩
    · exact ⟨⟨M, h⟩, rfl⟩
    · -- the entry that is taken is due, so it is another one
      have hne : x.2.2 ≠ e := fun hxe => by
        have := h.deadline x List.mem_cons_self hxe
        omega
      obtain ⟨y, hy, hye⟩ := h.queued
      have hyM : y ∈ M' := (List.mem_cons.mp hy).resolve_left fun hyx => hne (hyx ▸ hye)
      exact ⟨⟨M', hM', ⟨y, hyM, hye⟩, fun z hz => h.deadline z (List.mem_cons_of_mem x hz)⟩, hjiffies⟩
  | take => exact ⟨⟨M, h.holds, h.queued, h.deadline⟩, rfl⟩

/-- **Before the deadline**, in every run: fewer ticks than are left to the deadline leave the event
where it is. -/
theorem Awaits.run {at_ : ℕ} (hat : at_ < 2 ^ 32) (hrun : Run s ops s') (h : s.Awaits e at_ M)
    (hticks : s.jiffies + ops.count .tick < at_) :
    (∃ M', s'.Awaits e at_ M') ∧ s'.jiffies = s.jiffies + ops.count .tick := by
  induction hrun generalizing M with
  | nil _ => exact ⟨⟨M, h⟩, rfl⟩
  | @cons s s₁ s₂ op ops hstep _ ih =>
    rw [List.count_cons] at hticks ⊢
    obtain ⟨⟨M₁, h₁⟩, hjiffies⟩ := h.step (by omega) hat hstep
    simp only [beq_iff_eq] at hticks ⊢
    obtain ⟨hM', hjiffies'⟩ := ih h₁ (by omega)
    exact ⟨hM', by omega⟩

theorem Awaits.poll_ne {at_ : ℕ} (h : s.Awaits e at_ M) (hearly : s.jiffies < at_) :
    s.poll ≠ some (some e, s') := by
  intro hpoll
  rcases poll_cases h.holds hpoll with ⟨hr, -⟩ | ⟨x, M', rfl, hready, hr, -⟩
  · cases hr
  · have := h.deadline x List.mem_cons_self (Option.some.inj hr).symm
    omega

/-! ### When it does not -/

theorem due_run {A B : List (ℕ × ℕ × ℕ)} (x : ℕ × ℕ × ℕ) (h : s.pq.Holds (A ++ x :: B))
    (hA : ∀ y ∈ A, y.2.1 ≤ s.jiffies) (hx : x.2.1 ≤ s.jiffies) :
    ∃ ops s₁ s₂, Run s ops s₁ ∧ .tick ∉ ops ∧ s₁.poll = some (some x.2.2, s₂) := by
  induction A generalizing s with
  | nil =>
    obtain ⟨s₂, hpoll, -⟩ := poll_ready h hx
    exact ⟨[], s, s₂, Run.nil s, by simp, hpoll⟩
  | cons a A ih =>
    obtain ⟨hdue, hrest⟩ := List.forall_mem_cons.mp hA
    obtain ⟨s', hpoll, hholds, hjiffies⟩ := poll_ready h hdue
    obtain ⟨ops, s₁, s₂, hrun, hticks, hlast⟩ := ih hholds (hjiffies ▸ hrest) (hjiffies ▸ hx)
    exact ⟨_ :: ops, s₁, s₂, Run.cons (Step.poll hpoll) hrun, by simp [hticks], hlast⟩

/-- **Delays.**  In every state of the kernel, and for every delay: an event for which `go` is
called becomes ready only after as many ticks, in every run, exactly if the deadline does not pass
the limit of the counter. -/
theorem delay_honoured_iff (hs : s.Reached) (hnew : s.pq.entries pqe = none) (he : s.Unqueued e)
    (hpos : 0 < delay) (hdelay : delay < 2 ^ 32) :
    (∀ fuel s₁ ops s₂ s₃, s.go fuel pqe e delay = some s₁ → Run s₁ ops s₂ → s₂.poll = some (some e, s₃) →
      delay ≤ ops.count .tick) ↔ s.jiffies + delay + 1 < 2 ^ 32 := by
  obtain ⟨hjiffies, M, hM⟩ := hs.good
  constructor
  · -- beyond the limit, the deadline is one that has come
    intro hall
    by_contra hover
    have hmod : (s.jiffies + delay + 1) % 2 ^ 32 ≤ s.jiffies := by omega
    obtain ⟨pq, hadd⟩ :=
      Option.isSome_iff_exists.mp ((hM.add hnew M.length ((s.jiffies + delay + 1) % 2 ^ 32) e).1
      (Nat.le_refl _))
    obtain ⟨A, B, rfl, hA, -, hholds⟩ := (hM.add hnew _ _ e).2 pq hadd
    have hgo : s.go (A ++ B).length pqe e delay = some { s with pq := pq } := by
      rw [go, if_neg (by omega), hadd]
      rfl
    obtain ⟨ops, s₁, s₂, hrun, hticks, hpoll⟩ := due_run (s := { s with pq := pq }) _ hholds
      (fun x hx => Nat.le_trans (hA x hx) hmod) hmod
    have hle := hall _ _ ops s₁ s₂ hgo hrun hpoll
    rw [List.count_eq_zero_of_not_mem hticks] at hle
    omega
  · intro hlimit fuel s₁ ops s₂ s₃ hgo hrun hpoll
    by_contra hfew
    obtain ⟨hj, M', hM', hcases⟩ := go_cases hM hnew hgo
    obtain ⟨A, B, rfl, -, rfl⟩ := (hcases.resolve_left fun h => by omega).2
    rw [Nat.mod_eq_of_lt hlimit] at hM'
    have hawaits : s₁.Awaits e (s.jiffies + delay + 1) (A ++ (pqe, s.jiffies + delay + 1, e) :: B) := by
      refine ⟨hM', ⟨_, List.mem_append_right _ List.mem_cons_self, rfl⟩, fun x hx hxe => ?_⟩
      have hother : ∀ y ∈ A ++ B, y.2.2 ≠ e := fun y hy => by
        obtain ⟨c, hc, -, hce⟩ := PQ.exists_entry (hM.items y hy)
        exact hce ▸ he _ c hc
      rcases List.mem_append.mp hx with hx | hx
      · exact absurd hxe (hother x (List.mem_append_left _ hx))
      · rcases List.mem_cons.mp hx with rfl | hx
        · rfl
        · exact absurd hxe (hother x (List.mem_append_right _ hx))
    obtain ⟨⟨M₂, h₂⟩, hj₂⟩ := hawaits.run hlimit hrun (by omega)
    exact h₂.poll_ne (by omega) hpoll

theorem go_first : ∃ s, init.go 0 3 5 10 = some s ∧ s.jiffies = 0 ∧ s.pq.head = some 3 ∧
    ∀ p c, s.pq.entries p = some c → p = 3 ∧ c.e = 5 := by
  refine ⟨_, rfl, rfl, rfl, fun p c h => ?_⟩
  by_cases hp : p = 3
  · subst hp
    cases h
    exact ⟨rfl, rfl⟩
  · have hnone : init.pq.entries p = some c := by simpa [PQ.setEntry, hp] using h
    cases hnone

/-- A second event, with a delay of one second, when four ticks have passed and the first one still
waits. -/
theorem delay_honoured_second : ∃ s, Reached s ∧ s.jiffies = 4 ∧ s.pq.head = some 3 ∧
    ((∀ fuel s₁ ops s₂ s₃, s.go fuel 0 7 1000 = some s₁ → Run s₁ ops s₂ → s₂.poll = some (some 7, s₃) →
      1000 ≤ ops.count .tick) ↔ s.jiffies + 1000 + 1 < 2 ^ 32) := by
  obtain ⟨s, hgo, hj, hhead, hcells⟩ := go_first
  have hempty : init.Unqueued 5 := fun _ _ h => nomatch h
  have hreached : Reached { s with jiffies := s.jiffies + 4 } :=
    ⟨_, Run.cons (Step.go rfl hempty hgo) (ticks_run (by rw [hj]; omega))⟩
  have hnew : s.pq.entries 0 = none := Option.eq_none_iff_forall_ne_some.mpr fun c hc => by
    have := (hcells 0 c hc).1
    omega
  have he : Unqueued { s with jiffies := s.jiffies + 4 } 7 := fun p c hc => by
    rw [(hcells p c hc).2]
    omega
  exact ⟨_, hreached, by rw [hj], hhead, delay_honoured_iff hreached hnew he (by omega) (by omega)⟩

/-- With the counter at its last value, a delay of one tick is over before the next one. -/
theorem delay_lost : ∃ s, Reached s ∧ s.jiffies = 2 ^ 32 - 1 ∧ s.pq.entries 0 = none ∧ s.Unqueued 7 ∧
    ∃ s₁ s₂, s.go 0 0 7 1 = some s₁ ∧ Run s₁ [] s₁ ∧ s₁.poll = some (some 7, s₂) := by
  have hrun := ticks_run (s := init) (n := 2 ^ 32 - 1) (by show 0 + (2 ^ 32 - 1) < 2 ^ 32; omega)
  have hempty : Unqueued { init with jiffies := init.jiffies + (2 ^ 32 - 1) } 7 := fun _ _ h => nomatch h
  exact ⟨_, ⟨_, hrun⟩, Nat.zero_add _, rfl, hempty, _, _, rfl, Run.nil _, rfl⟩

end Kernel

end GheithOS.Events
