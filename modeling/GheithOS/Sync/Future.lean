import GheithOS.Sync.Semaphore

/-!
# GheithOS.Sync.Future — `future.h`

A future is a semaphore of initial count 0 and a value.  `set` writes the value and then ups; a
continuation of `get` or of `await_suspend` ups again when it runs and then calls its work with the
value; `await_ready` downs and ups.  Every operation of the semaphore is one action, and so is
everything between two of them; any number of cores may be anywhere in these, so an action is taken
in any order as long as it is enabled.

One permit exists once `set` has upped: in the count, with a continuation that has not upped again,
or with a call of `await_ready` between its two operations (`future_delivery`).
-/

namespace GheithOS.Sync

open Lib

/-- How far the call of `set` is. -/
inductive SetPhase (T : Type) where
  | before
  | written (v : T)
  | done (v : T)

/-- The shared state of a future, and where its continuations and its calls of `await_ready` are. -/
structure Future (T : Type) where
  sys : Sys
  value : T
  phase : SetPhase T
  /-- Continuations that run and have not upped. -/
  running : List ℕ
  /-- Continuations that have upped and will call their work. -/
  upped : List ℕ
  /-- The works that were called, and with which value. -/
  log : List (ℕ × T)
  /-- Calls of `await_ready` between `await_ready` and `up` of the semaphore. -/
  pending : ℕ
  /-- Calls of `await_ready` that returned true and will resume. -/
  returned : ℕ
  /-- What `await_resume` returned to them. -/
  resumed : List T

namespace Future

variable {T : Type}

/-- A new future, whose value is `T{}`. -/
def init (empty : T) : Future T := ⟨.init 0, empty, .before, [], [], [], 0, 0, []⟩

inductive Action (T : Type) where
  | write (v : T)
  | setUp
  | get
  | schedule
  | reUp (e : ℕ)
  | work (e : ℕ)
  | awaitReady
  | awaitUp
  | awaitResume

/-- A call of `get` or `await_suspend`, which registers a work. -/
def Action.isGet : Action T → Bool
  | .get => true
  | _ => false

/-- `state->sem.up()`. -/
def upSem (s : Future T) : Except Halt (Future T) :=
  (up s.sys).map fun (_, sys) => { s with sys := sys }

/-- One action; an action that is not enabled does nothing. -/
def act (s : Future T) : Action T → Except Halt (Future T)
  | .write v =>
    match s.phase with
    | .before => .ok { s with value := v, phase := .written v }
    | _ => .ok s
  | .setUp =>
    match s.phase with
    | .written v => upSem { s with phase := .done v }
    | _ => .ok s
  | .get => .ok { s with sys := (down s.sys).2 }
  | .schedule =>
    match schedule s.sys with
    | (some e, sys) => .ok { s with sys := sys, running := e :: s.running }
    | (none, _) => .ok s
  | .reUp e =>
    if e ∈ s.running then upSem { s with running := s.running.erase e, upped := e :: s.upped } else .ok s
  | .work e =>
    if e ∈ s.upped then .ok { s with upped := s.upped.erase e, log := s.log ++ [(e, s.value)] } else .ok s
  | .awaitReady =>
    match awaitReady s.sys with
    | (true, sys) => .ok { s with sys := sys, pending := s.pending + 1 }
    | (false, sys) => .ok { s with sys := sys }
  | .awaitUp =>
    if 0 < s.pending then upSem { s with pending := s.pending - 1, returned := s.returned + 1 } else .ok s
  | .awaitResume =>
    if 0 < s.returned then
      .ok { s with returned := s.returned - 1, resumed := s.resumed ++ [s.value] }
    else .ok s

def run : List (Action T) → Future T → Except Halt (Future T)
  | [], s => .ok s
  | a :: as, s => (s.act a).bind (run as)

end Future

/-! ### The semaphore as permits -/

section Permits

variable {s : Sys} {W R : List ℕ}

/-- `up` brings a permit, to the count or to the event that becomes ready. -/
theorem Views.up (h : Views s W R) (hi : 0 < s.count → W = []) :
    ∃ w s' W' R', up s = .ok (w, s') ∧ Views s' W' R' ∧ (0 < s'.count → W' = []) ∧ s'.made = s.made ∧
      s'.count + R'.length = s.count + R.length + 1 ∧
      ∀ x, W'.count x + R'.count x = W.count x + R.count x := by
  cases W with
  | nil =>
    obtain ⟨s', hup, hc, hm, hv⟩ := h.up_nil
    exact ⟨none, s', [], R, hup, hv, fun _ => rfl, hm, by omega, fun _ => rfl⟩
  | cons e W =>
    have h0 : s.count = 0 := by
      by_contra hne
      cases hi (Nat.pos_of_ne_zero hne)
    obtain ⟨s', hup, hc, hm, hv⟩ := h.up_cons h0
    refine ⟨some e, s', W, R ++ [e], hup, hv, fun hp => by omega, hm, ?_, fun x => ?_⟩
    · rw [List.length_append, List.length_singleton]
      omega
    · rw [List.count_append, List.count_cons, List.count_cons, List.count_nil]
      omega

/-- `down` makes an event; a permit may pass to it from the count. -/
theorem Views.down (h : Views s W R) (hi : 0 < s.count → W = []) :
    ∃ s' W' R', down s = (s.made, s') ∧ Views s' W' R' ∧ (0 < s'.count → W' = []) ∧ s'.made = s.made + 1 ∧
      s'.count + R'.length = s.count + R.length ∧ (s.count = 0 → R' = R) ∧
      ∀ x, W'.count x + R'.count x = W.count x + R.count x + if x = s.made then 1 else 0 := by
  have hone : ∀ x, List.count x [s.made] = if x = s.made then 1 else 0 := fun x => by
    rw [List.count_cons, List.count_nil, Nat.zero_add]
    by_cases hx : x = s.made
    · simp [hx]
    · simp [hx, Ne.symm hx]
  by_cases hpos : 0 < s.count
  · obtain ⟨s', hdown, hc, hm, hv⟩ := h.down_pos hpos
    refine ⟨s', W, R ++ [s.made], hdown, hv, fun _ => hi hpos, hm, ?_, fun h0 => by omega, fun x => ?_⟩
    · rw [List.length_append, List.length_singleton]
      omega
    · rw [List.count_append, hone]
      omega
  · obtain ⟨s', hdown, hc, hm, hv⟩ := h.down_zero (by omega)
    refine ⟨s', W ++ [s.made], R, hdown, hv, fun hp => by omega, hm, by omega, fun _ => rfl, fun x => ?_⟩
    rw [List.count_append, hone]
    omega

end Permits

/-! ### The invariant -/

namespace Future

variable {T : Type} {s : Future T} {W R : List ℕ}

/-- Nothing has been granted. -/
structure Quiet (s : Future T) (R : List ℕ) : Prop where
  count : s.sys.count = 0
  ready : R = []
  running : s.running = []
  upped : s.upped = []
  log : s.log = []
  pending : s.pending = 0
  returned : s.returned = 0
  resumed : s.resumed = []

/-- One permit, and every value that was delivered is `v`. -/
structure Delivers (s : Future T) (R : List ℕ) (v : T) : Prop where
  value : s.value = v
  permit : s.sys.count + R.length + s.running.length + s.pending = 1
  works : ∀ p ∈ s.log, p.2 = v
  resumes : ∀ x ∈ s.resumed, x = v

/-- What holds in the phase of the call of `set`. -/
def InPhase (s : Future T) (R : List ℕ) : Prop :=
  match s.phase with
  | .before => Quiet s R
  | .written v => s.value = v ∧ Quiet s R
  | .done v => Delivers s R v

theorem inPhase_done {v : T} (hph : s.phase = .done v) (h : Delivers s R v) : InPhase s R := by
  rw [InPhase, hph]
  exact h

variable {s' : Future T}

/-- An action that is none of `set`. -/
theorem InPhase.transfer {R' : List ℕ} (h : InPhase s R) (hph : s'.phase = s.phase)
    (hval : s'.value = s.value) (hq : Quiet s R → Quiet s' R')
    (hd : ∀ v, Delivers s R v → Delivers s' R' v) :
    InPhase s' R' := by
  unfold InPhase at h ⊢
  rw [hph]
  match hs : s.phase with
  | .before =>
    rw [hs] at h
    exact hq h
  | .written v =>
    rw [hs] at h
    exact ⟨hval.trans h.1, hq h.2⟩
  | .done v =>
    rw [hs] at h
    exact hd v h

/-- Every event that was made is in one place. -/
def Placed (s : Future T) (W R : List ℕ) : Prop :=
  ∀ x, W.count x + R.count x + s.running.count x + s.upped.count x + (s.log.map Prod.fst).count x =
    if x < s.sys.made then 1 else 0

structure Inv (s : Future T) (W R : List ℕ) : Prop where
  views : Views s.sys W R
  idle : 0 < s.sys.count → W = []
  placed : Placed s W R
  inPhase : InPhase s R

theorem inv_init (empty : T) : Inv (init empty) [] [] where
  views := views_init 0
  idle _ := rfl
  placed _ := by simp [init, Sys.init]
  inPhase := ⟨rfl, rfl, rfl, rfl, rfl, rfl, rfl, rfl⟩

theorem upSem_spec (hv : Views s.sys W R) (hi : 0 < s.sys.count → W = []) (hp : Placed s W R)
    (hphase : ∀ sys R', sys.count + R'.length = s.sys.count + R.length + 1 →
      InPhase { s with sys := sys } R') :
    ∃ s' W' R', upSem s = .ok s' ∧ Inv s' W' R' := by
  obtain ⟨w, sys, W', R', hup, hv', hi', hm, hperm, hcount⟩ := hv.up hi
  refine ⟨{ s with sys := sys }, W', R', ?_, hv', hi', fun x => ?_, hphase sys R' hperm⟩
  · unfold upSem
    rw [hup]
    rfl
  · have := hp x
    have := hcount x
    dsimp only
    rw [hm]
    omega

theorem Inv.write (h : Inv s W R) (v : T) : ∃ s' W' R', s.act (.write v) = .ok s' ∧ Inv s' W' R' := by
  rw [Future.act]
  match hph : s.phase with
  | .before =>
    have hq := h.inPhase
    rw [InPhase, hph] at hq
    exact ⟨_, W, R, rfl, h.views, h.idle, h.placed, rfl, hq.1, hq.2, hq.3, hq.4, hq.5, hq.6, hq.7, hq.8⟩
  | .written _ => exact ⟨s, W, R, rfl, h⟩
  | .done _ => exact ⟨s, W, R, rfl, h⟩

theorem Inv.setUp (h : Inv s W R) : ∃ s' W' R', s.act .setUp = .ok s' ∧ Inv s' W' R' := by
  rw [Future.act]
  match hph : s.phase with
  | .before => exact ⟨s, W, R, rfl, h⟩
  | .written v =>
    have hq := h.inPhase
    rw [InPhase, hph] at hq
    refine upSem_spec (s := { s with phase := .done v }) h.views h.idle h.placed fun sys R' hperm => ?_
    refine ⟨hq.1, ?_, fun p hp => ?_, fun x hx => ?_⟩
    · have h1 := hq.2.count
      have h2 := hq.2.pending
      simp only [hq.2.ready, List.length_nil] at hperm
      simp only [hq.2.running, List.length_nil]
      omega
    · have hl : p ∈ s.log := hp
      rw [hq.2.log] at hl
      cases hl
    · have hl : x ∈ s.resumed := hx
      rw [hq.2.resumed] at hl
      cases hl
  | .done _ => exact ⟨s, W, R, rfl, h⟩

theorem Inv.get (h : Inv s W R) : ∃ s' W' R', s.act .get = .ok s' ∧ Inv s' W' R' := by
  obtain ⟨sys, W', R', hdown, hv, hi, hm, hperm, hsame, hcount⟩ := h.views.down h.idle
  refine ⟨{ s with sys := sys }, W', R', ?_, hv, hi, fun x => ?_, ?_⟩
  · rw [act, hdown]
  · have h1 := h.placed x
    have h2 := hcount x
    dsimp only
    rw [hm]
    split_ifs at h1 h2 ⊢ <;> omega
  · refine h.inPhase.transfer rfl rfl (fun q => ?_) fun v hd => ⟨hd.value, ?_, hd.works, hd.resumes⟩
    · -- before `set` has upped the count is 0, so that the new event waits
      have hR := hsame q.count
      have hc : sys.count = 0 := by
        have := q.count
        rw [hR] at hperm
        omega
      exact ⟨hc, hR.trans q.ready, q.running, q.upped, q.log, q.pending, q.returned, q.resumed⟩
    · have := hd.permit
      dsimp only
      omega

/-- The phases other than `done`, when something is granted. -/
theorem Inv.delivers (h : Inv s W R) (hg : ¬Quiet s R) : ∃ v, s.phase = .done v ∧ Delivers s R v := by
  have hq := h.inPhase
  unfold InPhase at hq
  match hph : s.phase with
  | .before =>
    rw [hph] at hq
    exact absurd hq hg
  | .written v =>
    rw [hph] at hq
    exact absurd hq.2 hg
  | .done v =>
    rw [hph] at hq
    exact ⟨v, rfl, hq⟩

theorem Inv.schedule (h : Inv s W R) : ∃ s' W' R', s.act .schedule = .ok s' ∧ Inv s' W' R' := by
  cases R with
  | nil =>
    refine ⟨s, W, [], ?_, h⟩
    rw [act, h.views.schedule_nil]
  | cons e R =>
    obtain ⟨sys, hsched, hc, hm, hv⟩ := h.views.schedule_cons
    obtain ⟨v, hph, hd⟩ := h.delivers fun q => by cases q.ready
    refine ⟨{ s with sys := sys, running := e :: s.running }, W, R, ?_, hv, ?_, fun x => ?_, ?_⟩
    · rw [act, hsched]
    · intro hp
      exact h.idle (hc ▸ hp)
    · have h1 := h.placed x
      dsimp only
      rw [hm]
      rw [List.count_cons] at h1 ⊢
      omega
    · refine inPhase_done hph ⟨hd.value, ?_, hd.works, hd.resumes⟩
      have := hd.permit
      simp only [List.length_cons] at this ⊢
      omega

theorem Inv.reUp (h : Inv s W R) (e : ℕ) : ∃ s' W' R', s.act (.reUp e) = .ok s' ∧ Inv s' W' R' := by
  rw [Future.act]
  by_cases hmem : e ∈ s.running
  · rw [if_pos hmem]
    obtain ⟨v, hph, hd⟩ := h.delivers fun q => by
      rw [q.running] at hmem
      cases hmem
    refine upSem_spec (s := { s with running := s.running.erase e, upped := e :: s.upped }) h.views h.idle
      (fun x => ?_) fun sys R' hperm => ?_
    · have h1 := h.placed x
      have h2 := List.count_pos_iff.mpr hmem
      dsimp only
      rw [List.count_cons, List.count_erase]
      by_cases hx : e = x
      · subst hx
        simp only [BEq.rfl, ite_true]
        omega
      · rw [if_neg (by simpa using hx)]
        omega
    · refine inPhase_done hph ⟨hd.value, ?_, hd.works, hd.resumes⟩
      have h1 := hd.permit
      have h2 := List.length_pos_of_mem hmem
      dsimp only at hperm ⊢
      rw [List.length_erase_of_mem hmem]
      omega
  · rw [if_neg hmem]
    exact ⟨s, W, R, rfl, h⟩

theorem Inv.work (h : Inv s W R) (e : ℕ) : ∃ s' W' R', s.act (.work e) = .ok s' ∧ Inv s' W' R' := by
  rw [Future.act]
  by_cases hmem : e ∈ s.upped
  · rw [if_pos hmem]
    obtain ⟨v, hph, hd⟩ := h.delivers fun q => by
      rw [q.upped] at hmem
      cases hmem
    refine ⟨_, W, R, rfl, h.views, h.idle, fun x => ?_, ?_⟩
    · have h1 := h.placed x
      have h2 := List.count_pos_iff.mpr hmem
      dsimp only
      rw [List.map_append, List.count_append, List.count_erase, List.map_singleton, List.count_singleton]
      by_cases hx : e = x
      · subst hx
        simp only [BEq.rfl, ite_true]
        omega
      · rw [if_neg (by simpa using hx)]
        omega
    · refine inPhase_done hph ⟨hd.value, hd.permit, fun p hp => ?_, hd.resumes⟩
      rcases List.mem_append.mp hp with hp | hp
      · exact hd.works p hp
      · rw [List.mem_singleton.mp hp]
        exact hd.value
  · rw [if_neg hmem]
    exact ⟨s, W, R, rfl, h⟩

theorem Inv.awaitReady (h : Inv s W R) : ∃ s' W' R', s.act .awaitReady = .ok s' ∧ Inv s' W' R' := by
  obtain ⟨sys, hawait, hc, hm, hv⟩ := h.views.awaitReady
  have hplaced : ∀ n, Placed { s with sys := sys, pending := n } W R := fun n x => by
    dsimp only
    rw [hm]
    exact h.placed x
  rw [Future.act, hawait]
  by_cases hpos : 0 < s.sys.count
  · rw [decide_eq_true hpos]
    obtain ⟨v, hph, hd⟩ := h.delivers fun q => by
      have := q.count
      omega
    refine ⟨_, W, R, rfl, hv, fun _ => h.idle hpos, hplaced _, ?_⟩
    refine inPhase_done hph ⟨hd.value, ?_, hd.works, hd.resumes⟩
    have := hd.permit
    dsimp only
    omega
  · rw [decide_eq_false hpos]
    have hc0 : sys.count = s.sys.count := by omega
    refine ⟨_, W, R, rfl, hv, fun hp => h.idle (hc0 ▸ hp), hplaced _, ?_⟩
    refine h.inPhase.transfer rfl rfl (fun q => ?_) fun v hd => ⟨hd.value, ?_, hd.works, hd.resumes⟩
    · exact ⟨hc0.trans q.count, q.ready, q.running, q.upped, q.log, q.pending, q.returned, q.resumed⟩
    · have := hd.permit
      dsimp only
      omega

theorem Inv.awaitUp (h : Inv s W R) : ∃ s' W' R', s.act .awaitUp = .ok s' ∧ Inv s' W' R' := by
  rw [Future.act]
  by_cases hpos : 0 < s.pending
  · rw [if_pos hpos]
    obtain ⟨v, hph, hd⟩ := h.delivers fun q => by
      have := q.pending
      omega
    refine upSem_spec (s := { s with pending := s.pending - 1, returned := s.returned + 1 }) h.views h.idle
      h.placed fun sys R' hperm => ?_
    refine inPhase_done hph ⟨hd.value, ?_, hd.works, hd.resumes⟩
    have h1 := hd.permit
    dsimp only at hperm ⊢
    omega
  · rw [if_neg hpos]
    exact ⟨s, W, R, rfl, h⟩

theorem Inv.awaitResume (h : Inv s W R) : ∃ s' W' R', s.act .awaitResume = .ok s' ∧ Inv s' W' R' := by
  rw [Future.act]
  by_cases hpos : 0 < s.returned
  · rw [if_pos hpos]
    obtain ⟨v, hph, hd⟩ := h.delivers fun q => by
      have := q.returned
      omega
    refine ⟨_, W, R, rfl, h.views, h.idle, h.placed, ?_⟩
    refine inPhase_done hph ⟨hd.value, hd.permit, hd.works, fun x hx => ?_⟩
    rcases List.mem_append.mp hx with hx | hx
    · exact hd.resumes x hx
    · rw [List.mem_singleton.mp hx]
      exact hd.value
  · rw [if_neg hpos]
    exact ⟨s, W, R, rfl, h⟩

theorem Inv.act (h : Inv s W R) (a : Action T) : ∃ s' W' R', s.act a = .ok s' ∧ Inv s' W' R' := by
  cases a with
  | write v => exact h.write v
  | setUp => exact h.setUp
  | get => exact h.get
  | schedule => exact h.schedule
  | reUp e => exact h.reUp e
  | work e => exact h.work e
  | awaitReady => exact h.awaitReady
  | awaitUp => exact h.awaitUp
  | awaitResume => exact h.awaitResume

theorem Inv.run (as : List (Action T)) : ∀ {s : Future T} {W R : List ℕ}, Inv s W R →
    ∃ s' W' R', run as s = .ok s' ∧ Inv s' W' R' := by
  induction as with
  | nil =>
    intro s W R h
    exact ⟨s, W, R, rfl, h⟩
  | cons a as ih =>
    intro s W R h
    obtain ⟨s₁, W₁, R₁, hact, h₁⟩ := h.act a
    obtain ⟨s₂, W₂, R₂, hrun, h₂⟩ := ih h₁
    refine ⟨s₂, W₂, R₂, ?_, h₂⟩
    rw [Future.run, hact]
    exact hrun

/-! ### The number of works -/

theorem made_of_up {sys sys' : Sys} {woken : Option ℕ} (h : up sys = .ok (woken, sys')) :
    sys'.made = sys.made := by
  unfold up at h
  dsimp only at h
  split at h
  · split_ifs at h
    obtain ⟨-, rfl⟩ := Prod.mk.inj (Except.ok.inj h)
    rfl
  · obtain ⟨-, rfl⟩ := Prod.mk.inj (Except.ok.inj h)
    rfl

theorem made_of_upSem (h : upSem s = .ok s') : s'.sys.made = s.sys.made := by
  unfold upSem at h
  cases hup : up s.sys with
  | error e =>
    rw [hup] at h
    cases h
  | ok r =>
    rw [hup] at h
    obtain rfl := Except.ok.inj h
    exact made_of_up hup

theorem made_of_act {a : Action T} (h : s.act a = .ok s') :
    s'.sys.made = s.sys.made + if a.isGet then 1 else 0 := by
  cases a with
  | get =>
    obtain rfl := Except.ok.inj h
    show (down s.sys).2.made = s.sys.made + 1
    unfold down
    dsimp only
    split_ifs <;> rfl
  | write v =>
    rw [act] at h
    split at h <;> obtain rfl := Except.ok.inj h <;> rfl
  | setUp =>
    rw [act] at h
    split at h
    · have hmade := made_of_upSem h
      exact hmade
    · obtain rfl := Except.ok.inj h
      rfl
  | schedule =>
    rw [act] at h
    split at h
    · next sys hsched =>
      obtain rfl := Except.ok.inj h
      exact congrArg (fun r => r.2.made) hsched.symm
    · obtain rfl := Except.ok.inj h
      rfl
  | reUp e =>
    rw [act] at h
    split_ifs at h
    · have hmade := made_of_upSem h
      exact hmade
    · obtain rfl := Except.ok.inj h
      rfl
  | work e =>
    rw [act] at h
    split_ifs at h <;> obtain rfl := Except.ok.inj h <;> rfl
  | awaitReady =>
    have hmade : (awaitReady s.sys).2.made = s.sys.made := by
      unfold Sync.awaitReady
      split_ifs <;> rfl
    rw [act] at h
    split at h
    · next sys hawait =>
      obtain rfl := Except.ok.inj h
      rw [hawait] at hmade
      exact hmade
    · next sys hawait =>
      obtain rfl := Except.ok.inj h
      rw [hawait] at hmade
      exact hmade
  | awaitUp =>
    rw [act] at h
    split_ifs at h
    · have hmade := made_of_upSem h
      exact hmade
    · obtain rfl := Except.ok.inj h
      rfl
  | awaitResume =>
    rw [act] at h
    split_ifs at h <;> obtain rfl := Except.ok.inj h <;> rfl

theorem made_of_run {as : List (Action T)} {s : Future T} (h : run as s = .ok s') :
    s'.sys.made = s.sys.made + as.countP Action.isGet := by
  induction as generalizing s with
  | nil =>
    obtain rfl := Except.ok.inj h
    rfl
  | cons a as ih =>
    rw [Future.run] at h
    cases hact : s.act a with
    | error e =>
      rw [hact] at h
      cases h
    | ok s₁ =>
      rw [hact] at h
      rw [ih h, made_of_act hact, List.countP_cons]
      omega

/-- **Delivery.**  Whatever actions are taken on a new future, no assertion fails, and after them:
every work that was registered is in one place, it waits, is ready, runs, has upped or was called;
before `set` has upped nothing has run and no `await_ready` has returned true; every work was called
at most once, and, as every resumption, with the value of `set`; once `set` has upped there is one
permit, and nobody waits while it is in the count. -/
theorem future_delivery (empty : T) (as : List (Action T)) :
    ∃ s W R, run as (init empty) = .ok s ∧ s.sys.waiting.Holds s.sys.next W ∧
      s.sys.ready.Holds s.sys.next R ∧
      s.sys.made = as.countP Action.isGet ∧ Placed s W R ∧
      ((∀ v, s.phase ≠ .done v) → R = [] ∧ s.running = [] ∧ s.upped = [] ∧ s.log = [] ∧ s.pending = 0 ∧
        s.returned = 0 ∧ s.resumed = []) ∧
      (s.log.map Prod.fst).Nodup ∧
      (∀ v, s.phase = .done v → (∀ p ∈ s.log, p.2 = v) ∧ (∀ x ∈ s.resumed, x = v) ∧
        s.sys.count + (R.length + s.running.length) + s.pending = 1 ∧ (0 < s.sys.count → W = [])) := by
  obtain ⟨s, W, R, hrun, h⟩ := (inv_init empty).run as
  have hmade := made_of_run hrun
  rw [show (init empty).sys.made = 0 from rfl, Nat.zero_add] at hmade
  refine ⟨s, W, R, hrun, h.views.waiting, h.views.ready, hmade, h.placed, fun hne => ?_, ?_, fun v hv => ?_⟩
  · by_cases hq : Quiet s R
    · exact ⟨hq.ready, hq.running, hq.upped, hq.log, hq.pending, hq.returned, hq.resumed⟩
    · obtain ⟨v, hph, -⟩ := h.delivers hq
      exact absurd hph (hne v)
  · rw [List.nodup_iff_count_le_one]
    intro x
    have := h.placed x
    split_ifs at this <;> omega
  · have hd := h.inPhase
    rw [InPhase, hv] at hd
    refine ⟨hd.works, hd.resumes, ?_, h.idle⟩
    have := hd.permit
    omega

end Future

end GheithOS.Sync
