import GheithOS.Signal.Model

/-!
# GheithOS.Signal.Return — `sigreturn`

A process is followed through its instructions, interrupts, system calls, faults, kills and calls of
`Process::run`, and at a fork on either side.  While it handles a signal, the context that the
signal has interrupted is kept (`Machine.saved_context`): system calls, ticks and faults of the
handler save to the other context, a second signal is not delivered, a fork copies it, and `execve`
gives it up together with the flag.  So `sigreturn` goes on with it (`sigreturn_restores`).
-/

namespace GheithOS.Signal

open Syscall MemoryMapping

/-- A process runs its own code with these registers; the kernel is about to call `Process::run`; or
it has ended. -/
inductive Mode
  | user (regs : ProcessContext)
  | ready
  | gone
  deriving DecidableEq

structure Machine where
  process : Process
  mode : Mode

/-- What can happen to a process. -/
inductive Event
  /-- An instruction: registers and memory become what they may. -/
  | user (regs : ProcessContext) (mem : ℕ → Byte)
  /-- The timer takes the process from the processor. -/
  | tick
  /-- A system call other than the following ones: the result, and what the call has changed. -/
  | call (value : Word) (world : World)
  | sigreturn
  /-- A fork; the run goes on with the child, or with the parent. -/
  | fork (child : Bool) (pid : Word)
  /-- An `execve` that succeeds; one that fails is a `call`. -/
  | execve (entryPoint initialEsp : Word) (world : World)
  | exit
  /-- A fault of the process that is resolved. -/
  | fault (world : World)
  /-- A fault of the process at an address that is not mapped. -/
  | segfault (env : Env) (address : Word)
  /-- The parent kills the process. -/
  | kill (killCode : Word)
  /-- `Process::run`. -/
  | run (env : Env) (kernelInterrupted : Bool)

def eFault : Word := 14
def eCanceled : Word := 140

/-- The stacks of the kernel and the segments, which are not part of the context. -/
structure Kernel where
  cs : Word
  ss : Word
  esp : Word

namespace Process

/-- `save_state` at an interrupt that finds these registers. -/
def enter (k : Kernel) (regs : ProcessContext) (p : Process) : Process :=
  p.saveState (interruptFrame regs k.cs k.ss) (registerFrame regs k.esp)

/-- `sysHandler` in front of the call. -/
def enterCall (k : Kernel) (regs : ProcessContext) (p : Process) : Process :=
  (p.enter k regs).setReturn (-eFault)

end Process

/-- A delivery, for its caller. -/
def Signalled.machine (p : Process) : Signalled → Machine
  | .returned => ⟨p, .gone⟩
  | .again q => ⟨q, .ready⟩
  | .panics => ⟨p, .gone⟩

namespace Machine

/-- What an event makes of a process that runs its own code. -/
def stepUser (k : Kernel) (p : Process) (regs : ProcessContext) : Event → Machine
  | .user regs mem => ⟨{ p with world := { p.world with mem := mem } }, .user regs⟩
  | .tick => ⟨p.enter k regs, .ready⟩
  | .call value world => ⟨{ (p.enterCall k regs).setReturn value with world := world }, .ready⟩
  | .sigreturn =>
    let p := p.enterCall k regs
    if p.inSignalHandler then ⟨{ p with inSignalHandler := false, context := p.afterSignalContext }, .ready⟩
    else ⟨p.setReturn (-eCanceled), .ready⟩
  | .fork child pid =>
    let p := p.enterCall k regs
    if child then ⟨p.copy.setReturn 0, .ready⟩ else ⟨p.setReturn pid, .ready⟩
  | .execve entryPoint initialEsp world => ⟨(p.enterCall k regs).reset entryPoint initialEsp world, .ready⟩
  | .exit => ⟨p.enterCall k regs, .gone⟩
  | .fault world => ⟨{ p.enter k regs with world := world }, .ready⟩
  | .segfault env address =>
    let p := p.enter k regs
    let p := { p with world := { p.world with mem := putWord p.world.mem faultAddress address.toNat } }
    (runSignalHandler env 1 address p).machine p
  | .kill killCode => ⟨p.kill killCode, .user regs⟩
  | .run _ _ => ⟨p, .user regs⟩

/-- What an event makes of a process that is about to run. -/
def stepReady (p : Process) : Event → Machine
  | .kill killCode => ⟨p.kill killCode, .ready⟩
  | .run env kernelInterrupted =>
    if kernelInterrupted then ⟨p, .ready⟩
    else if p.isKilled then
      let p := { p with isKilled := false }
      (runSignalHandler env 2 p.killArgument p).machine p
    else ⟨p, .user p.context⟩
  | _ => ⟨p, .ready⟩

def step (k : Kernel) (m : Machine) (event : Event) : Machine :=
  match m.mode with
  | .user regs => stepUser k m.process regs event
  | .ready => stepReady m.process event
  | .gone => m

def after (k : Kernel) (m : Machine) (events : List Event) : Machine := events.foldl (step k) m

/-! ### The signal that is handled -/

/-- A signal that is delivered now is handled. -/
def handles (p : Process) : Bool := p.world.signalHandler ≠ 0 ∧ p.inSignalHandler = false

/-- The context that an event interrupts by delivering a signal. -/
def interrupts (m : Machine) : Event → Option ProcessContext
  | .segfault _ _ =>
    match m.mode with
    | .user regs => if handles m.process then some regs else none
    | _ => none
  | .run _ kernelInterrupted =>
    match m.mode with
    | .ready =>
      if kernelInterrupted = false ∧ m.process.isKilled = true ∧
          handles m.process then some m.process.context else none
    | _ => none
  | _ => none

/-- The event ends the handling of a signal. -/
def ends (m : Machine) : Event → Bool
  | .sigreturn =>
    match m.mode with
    | .user _ => true
    | _ => false
  | .execve _ _ _ =>
    match m.mode with
    | .user _ => true
    | _ => false
  | _ => false

/-- The context that the signal has interrupted that is being handled after the events, by the
history of the process and of those it was forked from. -/
def handling (k : Kernel) : Machine → Option ProcessContext → List Event → Option ProcessContext
  | _, signal, [] => signal
  | m, signal, event :: events =>
    handling k (m.step k event) ((m.interrupts event).or (if m.ends event then none else signal)) events

end Machine

/-! ### What one event does -/

variable {k : Kernel} {regs : ProcessContext} {p q : Process} {m : Machine}

namespace Process

theorem enterCall_eq (k : Kernel) (regs : ProcessContext) (p : Process) :
    p.enterCall k regs = { p with context := { regs with eax := -eFault } } := rfl

theorem kill_keeps (killCode : Word) (p : Process) : (p.kill killCode).context = p.context ∧
    (p.kill killCode).inSignalHandler = p.inSignalHandler ∧
    (p.kill killCode).afterSignalContext = p.afterSignalContext := by
  unfold kill
  split_ifs
  · exact ⟨rfl, rfl, rfl⟩
  · exact ⟨rfl, rfl, rfl⟩

/-- The saved context, while a signal is handled. -/
def saved (p : Process) : Option ProcessContext :=
  if p.inSignalHandler then some p.afterSignalContext else none

theorem saved_kill (killCode : Word) (p : Process) : (p.kill killCode).saved = p.saved := by
  obtain ⟨-, hflag, hafter⟩ := p.kill_keeps killCode
  unfold saved
  rw [hflag, hafter]

end Process

theorem enterHandler_again {env : Env} {userStack : ℕ} {code argument : Word}
    (h : enterHandler env userStack code argument p = .again q) :
    q.inSignalHandler = p.inSignalHandler ∧ q.afterSignalContext = p.afterSignalContext := by
  unfold enterHandler at h
  split at h
  · cases h
    exact ⟨rfl, rfl⟩
  · cases h
    exact ⟨rfl, rfl⟩
  · cases h

theorem runSignalHandler_again {env : Env} {code argument : Word}
    (h : runSignalHandler env code argument p = .again q) :
    Machine.handles p = true ∧ q.saved = some p.context := by
  unfold runSignalHandler at h
  split_ifs at h with hno
  dsimp only at h
  split_ifs at h
  obtain ⟨hflag, hafter⟩ := enterHandler_again h
  refine ⟨?_, ?_⟩
  · obtain ⟨hhandler, hflag⟩ := not_or.mp hno
    exact decide_eq_true ⟨hhandler, Bool.eq_false_iff.mpr hflag⟩
  · unfold Process.saved
    rw [hflag, hafter]
    rfl

namespace Machine

/-- The slot holds what the signal has interrupted that is handled. -/
def Tracks (m : Machine) (signal : Option ProcessContext) : Prop :=
  m.mode ≠ .gone → m.process.saved = signal

theorem tracks_machine (env : Env) (code argument : Word) (p : Process) (signal : Option ProcessContext) :
    ((runSignalHandler env code argument p).machine p).Tracks
      ((if handles p then some p.context else none).or signal) := by
  cases h : runSignalHandler env code argument p with
  | returned => exact fun hmode => absurd rfl hmode
  | panics => exact fun hmode => absurd rfl hmode
  | again q =>
    obtain ⟨hhandles, hsaved⟩ := runSignalHandler_again h
    rw [if_pos hhandles]
    exact fun _ => hsaved

variable {signal : Option ProcessContext}

/-- **An event of a process that runs** keeps what is saved: only `sigreturn` and `execve` give it
up, and only the delivery of a signal overwrites it. -/
theorem tracks_stepUser (h : p.saved = signal) (event : Event) :
    (stepUser k p regs event).Tracks
      ((interrupts ⟨p, .user regs⟩ event).or (if ends ⟨p, .user regs⟩ event then none else signal)) := by
  cases event with
  | segfault env address =>
    exact tracks_machine env 1 address { p with
      context := regs
      world := { p.world with mem := putWord p.world.mem faultAddress address.toNat } } signal
  | sigreturn =>
    intro _
    cases hflag : p.inSignalHandler with
    | true => simp [stepUser, Process.enterCall_eq, hflag, Process.saved, interrupts, ends]
    | false => simp [stepUser, Process.enterCall_eq, hflag, Process.saved, interrupts, ends,
        Process.setReturn]
  | fork child pid => cases child <;> exact fun _ => h
  | kill killCode => exact fun _ => (p.saved_kill killCode).trans h
  | user | tick | call | fault | exit | run => exact fun _ => h
  | execve => exact fun _ => rfl

theorem tracks_stepReady (h : p.saved = signal) (event : Event) :
    (stepReady p event).Tracks
      ((interrupts ⟨p, .ready⟩ event).or (if ends ⟨p, .ready⟩ event then none else signal)) := by
  cases event with
  | kill killCode => exact fun _ => (p.saved_kill killCode).trans h
  | run env kernelInterrupted =>
    cases hi : kernelInterrupted with
    | true => exact fun _ => h
    | false =>
      cases hk : p.isKilled with
      | true =>
        have hstep : stepReady p (.run env false) =
            (runSignalHandler env 2 p.killArgument { p with isKilled := false }).machine
              { p with isKilled := false } := by
          simp [stepReady, hk]
        have hsignal : interrupts ⟨p, .ready⟩ (.run env false) = if handles p then some p.context
            else none := by
          simp [interrupts, hk]
        rw [hstep, hsignal]
        exact tracks_machine env 2 p.killArgument { p with isKilled := false } signal
      | false => simpa [stepReady, hk, interrupts, ends, Tracks] using h
  | user | tick | call | sigreturn | fork | execve | exit | fault | segfault => exact fun _ => h

theorem Tracks.step (h : m.Tracks signal) (event : Event) :
    (m.step k event).Tracks ((m.interrupts event).or (if m.ends event then none else signal)) := by
  obtain ⟨p, mode⟩ := m
  cases mode with
  | user regs => exact tracks_stepUser (h (by simp)) event
  | ready => exact tracks_stepReady (h (by simp)) event
  | gone => exact fun hmode => absurd rfl hmode

/-- **While a signal is handled, the context is kept that it has interrupted.** -/
theorem Tracks.after (h : m.Tracks signal) (events : List Event) :
    (m.after k events).Tracks (handling k m signal events) := by
  induction events generalizing m signal with
  | nil => exact h
  | cons event events ih => exact ih (h.step event)

/-! ### Going on -/

/-- The process is about to go on with the context, outside of a handler. -/
structure Waiting (c : ProcessContext) (m : Machine) : Prop where
  mode : m.mode = .ready
  context : m.process.context = c
  flag : m.process.inSignalHandler = false

/-- A call of `run` lets the process go on with the context.  If it has been killed, then the
context is what this next signal interrupts, or the process ends. -/
def Resumes (c : ProcessContext) (k : Kernel) (m : Machine) (env : Env) : Prop :=
  m.process.isKilled = false ∧ m.step k (.run env false) = ⟨m.process, .user c⟩ ∨
    m.process.isKilled = true ∧
      (m.interrupts (.run env false) = some c ∨ (m.step k (.run env false)).mode = .gone)

variable {c : ProcessContext}

theorem Waiting.step (h : Waiting c m) (event : Event) :
    Waiting c (m.step k event) ∨ ∃ env, event = .run env false ∧ m.Resumes c k env := by
  obtain ⟨p, mode⟩ := m
  obtain ⟨rfl, hcontext, hflag⟩ := h
  dsimp only at hcontext hflag
  cases event with
  | kill killCode =>
    obtain ⟨h1, h2, -⟩ := p.kill_keeps killCode
    exact .inl ⟨rfl, h1.trans hcontext, h2.trans hflag⟩
  | run env kernelInterrupted =>
    cases hi : kernelInterrupted with
    | true => exact .inl ⟨rfl, hcontext, hflag⟩
    | false =>
      refine .inr ⟨env, rfl, ?_⟩
      cases hk : p.isKilled with
      | false => exact .inl ⟨hk, by simp [Machine.step, stepReady, hk, hcontext]⟩
      | true =>
        refine .inr ⟨hk, ?_⟩
        by_cases hh : handles p
        · exact .inl (by simp [interrupts, hk, hh, hcontext])
        · -- without a handler `run_signal_handler` returns, and the process exits
          refine Or.inr ?_
          have hno : p.world.signalHandler = 0 := by simpa [handles, hflag] using hh
          simp [Machine.step, stepReady, hk, runSignalHandler, hno, Signalled.machine]
  | user | tick | call | sigreturn | fork | execve | exit | fault | segfault =>
    exact .inl ⟨rfl, hcontext, hflag⟩

/-- A process that waits goes on with its context, whenever it does. -/
theorem Waiting.after (h : Waiting c m) (events : List Event) :
    Waiting c (m.after k events) ∨ ∃ before env later, events = before ++ .run env false :: later ∧
      Waiting c (m.after k before) ∧ (m.after k before).Resumes c k env := by
  induction events generalizing m with
  | nil => exact .inl h
  | cons event events ih =>
    rcases h.step (k := k) event with hstep | ⟨env, rfl, hresumes⟩
    · rcases ih hstep with hall | ⟨before, env, later, rfl, hbefore, hresumes⟩
      · exact .inl hall
      · exact .inr ⟨event :: before, env, later, rfl, hbefore, hresumes⟩
    · exact .inr ⟨[], env, events, rfl, h, hresumes⟩

end Machine

/-- What a process starts with; the slot and the argument are not set by the constructor. -/
structure Start where
  entryPoint : Word
  initialEsp : Word
  world : World
  slot : ProcessContext
  argument : Word

/-- A process as its constructor makes it, about to run. -/
def Start.machine (start : Start) : Machine where
  process :=
    { context := ⟨start.entryPoint, 0x202, start.initialEsp, 0, 0, 0, 0, 0, 0, 0⟩
      inSignalHandler := false
      afterSignalContext := start.slot
      isKilled := false
      killArgument := start.argument
      world := { start.world with signalHandler := 0 } }
  mode := .ready

/-- What the process is after the events. -/
def Start.reaches (start : Start) (k : Kernel) (events : List Event) : Machine :=
  start.machine.after k events

/-- The context that the signal has interrupted that is being handled then. -/
def Start.handling (start : Start) (k : Kernel) (events : List Event) : Option ProcessContext :=
  start.machine.handling k none events

open Machine

/-- **`sigreturn` goes on with what the signal has interrupted.**  In every state that a process
reaches, the context that is saved for the handler is the one that the signal being handled has
interrupted, and there is none if no signal is handled.  Then `sigreturn` fails with `ECANCELED`.
Otherwise it clears the flag, and the process is about to go on with exactly that context until it
does. -/
theorem sigreturn_restores (start : Start) (k : Kernel) (events : List Event) :
    (start.reaches k events).Tracks (start.handling k events) ∧
    ∀ regs, (start.reaches k events).mode = .user regs →
      ((start.reaches k events).process.inSignalHandler = false →
        Waiting { regs with eax := -eCanceled } (start.reaches k (events ++ [.sigreturn]))) ∧
      ((start.reaches k events).process.inSignalHandler = true → ∃ c, start.handling k events = some c ∧
        ∀ later, Waiting c (start.reaches k (events ++ .sigreturn :: later)) ∨
          ∃ before env rest, later = before ++ .run env false :: rest ∧
            Waiting c (start.reaches k (events ++ .sigreturn :: before)) ∧
            (start.reaches k (events ++ .sigreturn :: before)).Resumes c k env) := by
  have htracks : (start.reaches k events).Tracks (start.handling k events) :=
    Tracks.after (fun _ => rfl) events
  refine ⟨htracks, fun regs hregs => ?_⟩
  have hsaved := htracks (by simp [hregs])
  have happend : ∀ later, start.reaches k (events ++ .sigreturn :: later) =
      ((start.reaches k events).step k .sigreturn).after k later := fun later => List.foldl_append
  generalize start.reaches k events = m at hregs hsaved happend
  constructor
  · intro hflag
    rw [happend]
    constructor <;> simp [after, step, hregs, stepUser, Process.enterCall_eq, hflag, Process.setReturn]
  · intro hflag
    rw [Process.saved, if_pos hflag] at hsaved
    have hwait : Waiting m.process.afterSignalContext (m.step k .sigreturn) := by
      constructor <;> simp [step, hregs, stepUser, Process.enterCall_eq, hflag]
    refine ⟨m.process.afterSignalContext, hsaved.symm, fun later => ?_⟩
    simp only [happend]
    exact hwait.after later

/-- A process that registers a handler, faults, and in the handler has other registers. -/
def faulting (env : Env) (world : World) (regs other : ProcessContext) : List Event :=
  [.run env false, .call 0 { world with signalHandler := 0x80002000 }, .run env false, .user regs world.mem,
    .segfault env 0, .run env false, .user other world.mem, .tick, .run env false]

example : (Start.reaches ⟨0x80001000, 0xF0000000, newProcess fun _ => 0,
    ⟨0, 0, 0, 0, 0, 0, 0, 0, 0, 0⟩, 0⟩ ⟨0, 0, 0⟩
    (faulting (idle fun _ => true) (newProcess fun _ => 0)
      ⟨0x80001004, 0x202, 0x90000000, 1, 2, 3, 4, 5, 6, 7⟩
      ⟨0x80003000, 0x202, 0x8FFFFF60, 8, 8, 8, 8, 8, 8, 8⟩ ++
      [.sigreturn, .run (idle fun _ => true) false])).mode =
    .user ⟨0x80001004, 0x202, 0x90000000, 1, 2, 3, 4, 5, 6, 7⟩ := by
  decide +kernel

end GheithOS.Signal
