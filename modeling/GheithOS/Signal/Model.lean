import GheithOS.Syscall.Model

/-!
# GheithOS.Signal.Model — `process.cc`, and the delivery of signals

A process has one context, which is what it goes on with, and one more for the time in which it
handles a signal.  A kill is delivered by `Process::run` before the process goes on, a fault by
`segfault`; both put a frame below the stack of the process.  The frame is written to the memory of
the process (`writeFrame`), and the page fault handler ends a write that fails with another call of
`Process::run`.
-/

namespace GheithOS.Signal

open Syscall MemoryMapping

structure ProcessContext where
  eip : Word
  eflags : Word
  esp : Word
  edi : Word
  esi : Word
  ebp : Word
  ebx : Word
  edx : Word
  ecx : Word
  eax : Word
  deriving DecidableEq

/-- What a process has for its signals, and in `world` what its system calls and its instructions
change. -/
structure Process where
  context : ProcessContext
  inSignalHandler : Bool
  afterSignalContext : ProcessContext
  isKilled : Bool
  killArgument : Word
  world : World

/-- What the processor pushes at an interrupt. -/
def interruptFrame (regs : ProcessContext) (cs ss : Word) : ℕ → Word
  | 0 => regs.eip
  | 1 => cs
  | 2 => regs.eflags
  | 3 => regs.esp
  | _ => ss

/-- What `pusha` pushes. -/
def registerFrame (regs : ProcessContext) (kernelEsp : Word) : ℕ → Word
  | 0 => regs.edi
  | 1 => regs.esi
  | 2 => regs.ebp
  | 3 => kernelEsp
  | 4 => regs.ebx
  | 5 => regs.edx
  | 6 => regs.ecx
  | _ => regs.eax

namespace Process

def saveState (interruptFrame registerFrame : ℕ → Word) (p : Process) : Process :=
  { p with
    context :=
      { eip := interruptFrame 0
        eflags := interruptFrame 2
        esp := interruptFrame 3
        edi := registerFrame 0
        esi := registerFrame 1
        ebp := registerFrame 2
        ebx := registerFrame 4
        edx := registerFrame 5
        ecx := registerFrame 6
        eax := registerFrame 7 } }

def setReturn (returnValue : Word) (p : Process) : Process :=
  { p with context := { p.context with eax := returnValue } }

/-- `Process::reset`; the new image is that of `world`. -/
def reset (newEntryPoint newEsp : Word) (world : World) (p : Process) : Process :=
  { p with
    context := { p.context with eip := newEntryPoint, esp := newEsp }
    world := { world with signalHandler := 0 }
    inSignalHandler := false }

/-- `Process(Process&)`; `kill_argument` is not read before it is set. -/
def copy (p : Process) : Process where
  context := p.context
  inSignalHandler := p.inSignalHandler
  afterSignalContext := p.afterSignalContext
  isKilled := false
  killArgument := 0
  world := p.world

/-- `kill`, for the child that it finds. -/
def kill (killCode : Word) (p : Process) : Process :=
  if p.isKilled then p else { p with isKilled := true, killArgument := killCode }

end Process

/-! ### Delivery -/

/-- Where `run_signal_handler` leads: back to its caller, to a call of `Process::run`, or to a
panic. -/
inductive Signalled
  | returned
  | again (p : Process)
  | panics

/-- The frame is written, and the handler becomes the next instruction.  If a page of the frame is
not mapped, the page fault handler calls `run` before it has. -/
def enterHandler (env : Env) (userStack : ℕ) (code argument : Word) (p : Process) : Signalled :=
  match writeFrame env userStack code.toNat argument.toNat p.world with
  | .ok _ w => .again { p with
      world := w
      context := { p.context with eip := BitVec.ofNat 32 w.signalHandler } }
  | .error .fault w => .again { p with world := w }
  | .error _ _ => .panics

def runSignalHandler (env : Env) (code argument : Word) (p : Process) : Signalled :=
  if p.world.signalHandler = 0 ∨ p.inSignalHandler = true then .returned
  else
    let userStack := signalStack p.context.esp.toNat
    if validatePointer 4 userStack 3 then
      enterHandler env userStack code argument { p with
        afterSignalContext := p.context
        inSignalHandler := true
        context := { p.context with esp := BitVec.ofNat 32 userStack } }
    else .returned

/-- What a process does next. -/
inductive Outcome
  | user (p : Process)
  | exits (exitCode : Word)
  | panics

/-- If `run_signal_handler` returns, its caller ends the process. -/
def Signalled.next (exitCode : Word) (run : Process → Option Outcome) : Signalled → Option Outcome
  | .returned => some (.exits exitCode)
  | .again p => run p
  | .panics => some .panics

/-- A call of `Process::run`: whether the kernel has been interrupted, and a kill that has come
before. -/
structure Moment where
  kernelInterrupted : Bool
  kill : Option Word

/-- The calls of `Process::run` for a process, until it is clear what it does next.  A call that
finds the kernel interrupted puts the process back into the queue. -/
def run (env : Env) : List Moment → Process → Option Outcome
  | [], _ => none
  | t :: ts, p =>
    let p := t.kill.elim p p.kill
    if t.kernelInterrupted then run env ts p
    else if p.isKilled then
      (runSignalHandler env 2 p.killArgument { p with isKilled := false }).next p.killArgument (run env ts)
    else some (.user p)

def faultAddress : ℕ := sharedAddress + 0x800

def segfault (env : Env) (ts : List Moment) (address : Word) (p : Process) : Option Outcome :=
  let p := { p with world := { p.world with mem := putWord p.world.mem faultAddress address.toNat } }
  (runSignalHandler env 1 address p).next 139 (run env ts)

end GheithOS.Signal
