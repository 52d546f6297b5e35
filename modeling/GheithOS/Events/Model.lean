import GheithOS.Sync.Queue
import Mathlib.Algebra.Group.Nat.Defs

/-!
# GheithOS.Events.Model — `events.cc` and `events.h`

Work that is to be done later waits in a list of `PQEntry`, which `PQ::add` keeps in the order of
the deadlines.  The entries are cells of the heap: `new` makes one of a cell that is not in use,
`delete` gives it back, and an access to a cell that is not in use has no result.  A link is the
place that holds a pointer to an entry, as `pprev` points to it.  The locks are left out; each
operation of the queue runs under its lock.

`Kernel` is what the event loop works on: the counter of the timer, the queue of deadlines, and the
queue of events that are ready (`Sync.Queue`).
-/

namespace GheithOS.Events

open Sync

/-- `PQEntry`; an event is known by its address. -/
structure PQEntry where
  at_ : ℕ
  e : ℕ
  next : Option ℕ
  deriving DecidableEq

/-- The list of entries, and the cells of the heap that are entries. -/
structure PQ where
  head : Option ℕ
  entries : ℕ → Option PQEntry

/-- Where a pointer to an entry is kept. -/
inductive Link
  | head
  | next (p : ℕ)
  deriving DecidableEq

namespace PQ

variable (q : PQ)

def empty : PQ := ⟨none, fun _ => none⟩

/-- The loop of `add`: the first entry with a later deadline, and the link to it.  Without fuel, or
in a cell that is not in use, there is no result. -/
def seek (at_ : ℕ) : ℕ → Option ℕ → Link → Option (Option ℕ × Link)
  | _, none, pprev => some (none, pprev)
  | 0, some _, _ => none
  | fuel + 1, some p, pprev => do
    let entry ← q.entries p
    if entry.at_ > at_ then return (some p, pprev) else seek at_ fuel entry.next (.next p)

/-- An entry is written. -/
def setEntry (p : ℕ) (entry : PQEntry) :
    PQ := { q with entries := Function.update q.entries p (some entry) }

/-- `*pprev = pqe`. -/
def setLink (pqe : ℕ) : Link → Option PQ
  | .head => some { q with head := some pqe }
  | .next p => do
    let entry ← q.entries p
    return q.setEntry p { entry with next := some pqe }

/-- `add`, with the cell that `new` has found. -/
def add (fuel pqe at_ e : ℕ) : Option PQ := do
  let q := q.setEntry pqe ⟨at_, e, none⟩
  let (p, pprev) ← q.seek at_ fuel q.head .head
  (q.setEntry pqe ⟨at_, e, p⟩).setLink pqe pprev

def removeIfReady (jiffies : ℕ) : Option (Option ℕ × PQ) :=
  match q.head with
  | none => some (none, q)
  | some pqe => do
    let entry ← q.entries pqe
    if entry.at_ ≤ jiffies then
      return (some entry.e, { head := entry.next, entries := Function.update q.entries pqe none })
    else return (none, q)

end PQ

/-! ### The event loop -/

structure Kernel where
  jiffies : ℕ
  pq : PQ
  readyQueue : Queue
  next : Links

namespace Kernel

def init : Kernel := ⟨0, PQ.empty, Queue.empty, fun _ => none⟩

/-- `ready_queue.add`. -/
def addReady (e : ℕ) (s : Kernel) : Kernel :=
  { s with readyQueue := (s.readyQueue.add s.next e).1, next := (s.readyQueue.add s.next e).2 }

/-- `go`, for an event that has just been made. -/
def go (fuel pqe e delay : ℕ) (s : Kernel) : Option Kernel :=
  if delay = 0 then some (s.addReady e)
  else do
    let pq ← s.pq.add fuel pqe ((s.jiffies + delay + 1) % 2 ^ 32) e
    return { s with pq := pq }

/-- A tick of the timer. -/
def tick (s : Kernel) : Kernel := { s with jiffies := (s.jiffies + 1) % 2 ^ 32 }

/-- One round of the inner loop of `event_loop`, and whether it found an event. -/
def poll (s : Kernel) : Option (Option ℕ × Kernel) := do
  let (e, pq) ← s.pq.removeIfReady s.jiffies
  return (e, e.elim { s with pq := pq } fun e => { s with pq := pq }.addReady e)

/-- `ready_queue.remove`: the event that is done next. -/
def take (s : Kernel) : Option ℕ × Kernel :=
  ((s.readyQueue.remove s.next).1, { s with readyQueue := (s.readyQueue.remove s.next).2 })

/-- The inner loop of `event_loop`. -/
def drain : ℕ → Kernel → Option Kernel
  | 0, _ => none
  | fuel + 1, s => do
    let (e, s) ← s.poll
    match e with
    | none => return s
    | some _ => drain fuel s

/-- One round of `event_loop`. -/
def round (fuel : ℕ) (s : Kernel) : Option (Option ℕ × Kernel) := do
  let s ← s.drain fuel
  return s.take

end Kernel

end GheithOS.Events
