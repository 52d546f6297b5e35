import Mathlib.Algebra.Group.Int.Defs
import Mathlib.Algebra.Group.Nat.Defs
import Mathlib.Logic.Function.Basic
import Mathlib.Data.Int.Order.Basic

/-!
# GheithOS.Heap.Model — the kernel heap of `heap.cc`

A first-fit heap in one array of ints.  Each block carries its length in its first and last word
(positive: available, negative: taken); an available block keeps the index of the next and of the
previous available block in its second and third word, `0` ending the list.

The array is a map from indices to ints.  Lengths stay far below `2^31`, so the only arithmetic that
can wrap is that of `size_t` and of pointers, and that is written with `% 2^32`.
`static int safe = 0` is never assigned, so `sanity` returns its argument.  The spin lock around the
bodies of `malloc` and `free` makes each of them one step; it is free before and after every call.
-/

namespace GheithOS.Heap

/-- Why a call does not return. -/
inductive Stop
  /-- `Debug::panic` -/
  | panic
  /-- the walk of the free list did not end within the given number of steps -/
  | fuel
  deriving DecidableEq, Repr

/-- The area handed to `heapInit`: its address and its size in bytes (`size_t`). -/
structure Area where
  base : ℕ
  bytes : ℕ
  base_pos : 0 < base
  fits : base + bytes < 2 ^ 32
  large : 16 ≤ bytes / 4

/-- The globals of `heap.cc`. -/
structure State where
  array : ℤ → ℤ
  len : ℤ
  avail : ℤ
  heapCount : ℕ

/-- `array[i] = x`. -/
def State.set (h : State) (i x : ℤ) : State := { h with array := Function.update h.array i x }

def abs (x : ℤ) : ℤ := if x < 0 then -x else x

def size (h : State) (i : ℤ) : ℤ := abs (h.array i)

def headerFromFooter (h : State) (i : ℤ) : ℤ := i - size h i + 1

def footerFromHeader (h : State) (i : ℤ) : ℤ := i + size h i - 1

def sanity (i : ℤ) : ℤ := i

def left (h : State) (i : ℤ) : ℤ := sanity (headerFromFooter h (i - 1))

def right (h : State) (i : ℤ) : ℤ := sanity (i + size h i)

def next (h : State) (i : ℤ) : ℤ := sanity (h.array (i + 1))

def prev (h : State) (i : ℤ) : ℤ := sanity (h.array (i + 2))

def setNext (h : State) (i x : ℤ) : State := h.set (i + 1) x

def setPrev (h : State) (i x : ℤ) : State := h.set (i + 2) x

def remove (h : State) (i : ℤ) : State :=
  let prevIndex := prev h i
  let nextIndex := next h i
  let h := if prevIndex = 0 then { h with avail := nextIndex } else setNext h prevIndex nextIndex
  if nextIndex ≠ 0 then setPrev h nextIndex prevIndex else h

def makeAvail (h : State) (i ints : ℤ) : State :=
  let h := h.set i ints
  let h := h.set (footerFromHeader h i) ints
  let h := setNext h i h.avail
  let h := setPrev h i 0
  let h := if h.avail ≠ 0 then setPrev h h.avail i else h
  { h with avail := i }

def makeTaken (h : State) (i ints : ℤ) : State :=
  let h := h.set i (-ints)
  h.set (footerFromHeader h i) (-ints)

def isAvail (h : State) (i : ℤ) : Bool := h.array i > 0

def isTaken (h : State) (i : ℤ) : Bool := h.array i < 0

/-- The address of `array[i]`. -/
def Area.addr (a : Area) (i : ℤ) : ℕ := a.base + (4 * i).toNat

/-- The walk of `malloc` along the free list: the smallest of the first `countDown` blocks of at
least `ints` ints, as `(mx, it)`. -/
def search (h : State) (ints : ℤ) : ℕ → ℤ → ℤ → ℤ → ℤ → Except Stop (ℤ × ℤ)
  | 0, _, _, _, _ => .error .fuel
  | fuel + 1, p, mx, it, countDown =>
    if p = 0 then .ok (mx, it)
    else if !isAvail h p then .error .panic
    else
      let sz := size h p
      if sz ≥ ints then
        let mx' := if sz < mx then sz else mx
        let it' := if sz < mx then p else it
        if countDown - 1 = 0 then .ok (mx', it')
        else search h ints fuel (next h p) mx' it' (countDown - 1)
      else search h ints fuel (next h p) mx it countDown

/-- The block length `malloc` computes; `bytes + 3` is a `size_t`. -/
def intsFor (bytes : ℕ) : ℤ :=
  let ints : ℤ := ((bytes + 3) % 2 ^ 32 / 4 : ℕ) + 2
  if ints < 4 then 4 else ints

/-- The part of `malloc` that takes the block `it` of `mx` ints out of the list and cuts it. -/
def takeBlock (h : State) (it mx ints : ℤ) : State :=
  let h := remove h it
  let extra := mx - ints
  if extra ≥ 4 then makeAvail (makeTaken h it ints) (it + ints) extra else makeTaken h it mx

/-- `malloc`: the address of the payload, `0` when no block is large enough. -/
def malloc (a : Area) (h : State) (bytes : ℕ) : Except Stop (ℕ × State) :=
  if bytes = 0 then .ok (a.addr 0, h)
  else do
    let ints := intsFor bytes
    let (mx, it) ← search h ints (h.len.toNat + 1) h.avail 0x7FFFFFFF 0 20
    if it ≠ 0 then
      let h := takeBlock h it mx ints
      return (a.addr (it + 1), { h with heapCount := (h.heapCount + 1) % 2 ^ 32 })
    else return (0, h)

def free (a : Area) (h : State) (p : ℕ) : Except Stop State :=
  if p = 0 then .ok h
  else if p = a.addr 0 then .ok h
  else
    let h := { h with heapCount := (h.heapCount + (2 ^ 32 - 1)) % 2 ^ 32 }
    let idx : ℤ := ((p + 2 ^ 32 - a.addr 0) % 2 ^ 32 / 4 : ℕ) - 1
    if !isTaken h idx then .error .panic
    else
      let sz := size h idx
      let leftIndex := left h idx
      let rightIndex := right h idx
      let joinLeft := isAvail h leftIndex
      let h := if joinLeft then remove h leftIndex else h
      let idx := if joinLeft then leftIndex else idx
      let sz := if joinLeft then sz + size h leftIndex else sz
      let joinRight := isAvail h rightIndex
      let h := if joinRight then remove h rightIndex else h
      let sz := if joinRight then sz + size h rightIndex else sz
      .ok (makeAvail h idx sz)

/-- `heapInit`, on an area that holds `array₀`: the sentinels, one available block between them, and
the spin lock that `new SpinLock()` puts in front of it (one byte, cleared by its constructor). -/
def heapInit (a : Area) (array₀ : ℤ → ℤ) : Except Stop State := do
  let h : State := ⟨array₀, (a.bytes / 4 : ℕ), 0, 0⟩
  let h := makeTaken h 0 2
  let h := makeAvail h 2 (h.len - 4)
  let h := makeTaken h (h.len - 2) 2
  let (p, h) ← malloc a h 1
  if p = 0 then .error .panic
  else
    let i : ℤ := ((p - a.base) / 4 : ℕ)
    return h.set i (h.array i - h.array i % 256)

end GheithOS.Heap
