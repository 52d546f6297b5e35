import Mathlib.Logic.Function.Basic
import GheithOS.Cow.Entry

/-!
# GheithOS.Input.Model — `ps2.cc`, `input_events.cc`, `circular_buffer.h` and the libc wrappers

An event is the bit-field struct of `input_events.h`.  The interrupt handler builds events and adds
them to one of two circular buffers; the system calls 2001 and 2003 remove the oldest one and return
it as an integer, which libc passes through `setErrno`.  Handlers and system calls run one at a
time: each buffer has a lock.
-/

namespace GheithOS.Input

open Function

/-! ### Constants of `scancodes.h` -/

def keyRelease : BitVec 5 := 0
def keyPress : BitVec 5 := 1
def keyHeld : BitVec 5 := 2
def evSyn : ℕ := 0x00
def evKey : ℕ := 0x01
def evRel : ℕ := 0x02
def relX : BitVec 8 := 0x00
def relY : BitVec 8 := 0x01
def relHwheel : BitVec 8 := 0x06
def relWheel : BitVec 8 := 0x08
def btnLeft : ℕ := 121

/-! ### `input_events.cc` -/

/-- `struct InputEvent`; `value` is signed. -/
structure InputEvent where
  type : BitVec 2
  code : BitVec 5
  value : BitVec 9
  time : BitVec 16
  deriving DecidableEq

/-- `InputEvent event{}`. -/
def InputEvent.zero : InputEvent := ⟨0, 0, 0, 0⟩

/-- The keys that are down: `key_presses`. -/
abbrev Keys := ℕ → BitVec 8

/-- `PS2::is_pressed`. -/
def isPressed (keys : Keys) (key : ℕ) : Bool := keys key ≠ 0

def getCompressedTime (jiffies : Word) : BitVec 16 := ((jiffies >>> 6) &&& 0xFFFF#32).setWidth 16

/-- A key that goes down, or is held down. -/
def pressed (keys : Keys) (key : ℕ) : BitVec 5 := if isPressed keys key then keyHeld else keyPress

def scanCodeToEvent (keys : Keys) (jiffies : Word) (scancode : BitVec 8) (e0Last : Bool) : InputEvent :=
  let event : InputEvent := { InputEvent.zero with type := BitVec.ofNat 2 (evKey &&& 3) }
  let key := scancode.toNat
  let event :=
    if e0Last then
      if 0x47 ≤ key ∧ key ≤ 0x53 then
        { event with value := BitVec.ofNat 9 (key + 30), code := pressed keys (key + 30) }
      else if 0xC7 ≤ key ∧ key ≤ 0xD3 then
        { event with value := BitVec.ofNat 9 (key - 0x80 + 30), code := keyRelease }
      else event
    else if 1 ≤ key ∧ key ≤ 0x58 then
      { event with value := BitVec.ofNat 9 key, code := pressed keys key }
    else if 0x81 ≤ key ∧ key ≤ 0xD8 then
      { event with value := BitVec.ofNat 9 (key - 0x80), code := keyRelease }
    else event
  { event with time := getCompressedTime jiffies }

def mouseButtonsToEvent (jiffies : Word) (buttonNum : BitVec 8) (press : Bool) : InputEvent where
  type := BitVec.ofNat 2 (evKey &&& 3)
  value := BitVec.ofNat 9 (buttonNum.toNat + btnLeft)
  code := if press then keyPress else keyRelease
  time := getCompressedTime jiffies

def mouseMoveToEvent (jiffies : Word) (movement : BitVec 16) (axis : BitVec 8) : InputEvent where
  type := BitVec.ofNat 2 (evRel &&& 3)
  code := axis.setWidth 5
  value := (if 0 ≤ movement.toInt then movement else movement ||| 0xFF00#16).setWidth 9
  time := getCompressedTime jiffies

def sncEvent (jiffies : Word) : InputEvent where
  type := BitVec.ofNat 2 evSyn
  code := 1
  value := 0
  time := getCompressedTime jiffies

def evToInt (event : InputEvent) : Word :=
  ((event.type.setWidth 32 &&& 0x3#32) <<< 30) ||| ((event.code.setWidth 32 &&& 0x1F#32) <<< 25) |||
    ((event.value.signExtend 32 &&& 0x1FF#32) <<< 16) ||| (event.time.setWidth 32 &&& 0xFFFF#32)

def intToEv (i : Word) : InputEvent where
  type := ((i >>> 30) &&& 0x3#32).setWidth 2
  code := ((i >>> 25) &&& 0x1F#32).setWidth 5
  value := ((i >>> 16) &&& 0x1FF#32).setWidth 9
  time := (i &&& 0xFFFF#32).setWidth 16

/-! ### `circular_buffer.h` -/

structure CircularBuffer (α : Type) where
  size : ℕ
  head : ℕ
  tail : ℕ
  ar : ℕ → α

def CircularBuffer.add {α : Type} (b : CircularBuffer α) (el : α) : CircularBuffer α :=
  if (b.head + 1) % b.size = b.tail then b
  else { b with ar := update b.ar b.head el, head := (b.head + 1) % b.size }

/-- `remove`; `zero` is `(T)0`. -/
def CircularBuffer.remove {α : Type} (zero : α) (b : CircularBuffer α) : α × CircularBuffer α :=
  if b.head = b.tail then (zero, b) else (b.ar b.tail, { b with tail := (b.tail + 1) % b.size })

/-! ### `ps2.cc` -/

structure PS2 where
  curPacketIndex : ℕ
  packet : ℕ → BitVec 8
  e0Last : Bool
  keyEvents : CircularBuffer InputEvent
  mouseEvents : CircularBuffer InputEvent
  keyPresses : Keys

/-- The static state: buffers of 10000 events. -/
def PS2.init : PS2 where
  curPacketIndex := 0
  packet _ := 0
  e0Last := false
  keyEvents := ⟨10000, 0, 0, fun _ => .zero⟩
  mouseEvents := ⟨10000, 0, 0, fun _ => .zero⟩
  keyPresses _ := 0

def PS2.addKey (s : PS2) (event : InputEvent) : PS2 := { s with keyEvents := s.keyEvents.add event }

def PS2.addMouse (s : PS2) (event : InputEvent) : PS2 := { s with mouseEvents := s.mouseEvents.add event }

def writeKeyEvent (jiffies : Word) (key : BitVec 8) (lastE0 : Bool) (s : PS2) : PS2 :=
  let event := scanCodeToEvent s.keyPresses jiffies key lastE0
  if event.value = 0 then s
  else
    let s := { s with keyPresses := update s.keyPresses event.value.toNat (event.code.setWidth 8) }
    (s.addKey (sncEvent jiffies)).addKey event

/-- The horizontal or the vertical wheel. -/
def scroll (jiffies : Word) (byte3 : BitVec 8) (s : PS2) : PS2 :=
  if byte3 &&& 0b1000000#8 ≠ 0 then
    if byte3 &&& 0x3F#8 ≠ 0 then
      s.addMouse (mouseMoveToEvent jiffies
        ((byte3 &&& 0x1F#8).setWidth 16 - (byte3 &&& 0x20#8).setWidth 16) relHwheel)
    else s
  else if byte3 &&& 0xF#8 ≠ 0 then
    s.addMouse (mouseMoveToEvent jiffies
      ((byte3 &&& 0x7#8).setWidth 16 - (byte3 &&& 0x8#8).setWidth 16) relWheel)
  else s

/-- One round of the loop over the buttons. -/
def button (jiffies : Word) (buttons : ℕ → Bool) (s : PS2) (i : ℕ) : PS2 :=
  if isPressed s.keyPresses (btnLeft + i) ≠ buttons i then
    let event := mouseButtonsToEvent jiffies (BitVec.ofNat 8 i) (buttons i)
    let s := s.addMouse event
    { s with keyPresses := update s.keyPresses (btnLeft + i) (event.code.setWidth 8) }
  else s

/-- `byte - ((byte0 << shift) & 0x100)`. -/
def relative (byte byte0 : BitVec 8) (shift : ℕ) : BitVec 16 :=
  byte.setWidth 16 - ((byte0.setWidth 16 <<< shift) &&& 0x100#16)

def handlePacket (jiffies : Word) (byte0 byte1 byte2 byte3 : BitVec 8) (s : PS2) : PS2 :=
  if (byte0 >>> 6) &&& 1#8 = 1#8 ∨ (byte0 >>> 7) &&& 1#8 = 1#8 then s
  else
    let s := s.addMouse (sncEvent jiffies)
    let relativeX := relative byte1 byte0 4
    let relativeY := relative byte2 byte0 3
    let buttons : ℕ → Bool := fun
      | 0 => byte0 &&& 1#8 ≠ 0
      | 1 => byte0 &&& 0b10#8 ≠ 0
      | 2 => byte0 &&& 0b100#8 ≠ 0
      | 3 => byte3 &&& 0b10000#8 ≠ 0
      | _ => byte3 &&& 0b100000#8 ≠ 0
    let buttonMax := if byte3 &&& 0b1000000#8 ≠ 0 then 3 else 5
    let s := scroll jiffies byte3 s
    let s := (List.range buttonMax).foldl (button jiffies buttons) s
    let s := s.addMouse (mouseMoveToEvent jiffies relativeX relX)
    s.addMouse (mouseMoveToEvent jiffies relativeY relY)

/-- `PS2InterruptHandler`, for a byte of the keyboard or of the mouse. -/
def interruptHandler (jiffies : Word) (isMouse : Bool) (data : BitVec 8) (s : PS2) : PS2 :=
  if isMouse = false then
    if data = 0xE0#8 then { s with e0Last := true }
    else writeKeyEvent jiffies data s.e0Last { s with e0Last := false }
  else
    let s := { s with packet := update s.packet s.curPacketIndex data }
    let first : BitVec 8 := s.packet 0
    if s.curPacketIndex = 0 ∧ (first >>> 3) &&& 1#8 ≠ 1#8 then s
    else
      let s := { s with curPacketIndex := (s.curPacketIndex + 1) % 4 }
      if s.curPacketIndex = 0
          then handlePacket jiffies (s.packet 0) (s.packet 1) (s.packet 2) (s.packet 3) s else s

/-! ### System calls 2001 and 2003, and libc -/

/-- `setErrno` of `syscalls.c`: the value it returns. -/
def setErrno (ret : Word) : Word := if ret.toInt < 0 then -1#32 else ret

/-- libc's `read_key_event`. -/
def readKeyEvent (s : PS2) : Word × PS2 :=
  let (event, keyEvents) := s.keyEvents.remove .zero
  (setErrno (evToInt event), { s with keyEvents := keyEvents })

/-- libc's `read_mouse_event`. -/
def readMouseEvent (s : PS2) : Word × PS2 :=
  let (event, mouseEvents) := s.mouseEvents.remove .zero
  (setErrno (evToInt event), { s with mouseEvents := mouseEvents })

end GheithOS.Input
