import Mathlib.Data.List.Basic
import GheithOS.Input.Boundary

/-!
# GheithOS.Input.Runs — what an interrupt enqueues and which keys it writes

Bytes of the keyboard and of the mouse arrive in any order, and programs remove events in between.
`Op.keyEvents` and `Op.mouseEvents` are the events that a byte leads to: those of a make or break
code, or of the packet that the byte completes.  `interruptHandler_key` and `interruptHandler_mouse`
show that the handler adds just these to the two buffers.
-/

namespace GheithOS.Input

open Function

/-- A byte at the controller, or one of the two system calls. -/
inductive Op
  | byte (jiffies : Word) (isMouse : Bool) (data : BitVec 8)
  | readKey
  | readMouse
  deriving DecidableEq

def Op.exec (s : PS2) : Op → PS2
  | byte jiffies isMouse data => interruptHandler jiffies isMouse data s
  | readKey => (readKeyEvent s).2
  | readMouse => (readMouseEvent s).2

def run (s : PS2) (ops : List Op) : PS2 := ops.foldl Op.exec s

/-- The byte of an interrupt of the mouse, or of the keyboard. -/
def Op.data (isMouse : Bool) : Op → Option (BitVec 8)
  | byte _ m data => if m = isMouse then some data else none
  | _ => none

/-- The buffer of a device. -/
def PS2.events (s : PS2) : Bool → CircularBuffer InputEvent
  | true => s.mouseEvents
  | false => s.keyEvents

/-- The bytes of one device. -/
def bytes (isMouse : Bool) (ops : List Op) : List (BitVec 8) := ops.filterMap (Op.data isMouse)

/-- An event for a key. -/
def isKey (v : ℕ) (event : InputEvent) : Bool :=
  event.type = BitVec.ofNat 2 evKey ∧ event.value = BitVec.ofNat 9 v

/-! ### Codes -/

/-- The value that a make code (`true`) or a break code (`false`) is mapped to, after a prefix or
not. -/
def code (e0Last : Bool) (data : BitVec 8) : Option (ℕ × Bool) :=
  let key := data.toNat
  if e0Last then
    if 0x47 ≤ key ∧ key ≤ 0x53 then some (key + 30, true)
    else if 0xC7 ≤ key ∧ key ≤ 0xD3 then some (key - 0x80 + 30, false)
    else none
  else if 1 ≤ key ∧ key ≤ 0x58 then some (key, true)
  else if 0x81 ≤ key ∧ key ≤ 0xD8 then some (key - 0x80, false)
  else none

/-- The event of a make or break code. -/
def keyEvent (keys : Keys) (jiffies : Word) (c : ℕ × Bool) : InputEvent :=
  ⟨1, if c.2 then pressed keys c.1 else keyRelease, BitVec.ofNat 9 c.1, getCompressedTime jiffies⟩

variable {c : ℕ × Bool}

theorem code_range {e0Last : Bool} {data : BitVec 8} (h : code e0Last data = some c) :
    1 ≤ c.1 ∧ c.1 ≤ 113 := by
  unfold code at h
  dsimp only at h
  split_ifs at h <;> obtain rfl := Option.some.inj h <;> dsimp only <;> omega

theorem scanCodeToEvent_eq (keys : Keys) (jiffies : Word) (data : BitVec 8) (e0Last : Bool) :
    scanCodeToEvent keys jiffies data e0Last =
      (code e0Last data).elim ⟨1, 0, 0, getCompressedTime jiffies⟩ (keyEvent keys jiffies) := by
  unfold scanCodeToEvent code
  dsimp only
  split_ifs <;> rfl

variable {v : ℕ}

theorem toNat_value (h : v ≤ 113) : (BitVec.ofNat 9 v).toNat = v := by
  rw [BitVec.toNat_ofNat]
  omega

theorem value_ne_zero (h1 : 1 ≤ v) (h2 : v ≤ 113) : BitVec.ofNat 9 v ≠ 0 := by
  intro h
  have := congrArg BitVec.toNat h
  rw [toNat_value h2] at this
  simp at this
  omega

variable {s : PS2}

theorem writeKeyEvent_none {jiffies : Word} {data : BitVec 8} {e0Last : Bool}
    (h : code e0Last data = none) :
    writeKeyEvent jiffies data e0Last s = s := by
  unfold writeKeyEvent
  rw [scanCodeToEvent_eq, h]
  exact if_pos rfl

theorem writeKeyEvent_some {jiffies : Word} {data : BitVec 8} {e0Last : Bool}
    (h : code e0Last data = some c) :
    writeKeyEvent jiffies data e0Last s =
      { s with
        keyPresses := update s.keyPresses c.1 ((keyEvent s.keyPresses jiffies c).code.setWidth 8)
        keyEvents := (s.keyEvents.add (sncEvent jiffies)).add (keyEvent s.keyPresses jiffies c) } := by
  obtain ⟨h1, h2⟩ := code_range h
  unfold writeKeyEvent
  rw [scanCodeToEvent_eq, h]
  dsimp only [Option.elim_some]
  have hvalue : (keyEvent s.keyPresses jiffies c).value ≠ 0 := value_ne_zero h1 h2
  have hindex : (keyEvent s.keyPresses jiffies c).value.toNat = c.1 := toNat_value h2
  rw [if_neg hvalue, hindex]
  rfl

/-! ### Packets -/

structure Packet where
  byte0 : BitVec 8
  byte1 : BitVec 8
  byte2 : BitVec 8
  byte3 : BitVec 8
  deriving DecidableEq

/-- The buttons of the mouse that are down. -/
def down (s : PS2) (i : ℕ) : Bool := isPressed s.keyPresses (btnLeft + i)

variable {p : Packet}

namespace Packet

def bytes (p : Packet) : List (BitVec 8) := [p.byte0, p.byte1, p.byte2, p.byte3]

/-- A packet with an overflow bit is dropped. -/
def Overflow (p : Packet) : Prop := (p.byte0 >>> 6) &&& 1#8 = 1#8 ∨ (p.byte0 >>> 7) &&& 1#8 = 1#8

instance decidableOverflow (p : Packet) : Decidable p.Overflow := inferInstanceAs (Decidable (_ ∨ _))

def buttons (p : Packet) : ℕ → Bool
  | 0 => p.byte0 &&& 1#8 ≠ 0
  | 1 => p.byte0 &&& 0b10#8 ≠ 0
  | 2 => p.byte0 &&& 0b100#8 ≠ 0
  | 3 => p.byte3 &&& 0b10000#8 ≠ 0
  | _ => p.byte3 &&& 0b100000#8 ≠ 0

def buttonMax (p : Packet) : ℕ := if p.byte3 &&& 0b1000000#8 ≠ 0 then 3 else 5

def wheel (jiffies : Word) (p : Packet) : List InputEvent :=
  if p.byte3 &&& 0b1000000#8 ≠ 0 then
    if p.byte3 &&& 0x3F#8 ≠ 0 then
      [mouseMoveToEvent jiffies
        ((p.byte3 &&& 0x1F#8).setWidth 16 - (p.byte3 &&& 0x20#8).setWidth 16) relHwheel]
    else []
  else if p.byte3 &&& 0xF#8 ≠ 0 then
    [mouseMoveToEvent jiffies ((p.byte3 &&& 0x7#8).setWidth 16 - (p.byte3 &&& 0x8#8).setWidth 16) relWheel]
  else []

theorem mem_wheel {jiffies : Word} {event : InputEvent} (h : event ∈ p.wheel jiffies) :
    ∃ movement axis, event = mouseMoveToEvent jiffies movement axis ∧
      (axis = relHwheel ∨ axis = relWheel) := by
  unfold wheel at h
  split_ifs at h
  · exact ⟨_, _, List.mem_singleton.mp h, .inl rfl⟩
  · simp at h
  · exact ⟨_, _, List.mem_singleton.mp h, .inr rfl⟩
  · simp at h

/-- The buttons among `is` that the packet changes. -/
def changed (down buttons : ℕ → Bool) (is : List ℕ) : List ℕ := is.filter fun i => down i ≠ buttons i

def buttonEvents (jiffies : Word) (buttons : ℕ → Bool) (is : List ℕ) : List InputEvent :=
  is.map fun i => mouseButtonsToEvent jiffies (BitVec.ofNat 8 i) (buttons i)

/-- The events of a packet that is not dropped. -/
def events (jiffies : Word) (down : ℕ → Bool) (p : Packet) : List InputEvent :=
  [sncEvent jiffies] ++ p.wheel jiffies ++
    buttonEvents jiffies p.buttons (changed down p.buttons (List.range p.buttonMax)) ++
    [mouseMoveToEvent jiffies (relative p.byte1 p.byte0 4) relX,
      mouseMoveToEvent jiffies (relative p.byte2 p.byte0 3) relY]

/-- The buttons after a packet that is not dropped. -/
def after (down : ℕ → Bool) (p : Packet) (i : ℕ) : Bool := if i < p.buttonMax then p.buttons i else down i

end Packet

/-- The packet that a byte completes, and the time. -/
def Op.completed (s : PS2) : Op → Option (Word × Packet)
  | byte jiffies true data =>
    if s.curPacketIndex = 3 then some (jiffies, ⟨s.packet 0, s.packet 1, s.packet 2, data⟩) else none
  | _ => none

/-- The packets that `handle_packet` is called with in a run. -/
def handled (s : PS2) : List Op → List (Word × Packet)
  | [] => []
  | op :: ops => (op.completed s).toList ++ handled (op.exec s) ops

/-! ### `handle_packet` -/

variable {k : ℕ}

section Handle

variable {s : PS2} (jiffies : Word)

theorem scroll_eq (p : Packet) :
    scroll jiffies p.byte3 s =
      { s with mouseEvents := (p.wheel jiffies).foldl CircularBuffer.add s.mouseEvents } := by
  unfold scroll Packet.wheel
  split_ifs <;> rfl

/-- The key of a button is written. -/
def press (buttons : ℕ → Bool) (keys : Keys) (i : ℕ) : Keys :=
  update keys (btnLeft + i) (if buttons i then 1 else 0)

theorem isPressed_update_of_ne {keys : Keys} {j : ℕ} (h : j ≠ k) (x : BitVec 8) :
    isPressed (update keys k x) j = isPressed keys j := by
  unfold isPressed
  rw [update_of_ne h]

theorem isPressed_press (buttons : ℕ → Bool) (keys : Keys) (i j : ℕ) :
    isPressed (press buttons keys i) (btnLeft + j) = if j = i then buttons i
      else isPressed keys (btnLeft + j) := by
  unfold press
  by_cases h : j = i
  · subst h
    unfold isPressed
    rw [update_self, if_pos rfl]
    cases buttons j <;> rfl
  · rw [isPressed_update_of_ne (by omega), if_neg h]

/-- A round of the loop, for a button that changes and for one that does not. -/
theorem button_eq (buttons : ℕ → Bool) (i : ℕ) :
    button jiffies buttons s i = if down s i ≠ buttons i then
      { s with
        mouseEvents := s.mouseEvents.add (mouseButtonsToEvent jiffies (BitVec.ofNat 8 i) (buttons i))
        keyPresses := press buttons s.keyPresses i } else s := by
  unfold button down
  refine if_congr Iff.rfl ?_ rfl
  unfold press mouseButtonsToEvent
  cases buttons i <;> rfl

variable {is : List ℕ}

/-- The loop over the buttons: each is compared with its state before the packet. -/
theorem foldl_button (buttons : ℕ → Bool) (hnd : is.Nodup) :
    is.foldl (button jiffies buttons) s =
      { s with
        mouseEvents := (Packet.buttonEvents jiffies buttons (Packet.changed (down s) buttons is)).foldl
          CircularBuffer.add s.mouseEvents
        keyPresses := (Packet.changed (down s) buttons is).foldl (press buttons) s.keyPresses } := by
  induction is generalizing s with
  | nil => rfl
  | cons i is ih =>
    obtain ⟨hi, hnd⟩ := List.nodup_cons.mp hnd
    rw [List.foldl_cons, ih hnd, button_eq]
    by_cases hc : down s i = buttons i
    · rw [if_neg (not_not.mpr hc), Packet.changed, Packet.changed,
        List.filter_cons_of_neg (by simpa using hc)]
    · rw [if_pos hc]
      have hrest : Packet.changed (down { s with
          mouseEvents := s.mouseEvents.add (mouseButtonsToEvent jiffies (BitVec.ofNat 8 i) (buttons i))
          keyPresses := press buttons s.keyPresses i }) buttons is =
            Packet.changed (down s) buttons is := by
        refine List.filter_congr fun j hj => ?_
        have hne : j ≠ i := fun h => hi (h ▸ hj)
        unfold down
        dsimp only
        rw [isPressed_press, if_neg hne]
      have hcons : Packet.changed (down s) buttons (i :: is) = i :: Packet.changed (down s) buttons is :=
        List.filter_cons_of_pos (by simpa using hc)
      rw [hrest, hcons]
      rfl

/-- **`handle_packet`** enqueues the events of the packet and writes the buttons that it changes. -/
theorem handlePacket_eq (p : Packet) (h : ¬ p.Overflow) :
    handlePacket jiffies p.byte0 p.byte1 p.byte2 p.byte3 s =
      { s with
        mouseEvents := (p.events jiffies (down s)).foldl CircularBuffer.add s.mouseEvents
        keyPresses := (Packet.changed (down s) p.buttons (List.range p.buttonMax)).foldl (press p.buttons)
          s.keyPresses } := by
  have hcode : handlePacket jiffies p.byte0 p.byte1 p.byte2 p.byte3 s = if p.Overflow then s else
      (((List.range p.buttonMax).foldl (button jiffies p.buttons)
        (scroll jiffies p.byte3 (s.addMouse (sncEvent jiffies)))).addMouse
          (mouseMoveToEvent jiffies (relative p.byte1 p.byte0 4) relX)).addMouse
          (mouseMoveToEvent jiffies (relative p.byte2 p.byte0 3) relY) := rfl
  rw [hcode, if_neg h, scroll_eq, foldl_button jiffies _ List.nodup_range]
  have hdown : ∀ b, down { s with mouseEvents := b } = down s := fun _ => rfl
  simp only [PS2.addMouse, hdown, Packet.events, List.foldl_append, List.foldl_cons, List.foldl_nil]

theorem handlePacket_of_overflow (p : Packet) (h : p.Overflow) :
    handlePacket jiffies p.byte0 p.byte1 p.byte2 p.byte3 s = s := if_pos h

theorem down_foldl_press (buttons : ℕ → Bool) (is : List ℕ) (keys : Keys) (j : ℕ) :
    isPressed (is.foldl (press buttons) keys) (btnLeft + j) =
      if j ∈ is then buttons j else isPressed keys (btnLeft + j) := by
  induction is generalizing keys with
  | nil => rfl
  | cons i is ih =>
    rw [List.foldl_cons, ih, isPressed_press]
    by_cases hj : j ∈ is
    · rw [if_pos hj, if_pos (List.mem_cons_of_mem i hj)]
    · by_cases hi : j = i
      · subst hi
        simp [hj]
      · simp [hj, hi]

theorem foldl_press_of_notMem (buttons : ℕ → Bool) (keys : Keys) (hk : k ∉ is.map (btnLeft + ·)) :
    is.foldl (press buttons) keys k = keys k := by
  induction is generalizing keys with
  | nil => rfl
  | cons i is ih =>
    rw [List.map_cons, List.mem_cons, not_or] at hk
    rw [List.foldl_cons, ih _ hk.2, press, update_of_ne hk.1]

theorem down_handlePacket (p : Packet) (h : ¬ p.Overflow) :
    down (handlePacket jiffies p.byte0 p.byte1 p.byte2 p.byte3 s) = p.after (down s) := by
  funext j
  rw [handlePacket_eq jiffies p h]
  unfold down
  dsimp only
  rw [down_foldl_press]
  unfold Packet.changed Packet.after
  by_cases hj : j < p.buttonMax <;> by_cases hc : isPressed s.keyPresses (btnLeft + j) = p.buttons j <;>
    simp [hj, hc]

end Handle

/-! ### One byte -/

namespace Op

/-- The events that an operation adds to `key_events`. -/
def keyEvents (s : PS2) : Op → List InputEvent
  | byte jiffies false data =>
    if data = 0xE0#8 then []
    else (code s.e0Last data).elim [] fun c => [sncEvent jiffies, keyEvent s.keyPresses jiffies c]
  | _ => []

/-- The events that an operation adds to `mouse_events`. -/
def mouseEvents (s : PS2) (op : Op) : List InputEvent :=
  (op.completed s).elim [] fun q => if q.2.Overflow then [] else q.2.events q.1 (down s)

/-- The events that an operation adds to the buffer of a device. -/
def added (s : PS2) (op : Op) : Bool → List InputEvent
  | true => op.mouseEvents s
  | false => op.keyEvents s

/-- The system call that removes an event from it. -/
def read : Bool → Op
  | true => readMouse
  | false => readKey

/-- The indices at which an operation writes `key_presses`. -/
def written (s : PS2) (op : Op) : List ℕ :=
  match op with
  | byte _ false data => if data = 0xE0#8 then [] else (code s.e0Last data).toList.map Prod.fst
  | op => (op.completed s).elim [] fun q =>
    if q.2.Overflow then []
    else (Packet.changed (down s) q.2.buttons (List.range q.2.buttonMax)).map (btnLeft + ·)

end Op

theorem Packet.lt_of_mem_changed {down buttons : ℕ → Bool} {i : ℕ}
    (h : i ∈ changed down buttons (List.range p.buttonMax)) : i < 5 := by
  have hlt := List.mem_range.mp (List.mem_filter.mp h).1
  unfold buttonMax at hlt
  split_ifs at hlt <;> omega

theorem Op.mem_written_mouse {jiffies : Word} {data : BitVec 8}
    (h : k ∈ (Op.byte jiffies true data).written s) : ∃ i < 5, k = btnLeft + i := by
  rw [written] at h
  · cases hq : (Op.byte jiffies true data).completed s with
    | none => simp [hq] at h
    | some q =>
      rw [hq, Option.elim_some] at h
      split_ifs at h
      · simp at h
      · obtain ⟨i, hi, rfl⟩ := List.mem_map.mp h
        exact ⟨i, Packet.lt_of_mem_changed hi, rfl⟩
  · simp

theorem Op.written_lt {op : Op} (h : k ∈ op.written s) : k < 126 := by
  cases op with
  | readKey => simp [written, completed] at h
  | readMouse => simp [written, completed] at h
  | byte jiffies isMouse data =>
    cases isMouse with
    | true =>
      obtain ⟨i, hi, rfl⟩ := mem_written_mouse h
      unfold btnLeft
      omega
    | false =>
      rw [written] at h
      split_ifs at h
      · simp at h
      · obtain ⟨c, hc, rfl⟩ := List.mem_map.mp h
        have := (code_range (Option.mem_toList.mp hc)).2
        omega

/-- A byte of the mouse is stored. -/
def framed (s : PS2) (data : BitVec 8) : PS2 :=
  { s with
    packet := update s.packet s.curPacketIndex data
    curPacketIndex := if s.curPacketIndex = 0 ∧
      (data >>> 3) &&& 1#8 ≠ 1#8 then 0 else (s.curPacketIndex + 1) % 4 }

section Byte

variable {s : PS2} (jiffies : Word) (data : BitVec 8)

/-- **A byte of the mouse** is stored, and the packet that it completes is handled. -/
theorem interruptHandler_mouse (h : s.curPacketIndex < 4) :
    interruptHandler jiffies true data s = ((Op.byte jiffies true data).completed s).elim
      (framed s data) fun q =>
      handlePacket q.1 q.2.byte0 q.2.byte1 q.2.byte2 q.2.byte3 (framed s data) := by
  unfold interruptHandler Op.completed framed
  rw [if_neg (by decide)]
  dsimp only
  by_cases h0 : s.curPacketIndex = 0
  · simp only [h0, update_self, true_and, Nat.zero_add]
    split_ifs <;> simp_all
  · by_cases h3 : s.curPacketIndex = 3
    · simp [h3]
    · have hne : (s.curPacketIndex + 1) % 4 ≠ 0 := by omega
      simp [h0, h3, hne]

/-- What an operation leaves alone, and what it does to the buffers and to the buttons. -/
structure Frame (op : Op) (s s' : PS2) : Prop where
  index : s'.curPacketIndex < 4
  events : ∀ m, op ≠ .read m → s'.events m = (op.added s m).foldl CircularBuffer.add (s.events m)
  keyPresses : ∀ k ∉ op.written s, s'.keyPresses k = s.keyPresses k
  buttons : down s' = (op.completed s).elim (down s) fun q => if q.2.Overflow then down s
      else q.2.after (down s)

theorem interruptHandler_mouse_frame (h : s.curPacketIndex < 4) :
    Frame (.byte jiffies true data) s (interruptHandler jiffies true data s) ∧
      (interruptHandler jiffies true data s).e0Last = s.e0Last := by
  have hframed : (framed s data).curPacketIndex < 4 := by
    unfold framed
    dsimp only
    split_ifs <;> omega
  rw [interruptHandler_mouse jiffies data h]
  cases hq : (Op.byte jiffies true data).completed s with
  | none =>
    refine ⟨⟨hframed, fun m _ => ?_, fun k _ => rfl, ?_⟩, rfl⟩
    · cases m with
      | false => rfl
      | true =>
        rw [Op.added, Op.mouseEvents, hq]
        rfl
    · rw [hq]
      rfl
  | some q =>
    rw [Option.elim_some]
    by_cases ho : q.2.Overflow
    · rw [handlePacket_of_overflow _ _ ho]
      refine ⟨⟨hframed, fun m _ => ?_, fun k _ => rfl, ?_⟩, rfl⟩
      · cases m with
        | false => rfl
        | true =>
          rw [Op.added, Op.mouseEvents, hq, Option.elim_some, if_pos ho]
          rfl
      · rw [hq, Option.elim_some, if_pos ho]
        rfl
    · refine ⟨⟨?_, fun m _ => ?_, fun k hk => ?_, ?_⟩, ?_⟩
      · rw [handlePacket_eq _ _ ho]
        exact hframed
      · rw [handlePacket_eq _ _ ho]
        cases m with
        | false => rfl
        | true =>
          rw [Op.added, Op.mouseEvents, hq, Option.elim_some, if_neg ho]
          rfl
      · rw [handlePacket_eq _ _ ho]
        refine foldl_press_of_notMem _ _ ?_
        rw [Op.written, hq, Option.elim_some, if_neg ho] at hk
        · exact hk
        · simp
      · rw [down_handlePacket _ _ ho, hq, Option.elim_some, if_neg ho]
        rfl
      · rw [handlePacket_eq _ _ ho]
        rfl

/-- **A byte of the keyboard** is a prefix, a code, or nothing. -/
theorem interruptHandler_key :
    interruptHandler jiffies false data s = if data = 0xE0#8 then { s with e0Last := true } else
      (code s.e0Last data).elim { s with e0Last := false } fun c =>
        { s with
          e0Last := false
          keyPresses := update s.keyPresses c.1 ((keyEvent s.keyPresses jiffies c).code.setWidth 8)
          keyEvents := (s.keyEvents.add (sncEvent jiffies)).add (keyEvent s.keyPresses jiffies c) } := by
  unfold interruptHandler
  rw [if_pos rfl]
  refine if_congr Iff.rfl rfl ?_
  cases hc : code s.e0Last data with
  | none => rw [writeKeyEvent_none hc, Option.elim_none]
  | some c => rw [writeKeyEvent_some hc, Option.elim_some]

theorem interruptHandler_key_frame (h : s.curPacketIndex < 4) :
    Frame (.byte jiffies false data) s (interruptHandler jiffies false data s) := by
  rw [interruptHandler_key]
  by_cases hd : data = 0xE0#8
  · rw [if_pos hd]
    refine ⟨h, fun m _ => ?_, fun k _ => rfl, rfl⟩
    cases m <;> simp [Op.added, Op.keyEvents, hd] <;> rfl
  rw [if_neg hd]
  cases hc : code s.e0Last data with
  | none =>
    refine ⟨h, fun m _ => ?_, fun k _ => rfl, rfl⟩
    cases m <;> simp [Op.added, Op.keyEvents, hd, hc] <;> rfl
  | some c =>
    refine ⟨h, fun m _ => ?_, fun k hk => ?_, ?_⟩
    · cases m <;> simp [Op.added, Op.keyEvents, hd, hc] <;> rfl
    · have hne : k ≠ c.1 := by
        simpa [Op.written, hd, hc] using hk
      exact update_of_ne hne _ _
    · funext i
      have hrange := (code_range hc).2
      refine isPressed_update_of_ne ?_ _
      unfold btnLeft
      omega

/-- **The frame of an operation.** -/
theorem Op.exec_frame (h : s.curPacketIndex < 4) (op : Op) : Frame op s (op.exec s) := by
  cases op with
  | readKey =>
    refine ⟨h, fun m hm => ?_, fun k _ => rfl, rfl⟩
    cases m with
    | true => rfl
    | false => exact absurd rfl hm
  | readMouse =>
    refine ⟨h, fun m hm => ?_, fun k _ => rfl, rfl⟩
    cases m with
    | true => exact absurd rfl hm
    | false => rfl
  | byte jiffies isMouse data =>
    cases isMouse with
    | false => exact interruptHandler_key_frame jiffies data h
    | true => exact (interruptHandler_mouse_frame jiffies data h).1

end Byte

/-! ### What a run adds and removes -/

namespace CircularBuffer

variable {α : Type} {b : CircularBuffer α}

theorem foldl_add_of_full (h : b.Full) (events : List α) : events.foldl add b = b :=
  List.foldl_fixed' (fun el => add_of_full h el) events

theorem contents_foldl_add (h : b.Ok) (events : List α) (hroom : ¬ (events.foldl add b).Full) :
    (events.foldl add b).Ok ∧ (events.foldl add b).contents = b.contents ++ events := by
  induction events generalizing b with
  | nil => exact ⟨h, (List.append_nil _).symm⟩
  | cons el events ih =>
    have hfull : ¬ b.Full := fun hc => hroom (by rwa [foldl_add_of_full hc])
    obtain ⟨hok, hcontents⟩ := ih (h.add el) hroom
    rw [List.foldl_cons]
    refine ⟨hok, ?_⟩
    rw [hcontents, contents_add_of_not_full h hfull, List.append_assoc, List.singleton_append]

/-- The element that `remove` returns, if there is one. -/
def removed (zero : α) (b : CircularBuffer α) : List α :=
  if b.head = b.tail then [] else [(b.remove zero).1]

theorem removed_contents (h : b.Ok) (zero : α) :
    b.removed zero ++ (b.remove zero).2.contents = b.contents := by
  cases hc : b.contents with
  | nil => rw [removed, if_pos ((contents_eq_nil_iff h).mp hc), remove_nil h zero hc, hc, List.append_nil]
  | cons x xs =>
    obtain ⟨h1, h2⟩ := remove_eq h zero hc
    have hne : b.head ≠ b.tail := fun he => by
      rw [(contents_eq_nil_iff h).mpr he] at hc
      cases hc
    rw [removed, if_neg hne, h1, h2, List.singleton_append]

end CircularBuffer

/-- The event that a program removes from the buffer of a device. -/
def Op.removed (m : Bool) (s : PS2) (op : Op) : List InputEvent :=
  if op = .read m then (s.events m).removed .zero else []

/-- The events that programs remove in a run. -/
def taken (m : Bool) (s : PS2) : List Op → List InputEvent
  | [] => []
  | op :: ops => op.removed m s ++ taken m (op.exec s) ops

/-- The events that a run adds. -/
def added (m : Bool) (s : PS2) : List Op → List InputEvent
  | [] => []
  | op :: ops => op.added s m ++ added m (op.exec s) ops

section Contents

variable {s : PS2} {m : Bool}

theorem exec_read_events (m : Bool) (s : PS2) :
    ((Op.read m).exec s).events m = ((s.events m).remove .zero).2 := by
  cases m <;> rfl

/-- **What one operation adds and removes**, if there is room in the end. -/
theorem exec_contents (hindex : s.curPacketIndex < 4) (h : (s.events m).Ok) (op : Op)
    (hroom : ¬ ((op.exec s).events m).Full) :
    ((op.exec s).events m).Ok ∧
      op.removed m s ++ ((op.exec s).events m).contents = (s.events m).contents ++ op.added s m := by
  by_cases hop : op = .read m
  · have hnone : (Op.read m).added s m = [] := by cases m <;> rfl
    rw [Op.removed, if_pos hop, hop, exec_read_events, CircularBuffer.removed_contents h, hnone,
      List.append_nil]
    exact ⟨h.remove .zero, rfl⟩
  · rw [Op.removed, if_neg hop, List.nil_append]
    rw [(op.exec_frame hindex).events m hop] at hroom ⊢
    exact CircularBuffer.contents_foldl_add h _ hroom

/-- **What a run adds is removed or still there**, if there is always room. -/
theorem run_contents (ops : List Op) (hindex : s.curPacketIndex < 4) (h : (s.events m).Ok)
    (hroom : ∀ pre, pre <+: ops → ¬ ((run s pre).events m).Full) :
    taken m s ops ++ ((run s ops).events m).contents = (s.events m).contents ++ added m s ops := by
  induction ops generalizing s with
  | nil => exact (List.append_nil _).symm
  | cons op ops ih =>
    obtain ⟨hok, hcontents⟩ := exec_contents hindex h op (hroom [op] (List.prefix_append [op] ops))
    have ih' := ih (op.exec_frame hindex).index hok fun pre hpre =>
      hroom (op :: pre) (List.cons_prefix_cons.mpr ⟨rfl, hpre⟩)
    rw [show run s (op :: ops) = run (op.exec s) ops from rfl, taken, List.append_assoc, ih',
      ← List.append_assoc, hcontents, List.append_assoc, added]

end Contents

end GheithOS.Input
