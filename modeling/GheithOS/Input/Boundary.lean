import Mathlib.Tactic.IntervalCases
import GheithOS.Input.Model

/-!
# GheithOS.Input.Boundary — which events survive the system call

`ev_to_int` puts the type of an event into the two top bits, and libc takes a negative result for an
error number.  The types of key events and of synchronisation events leave the top bit clear;
`EV_REL` sets it.
-/

namespace GheithOS.Input

/-! ### The circular buffer is a queue -/

namespace CircularBuffer

variable {α : Type} {b : CircularBuffer α} {el zero x : α} {xs : List α}

/-- The elements from the oldest to the newest. -/
def contents (b : CircularBuffer α) : List α :=
  (List.range ((b.head + b.size - b.tail) % b.size)).map fun j => b.ar ((b.tail + j) % b.size)

/-- There is no room for another element. -/
def Full (b : CircularBuffer α) : Prop := (b.head + 1) % b.size = b.tail

instance decidableFull (b : CircularBuffer α) : Decidable b.Full := inferInstanceAs (Decidable (_ = _))

/-- The indices are indices of the array. -/
structure Ok (b : CircularBuffer α) : Prop where
  head_lt : b.head < b.size
  tail_lt : b.tail < b.size

theorem Ok.ahead (h : b.Ok) :
    b.tail ≤ b.head ∧ (b.head + b.size - b.tail) % b.size = b.head - b.tail ∨
    b.head < b.tail ∧ (b.head + b.size - b.tail) % b.size = b.head + b.size - b.tail := by
  have h1 := h.head_lt
  have h2 := h.tail_lt
  rcases Nat.lt_or_ge b.head b.tail with hlt | hge
  · exact .inr ⟨hlt, Nat.mod_eq_of_lt (by omega)⟩
  · refine .inl ⟨hge, ?_⟩
    rw [show b.head + b.size - b.tail = (b.head - b.tail) + b.size by omega, Nat.add_mod_right]
    exact Nat.mod_eq_of_lt (by omega)

theorem Ok.add (h : b.Ok) (el : α) : (b.add el).Ok := by
  have hpos : 0 < b.size := lt_of_le_of_lt (Nat.zero_le _) h.head_lt
  unfold CircularBuffer.add
  split
  · exact h
  · exact ⟨Nat.mod_lt _ hpos, h.tail_lt⟩

theorem Ok.remove (h : b.Ok) (zero : α) : (b.remove zero).2.Ok := by
  have hpos : 0 < b.size := lt_of_le_of_lt (Nat.zero_le _) h.head_lt
  unfold CircularBuffer.remove
  split
  · exact h
  · exact ⟨h.head_lt, Nat.mod_lt _ hpos⟩

theorem succ_mod {i n : ℕ} (h : i < n) : (i + 1) % n = if i + 1 = n then 0 else i + 1 := by
  split
  · next he => rw [he, Nat.mod_self]
  · exact Nat.mod_eq_of_lt (by omega)

/-- An element is added at the end of a buffer that is not full. -/
theorem contents_add_of_not_full (h : b.Ok) (hfull : ¬ b.Full) (el : α) :
    (b.add el).contents = b.contents ++ [el] := by
  have h1 := h.head_lt
  have h2 := h.tail_lt
  unfold Full at hfull
  unfold CircularBuffer.add
  rw [if_neg hfull]
  rw [succ_mod h1] at hfull
  have hlen : ((b.head + 1) % b.size + b.size - b.tail) % b.size =
      (b.head + b.size - b.tail) % b.size + 1 := by
    rw [succ_mod h1]
    split at hfull <;> split
    · rcases h.ahead with ⟨ha, he⟩ | ⟨ha, he⟩
      · rw [he, Nat.mod_eq_of_lt (by omega)]
        omega
      · omega
    · omega
    · omega
    · rcases h.ahead with ⟨ha, he⟩ | ⟨ha, he⟩
      · rw [he, show b.head + 1 + b.size - b.tail = (b.head + 1 - b.tail) + b.size by omega,
          Nat.add_mod_right, Nat.mod_eq_of_lt (by omega)]
        omega
      · rw [he, Nat.mod_eq_of_lt (by omega)]
        omega
  have hnew : (b.tail + (b.head + b.size - b.tail) % b.size) % b.size = b.head := by
    rcases h.ahead with ⟨ha, he⟩ | ⟨ha, he⟩ <;> rw [he]
    · rw [show b.tail + (b.head - b.tail) = b.head by omega, Nat.mod_eq_of_lt h1]
    · rw [show b.tail + (b.head + b.size - b.tail) = b.head + b.size by omega, Nat.add_mod_right,
        Nat.mod_eq_of_lt h1]
  have hold : ∀ j < (b.head + b.size - b.tail) % b.size, (b.tail + j) % b.size ≠ b.head := by
    intro j hj hc
    rcases h.ahead with ⟨ha, he⟩ | ⟨ha, he⟩ <;> rw [he] at hj
    · rw [Nat.mod_eq_of_lt (by omega)] at hc
      omega
    · rcases Nat.lt_or_ge (b.tail + j) b.size with hlt | hge
      · rw [Nat.mod_eq_of_lt hlt] at hc
        omega
      · rw [show b.tail + j = (b.tail + j - b.size) + b.size by omega, Nat.add_mod_right,
          Nat.mod_eq_of_lt (by omega)] at hc
        omega
  unfold contents
  simp only [hlen, List.range_succ, List.map_append, List.map_cons, List.map_nil, hnew,
    Function.update_self]
  congr 1
  refine List.map_congr_left fun j hj => ?_
  exact Function.update_of_ne (hold j (List.mem_range.mp hj)) _ _

theorem add_of_full (h : b.Full) (el : α) : b.add el = b := if_pos h

theorem contents_add (h : b.Ok) (el : α) :
    (b.add el).contents = b.contents ∨ (b.add el).contents = b.contents ++ [el] := by
  by_cases hfull : b.Full
  · exact .inl (by rw [add_of_full hfull])
  · exact .inr (contents_add_of_not_full h hfull el)

theorem contents_eq_nil_iff (h : b.Ok) : b.contents = [] ↔ b.head = b.tail := by
  have h1 := h.head_lt
  have h2 := h.tail_lt
  unfold contents
  rw [List.map_eq_nil_iff, List.range_eq_nil]
  rcases h.ahead with ⟨ha, he⟩ | ⟨ha, he⟩ <;> rw [he] <;> omega

/-- The oldest element is removed. -/
theorem remove_eq (h : b.Ok) (zero : α) (hc : b.contents = x :: xs) :
    (b.remove zero).1 = x ∧ (b.remove zero).2.contents = xs := by
  have h1 := h.head_lt
  have h2 := h.tail_lt
  have hne : b.head ≠ b.tail := fun he => by
    rw [(contents_eq_nil_iff h).mpr he] at hc
    cases hc
  obtain ⟨k, hk⟩ : ∃ k, (b.head + b.size - b.tail) % b.size = k + 1 := by
    rcases h.ahead with ⟨ha, he⟩ | ⟨ha, he⟩
    · exact ⟨b.head - b.tail - 1, by omega⟩
    · exact ⟨b.head + b.size - b.tail - 1, by omega⟩
  have hlen : (b.head + b.size - (b.tail + 1) % b.size) % b.size = k := by
    rw [succ_mod h2]
    rcases h.ahead with ⟨ha, he⟩ | ⟨ha, he⟩ <;> split
    · omega
    · rw [show b.head + b.size - (b.tail + 1) = (b.head - b.tail - 1) + b.size by omega,
        Nat.add_mod_right, Nat.mod_eq_of_lt (by omega)]
      omega
    · rw [Nat.sub_zero, Nat.add_mod_right, Nat.mod_eq_of_lt h1]
      omega
    · rw [Nat.mod_eq_of_lt (by omega)]
      omega
  unfold contents at hc
  rw [hk, List.range_succ_eq_map, List.map_cons, List.map_map] at hc
  injection hc with hx hxs
  rw [remove, if_neg hne]
  refine ⟨?_, ?_⟩
  · simp only [← hx, Nat.add_zero, Nat.mod_eq_of_lt h2]
  · rw [← hxs]
    simp only [contents, hlen]
    refine List.map_congr_left fun j _ => ?_
    change b.ar (((b.tail + 1) % b.size + j) % b.size) = b.ar ((b.tail + (j + 1)) % b.size)
    rw [Nat.mod_add_mod]
    congr 2
    omega

theorem remove_nil (h : b.Ok) (zero : α) (hc : b.contents = []) : b.remove zero = (zero, b) :=
  if_pos ((contents_eq_nil_iff h).mp hc)

end CircularBuffer

/-! ### Words -/

/-- The encoding loses nothing. -/
theorem intToEv_evToInt (event : InputEvent) : intToEv (evToInt event) = event := by
  obtain ⟨type, code, value, time⟩ := event
  simp only [intToEv, InputEvent.mk.injEq]
  refine ⟨?_, ?_, ?_, ?_⟩ <;> apply BitVec.eq_of_getLsbD_eq <;> intro i hi <;> interval_cases i <;>
    simp [evToInt, BitVec.getElem_signExtend]

theorem evToInt_msb (event : InputEvent) : (evToInt event).msb = event.type.getLsbD 1 := by
  rw [BitVec.msb_eq_getLsbD_last]
  simp [evToInt]

/-- libc passes on what has the top bit clear. -/
theorem setErrno_eq (ret : Word) : setErrno ret = if ret.msb then -1#32 else ret := by
  rw [setErrno, BitVec.msb_eq_toInt]
  simp

/-! ### What the handlers enqueue -/

/-- An event as the handlers build it. -/
inductive Built : InputEvent → Prop
  | key (keys : Keys) (jiffies : Word) (scancode : BitVec 8) (e0Last : Bool) :
    (scanCodeToEvent keys jiffies scancode e0Last).value ≠ 0 →
    Built (scanCodeToEvent keys jiffies scancode e0Last)
  | buttons (jiffies : Word) (buttonNum : BitVec 8) (press : Bool) :
      Built (mouseButtonsToEvent jiffies buttonNum press)
  | move (jiffies : Word) (movement : BitVec 16) (axis : BitVec 8) :
      Built (mouseMoveToEvent jiffies movement axis)
  | snc (jiffies : Word) : Built (sncEvent jiffies)

theorem scanCodeToEvent_type (keys : Keys) (jiffies : Word) (scancode : BitVec 8) (e0Last : Bool) :
    (scanCodeToEvent keys jiffies scancode e0Last).type = 1#2 := by
  unfold scanCodeToEvent
  dsimp only
  split_ifs <;> rfl

variable {event : InputEvent}

/-- The types that are in use, and the code that keeps a synchronisation event from being 0. -/
theorem Built.shape (h : Built event) :
    event.type = 0#2 ∧ event.code = 1#5 ∨ event.type = 1#2 ∨ event.type = 2#2 := by
  cases h with
  | key keys jiffies scancode e0Last _ =>
      exact .inr (.inl (scanCodeToEvent_type keys jiffies scancode e0Last))
  | buttons => exact .inr (.inl rfl)
  | move => exact .inr (.inr rfl)
  | snc => exact .inl ⟨rfl, rfl⟩

/-- **An event survives** unless its type is `EV_REL`. -/
theorem Built.survives_iff (h : Built event) :
    (intToEv (setErrno (evToInt event)) = event ∧ setErrno (evToInt event) ≠ 0) ↔
      event.type ≠ BitVec.ofNat 2 evRel := by
  rw [setErrno_eq, evToInt_msb]
  -- an event that is passed on is not the zero event
  have hnonzero : event.type = 0#2 ∧ event.code = 1#5 ∨ event.type = 1#2 → evToInt event ≠ 0 := by
    intro hs hc
    have hz := congrArg intToEv hc
    rw [intToEv_evToInt] at hz
    rw [hz] at hs
    revert hs
    decide
  rcases h.shape with hs | hs | hs
  · rw [hs.1, if_neg (by decide), intToEv_evToInt]
    exact ⟨fun _ => by decide, fun _ => ⟨rfl, hnonzero (.inl hs)⟩⟩
  · rw [hs, if_neg (by decide), intToEv_evToInt]
    exact ⟨fun _ => by decide, fun _ => ⟨rfl, hnonzero (.inr hs)⟩⟩
  · rw [hs, if_pos (by decide)]
    refine ⟨fun hd => ?_, fun hne => absurd rfl hne⟩
    have ht := congrArg InputEvent.type hd.1
    rw [hs] at ht
    exact absurd ht (by decide)

/-! ### Runs -/

/-- The states that interrupts and reads lead to. -/
inductive Reach : PS2 → Prop
  | init : Reach .init
  | interrupt {s : PS2} (jiffies : Word) (isMouse : Bool) (data : BitVec 8) :
    Reach s → Reach (interruptHandler jiffies isMouse data s)
  | readKey {s : PS2} : Reach s → Reach (readKeyEvent s).2
  | readMouse {s : PS2} : Reach s → Reach (readMouseEvent s).2

/-- A buffer of events that the handlers have built. -/
structure Sent (b : CircularBuffer InputEvent) : Prop extends b.Ok where
  built : ∀ event ∈ b.contents, Built event

variable {b : CircularBuffer InputEvent}

theorem Sent.add (h : Sent b) (he : Built event) : Sent (b.add event) := by
  refine ⟨h.toOk.add event, fun e hmem => ?_⟩
  rcases CircularBuffer.contents_add h.toOk event with hc | hc <;> rw [hc] at hmem
  · exact h.built e hmem
  · rcases List.mem_append.mp hmem with hm | hm
    · exact h.built e hm
    · rw [List.mem_singleton.mp hm]
      exact he

theorem Sent.remove (h : Sent b) : Sent (b.remove .zero).2 := by
  refine ⟨h.toOk.remove .zero, fun e hmem => ?_⟩
  match hc : b.contents with
  | [] =>
    rw [CircularBuffer.remove_nil h.toOk .zero hc, hc] at hmem
    cases hmem
  | x :: xs =>
    rw [(CircularBuffer.remove_eq h.toOk .zero hc).2] at hmem
    refine h.built e ?_
    rw [hc]
    exact List.mem_cons_of_mem x hmem

/-- Both buffers hold events that the handlers have built. -/
structure Inv (s : PS2) : Prop where
  key : Sent s.keyEvents
  mouse : Sent s.mouseEvents

variable {s : PS2}

theorem Inv.addMouse (h : Inv s) (he : Built event) : Inv (s.addMouse event) :=
  ⟨h.key, h.mouse.add he⟩

theorem Inv.writeKeyEvent (h : Inv s) (jiffies : Word) (key : BitVec 8) (lastE0 : Bool) :
    Inv (writeKeyEvent jiffies key lastE0 s) := by
  unfold Input.writeKeyEvent
  dsimp only
  split
  · exact h
  · next hv => exact ⟨(h.key.add (.snc jiffies)).add (.key _ jiffies key lastE0 hv), h.mouse⟩

theorem Inv.button (h : Inv s) (jiffies : Word) (buttons : ℕ → Bool) (i : ℕ) :
    Inv (button jiffies buttons s i) := by
  unfold Input.button
  split
  · exact ⟨h.key, h.mouse.add (.buttons jiffies _ _)⟩
  · exact h

theorem Inv.foldl_button (jiffies : Word) (buttons : ℕ → Bool) :
    ∀ (is : List ℕ) {s : PS2}, Inv s → Inv (is.foldl (Input.button jiffies buttons) s)
  | [], _, h => h
  | i :: is, _, h => Inv.foldl_button jiffies buttons is (h.button jiffies buttons i)

theorem Inv.scroll (h : Inv s) (jiffies : Word) (byte3 : BitVec 8) :
    Inv (scroll jiffies byte3 s) := by
  unfold Input.scroll
  split_ifs
  · exact h.addMouse (.move ..)
  · exact h
  · exact h.addMouse (.move ..)
  · exact h

theorem Inv.handlePacket (h : Inv s) (jiffies : Word) (byte0 byte1 byte2 byte3 : BitVec 8) :
    Inv (handlePacket jiffies byte0 byte1 byte2 byte3 s) := by
  unfold Input.handlePacket
  split
  · exact h
  · have h1 := (h.addMouse (.snc jiffies)).scroll jiffies byte3
    exact ((Inv.foldl_button jiffies _ _ h1).addMouse (.move ..)).addMouse (.move ..)

theorem Inv.interruptHandler (h : Inv s) (jiffies : Word) (isMouse : Bool) (data : BitVec 8) :
    Inv (interruptHandler jiffies isMouse data s) := by
  unfold Input.interruptHandler
  dsimp only
  split_ifs
  · exact ⟨h.key, h.mouse⟩
  · exact Inv.writeKeyEvent (s := { s with e0Last := false }) ⟨h.key, h.mouse⟩ jiffies data s.e0Last
  · exact ⟨h.key, h.mouse⟩
  · apply Inv.handlePacket
    exact ⟨h.key, h.mouse⟩
  · exact ⟨h.key, h.mouse⟩

theorem Reach.inv (h : Reach s) : Inv s := by
  induction h with
  | init => exact ⟨⟨⟨by decide, by decide⟩, by simp [PS2.init, CircularBuffer.contents]⟩,
      ⟨⟨by decide, by decide⟩, by simp [PS2.init, CircularBuffer.contents]⟩⟩
  | interrupt jiffies isMouse data _ ih => exact ih.interruptHandler jiffies isMouse data
  | readKey _ ih => exact ⟨ih.key.remove, ih.mouse⟩
  | readMouse _ ih => exact ⟨ih.key, ih.mouse.remove⟩

/-- **Events at the system-call boundary.**  An event that is dequeued is one the handlers have
built, and the integer that the program gets decodes to it and is not 0 exactly if its type is not
`EV_REL`. -/
theorem events_survive {s : PS2} (h : Reach s) :
    (∀ event rest, s.keyEvents.contents = event :: rest →
      Built event ∧ (readKeyEvent s).2.keyEvents.contents = rest ∧
      ((intToEv (readKeyEvent s).1 = event ∧ (readKeyEvent s).1 ≠ 0) ↔ event.type ≠ BitVec.ofNat 2 evRel)) ∧
    (∀ event rest, s.mouseEvents.contents = event :: rest →
      Built event ∧ (readMouseEvent s).2.mouseEvents.contents = rest ∧
      ((intToEv (readMouseEvent s).1 = event ∧ (readMouseEvent s).1 ≠ 0) ↔
        event.type ≠ BitVec.ofNat 2 evRel)) := by
  have hinv := h.inv
  constructor <;> intro event rest hc
  · have hb := hinv.key.built event (by rw [hc]; exact List.mem_cons_self)
    obtain ⟨h1, h2⟩ := CircularBuffer.remove_eq hinv.key.toOk .zero hc
    refine ⟨hb, h2, ?_⟩
    rw [show (readKeyEvent s).1 = setErrno (evToInt (s.keyEvents.remove .zero).1) from rfl, h1]
    exact hb.survives_iff
  · have hb := hinv.mouse.built event (by rw [hc]; exact List.mem_cons_self)
    obtain ⟨h1, h2⟩ := CircularBuffer.remove_eq hinv.mouse.toOk .zero hc
    refine ⟨hb, h2, ?_⟩
    rw [show (readMouseEvent s).1 = setErrno (evToInt (s.mouseEvents.remove .zero).1) from rfl, h1]
    exact hb.survives_iff

/-- The state after a key is pressed, and after the mouse has moved by one to the right. -/
def keyAndMove : PS2 :=
  interruptHandler 64 true 0#8 (interruptHandler 64 true 0#8 (interruptHandler 64 true 1#8
    (interruptHandler 64 true 8#8 (interruptHandler 64 false 0x1E#8 .init))))

theorem reach_keyAndMove : Reach keyAndMove := by
  unfold keyAndMove
  iterate 5 apply Reach.interrupt
  exact Reach.init

/-- The synchronisation event in front of a key press survives. -/
theorem events_survive_key :
    ∃ event rest, keyAndMove.keyEvents.contents = event :: rest ∧ event.type ≠ BitVec.ofNat 2 evRel ∧
      intToEv (readKeyEvent keyAndMove).1 = event ∧ (readKeyEvent keyAndMove).1 ≠ 0 := by
  have hc : keyAndMove.keyEvents.contents = [⟨0, 1, 0, 1⟩, ⟨1, 1, 30, 1⟩] := by decide
  have h := ((events_survive reach_keyAndMove).1 _ _ hc).2.2.mpr (by decide)
  exact ⟨_, _, hc, by decide, h⟩

/-- **A movement of the mouse is lost**: the second event of the packet is read as -1. -/
theorem movement_is_lost :
    ∃ s event rest, Reach s ∧ s.mouseEvents.contents = event :: rest ∧ event = mouseMoveToEvent 64 1 relX ∧
      (readMouseEvent s).1 = -1#32 ∧ intToEv (readMouseEvent s).1 ≠ event := by
  refine ⟨(readMouseEvent keyAndMove).2, mouseMoveToEvent 64 1 relX, [mouseMoveToEvent 64 0 relY],
    Reach.readMouse reach_keyAndMove, ?_, rfl, ?_, ?_⟩ <;> decide

end GheithOS.Input
