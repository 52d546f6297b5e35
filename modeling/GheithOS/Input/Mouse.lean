import Mathlib.Algebra.BigOperators.Group.List.Basic
import Mathlib.Data.List.Induction
import GheithOS.Input.Runs

/-!
# GheithOS.Input.Mouse — streams of mouse packets

A well-formed stream is cut into its packets, whatever the keyboard sends in between (`handled_eq`).
The events of the packets follow from the packets and the buttons in front of each (`eventsOf`);
they are what a program finds in the buffer, as long as the buffer is never full.  `mouse_stream`
puts this together.
-/

namespace GheithOS.Input

/-! ### What a run enqueues -/

/-- The events of packets, one after the other. -/
def eventsOf (down : ℕ → Bool) : List (Word × Packet) → List InputEvent
  | [] => []
  | q :: qs => q.2.events q.1 down ++ eventsOf (q.2.after down) qs

section Runs

variable {s : PS2}

/-- **What a run enqueues**: the events of the packets that it handles. -/
theorem added_eq (ops : List Op) (hindex : s.curPacketIndex < 4)
    (hclean : ∀ q ∈ handled s ops, ¬ q.2.Overflow) :
    added true s ops = eventsOf (down s) (handled s ops) ∧
      down (run s ops) = ((handled s ops).map Prod.snd).foldl Packet.after (down s) := by
  induction ops generalizing s with
  | nil => exact ⟨rfl, rfl⟩
  | cons op ops ih =>
    have hframe := op.exec_frame hindex
    obtain ⟨ih1, ih2⟩ := ih hframe.index fun q hq => hclean q (List.mem_append_right _ hq)
    rw [show run s (op :: ops) = run (op.exec s) ops from rfl, added, ih1, ih2, hframe.buttons,
      handled, Op.added, Op.mouseEvents]
    cases hq : op.completed s with
    | none => exact ⟨rfl, rfl⟩
    | some q =>
      have hover : ¬ q.2.Overflow :=
        hclean q (List.mem_append_left _ (by rw [hq]; exact List.mem_singleton_self q))
      simp only [Option.elim_some, if_neg hover, Option.toList_some, List.singleton_append,
        List.map_cons, List.foldl_cons, eventsOf, and_self]

end Runs

/-! ### Framing -/

/-- A packet as the mouse sends it: bit 3 of the first byte is set, and there is no overflow. -/
structure Packet.WellFormed (p : Packet) : Prop where
  bit3 : p.byte0.getLsbD 3 = true
  bit6 : p.byte0.getLsbD 6 = false
  bit7 : p.byte0.getLsbD 7 = false

theorem shift_and_one (b : BitVec 8) (i : ℕ) : (b >>> i) &&& 1#8 = 1#8 ↔ b.getLsbD i = true := by
  rw [BitVec.and_one_eq_setWidth_ofBool_getLsbD, BitVec.getLsbD_ushiftRight, Nat.add_zero]
  cases b.getLsbD i <;> simp

theorem Packet.WellFormed.not_overflow {p : Packet} (h : p.WellFormed) : ¬ p.Overflow := by
  unfold Packet.Overflow
  rw [shift_and_one, shift_and_one, h.bit6, h.bit7]
  decide

section Framing

variable {s : PS2}

/-- The bytes of a packet that have arrived. -/
structure Partial (s : PS2) (pre : List (BitVec 8)) : Prop where
  index : s.curPacketIndex = pre.length
  short : pre.length < 4
  stored : ∀ i < pre.length, pre[i]? = some (s.packet i)

theorem exec_packet {op : Op} (hop : op.data true = none) :
    (op.exec s).packet = s.packet ∧ (op.exec s).curPacketIndex = s.curPacketIndex ∧
    op.completed s = none := by
  cases op with
  | readKey => exact ⟨rfl, rfl, rfl⟩
  | readMouse => exact ⟨rfl, rfl, rfl⟩
  | byte jiffies isMouse data =>
    cases isMouse with
    | true => simp [Op.data] at hop
    | false =>
      rw [Op.exec, interruptHandler_key]
      split_ifs
      · exact ⟨rfl, rfl, rfl⟩
      · cases code s.e0Last data <;> exact ⟨rfl, rfl, rfl⟩

variable {pre : List (BitVec 8)}

theorem Partial.push (h : Partial s pre) (jiffies : Word) {data : BitVec 8}
    (hshort : pre.length < 3) (hfirst : pre = [] → data.getLsbD 3 = true) :
    (Op.byte jiffies true data).completed s = none ∧
      Partial ((Op.byte jiffies true data).exec s) (pre ++ [data]) := by
  have hnone : (Op.byte jiffies true data).completed s = none := by
    rw [Op.completed, if_neg]
    rw [h.index]
    omega
  refine ⟨hnone, ?_⟩
  have hindex : s.curPacketIndex < 4 := by
    rw [h.index]
    exact h.short
  have hnext : ¬ (s.curPacketIndex = 0 ∧ (data >>> 3) &&& 1#8 ≠ 1#8) := by
    rintro ⟨h0, hbit⟩
    rw [h.index] at h0
    exact hbit ((shift_and_one data 3).mpr (hfirst (List.length_eq_zero_iff.mp h0)))
  rw [Op.exec, interruptHandler_mouse jiffies data hindex, hnone, Option.elim_none]
  refine ⟨?_, by simp; omega, fun i hi => ?_⟩
  · unfold framed
    dsimp only
    rw [if_neg hnext, h.index, List.length_append, List.length_singleton, Nat.mod_eq_of_lt (by omega)]
  · unfold framed
    dsimp only
    rw [List.length_append, List.length_singleton] at hi
    by_cases hlast : i = pre.length
    · rw [hlast, h.index, Function.update_self, List.getElem?_append_right le_rfl, Nat.sub_self]
      rfl
    · rw [h.index, Function.update_of_ne hlast, List.getElem?_append_left (by omega)]
      exact h.stored i (by omega)

theorem Partial.complete {b0 b1 b2 : BitVec 8} (h : Partial s [b0, b1, b2]) (jiffies : Word)
    (data : BitVec 8) :
    (Op.byte jiffies true data).completed s = some (jiffies, ⟨b0, b1, b2, data⟩) ∧
      Partial ((Op.byte jiffies true data).exec s) [] := by
  have hindex : s.curPacketIndex = 3 := h.index
  have h0 : b0 = s.packet 0 := Option.some.inj (h.stored 0 (by simp))
  have h1 : b1 = s.packet 1 := Option.some.inj (h.stored 1 (by simp))
  have h2 : b2 = s.packet 2 := Option.some.inj (h.stored 2 (by simp))
  have hsome : (Op.byte jiffies true data).completed s = some (jiffies, ⟨b0, b1, b2, data⟩) := by
    rw [Op.completed, if_pos hindex, h0, h1, h2]
  refine ⟨hsome, ?_, by decide, by simp⟩
  have hframed : (framed s data).curPacketIndex = 0 := by
    unfold framed
    dsimp only
    rw [hindex]
    rfl
  rw [Op.exec, interruptHandler_mouse jiffies data (by omega), hsome, Option.elim_some]
  by_cases ho : (⟨b0, b1, b2, data⟩ : Packet).Overflow
  · rw [handlePacket_of_overflow _ _ ho]
    exact hframed
  · rw [handlePacket_eq _ _ ho]
    exact hframed

/-- **The stream is cut into its packets.** -/
theorem handled_eq (ops : List Op) {packets : List Packet} (h : Partial s pre)
    (hp : ∀ p ∈ packets, p.WellFormed)
    (hbytes : pre ++ bytes true ops = packets.flatMap Packet.bytes) :
    (handled s ops).map Prod.snd = packets := by
  induction ops generalizing s pre packets with
  | nil =>
    cases packets with
    | nil => rfl
    | cons p ps =>
      have hlen := congrArg List.length hbytes
      have := h.short
      simp [bytes, Packet.bytes] at hlen
      omega
  | cons op ops ih =>
    cases hop : op.data true with
    | none =>
      obtain ⟨h1, h2, h3⟩ := exec_packet (s := s) hop
      rw [handled, h3]
      refine ih ⟨h2.trans h.index, h.short, fun i hi => ?_⟩ hp ?_
      · rw [h1]
        exact h.stored i hi
      · rwa [bytes, List.filterMap_cons_none hop] at hbytes
    | some data =>
      obtain ⟨jiffies, rfl⟩ : ∃ jiffies, op = .byte jiffies true data := by
        cases op with
        | byte jiffies isMouse d =>
          cases isMouse <;> simp [Op.data] at hop
          exact ⟨jiffies, by rw [hop]⟩
        | _ => simp [Op.data] at hop
      rw [bytes, List.filterMap_cons_some hop, ← bytes] at hbytes
      cases packets with
      | nil => simp at hbytes
      | cons p ps =>
        have hlt := h.short
        rw [List.flatMap_cons] at hbytes
        by_cases hshort : pre.length < 3
        · have hfirst : pre = [] → data.getLsbD 3 = true := by
            rintro rfl
            have hdata : data = p.byte0 := by injection hbytes
            rw [hdata]
            exact (hp p List.mem_cons_self).bit3
          obtain ⟨hnone, hnext⟩ := h.push jiffies hshort hfirst
          rw [handled, hnone]
          refine ih hnext hp ?_
          rw [List.flatMap_cons, ← hbytes, List.append_assoc, List.singleton_append]
        · -- the three bytes that have arrived and this one are the first packet
          obtain ⟨b0, b1, b2, rfl⟩ := List.length_eq_three.mp (show pre.length = 3 by omega)
          obtain ⟨hsome, hnext⟩ := h.complete jiffies data
          simp only [Packet.bytes, List.cons_append, List.nil_append, List.cons.injEq] at hbytes
          obtain ⟨rfl, rfl, rfl, rfl, hrest⟩ := hbytes
          rw [handled, hsome, Option.toList_some, List.singleton_append, List.map_cons,
            ih hnext (fun q hq => hp q (List.mem_cons_of_mem p hq)) hrest]

end Framing

/-! ### The events of packets -/

/-- An event for an axis. -/
def isMove (axis : BitVec 8) (event : InputEvent) : Bool :=
  event.type = BitVec.ofNat 2 evRel ∧ event.code = axis.setWidth 5

/-- Presses and releases take turns; the state is that in front of them. -/
def Alternate : Bool → List (BitVec 5) → Prop
  | _, [] => True
  | isDown, c :: cs => c = (if isDown then keyRelease else keyPress) ∧ Alternate (!isDown) cs

namespace Packet

/-- The horizontal displacement, of 9 bits. -/
def moveX (p : Packet) : BitVec 9 := BitVec.cons (p.byte0.getLsbD 4) p.byte1

/-- The vertical displacement, of 9 bits. -/
def moveY (p : Packet) : BitVec 9 := BitVec.cons (p.byte0.getLsbD 5) p.byte2

end Packet

variable {i : ℕ}

section Events

variable (jiffies : Word) (p : Packet) (down : ℕ → Bool)

theorem relative_eq (byte byte0 : BitVec 8) {bit : ℕ} (h : bit < 8) :
    relative byte byte0 (8 - bit) = if byte0.getLsbD bit then byte.setWidth 16 - 0x100#16
      else byte.setWidth 16 := by
  have hbit : (byte0.setWidth 16 <<< (8 - bit)) &&& 0x100#16 = if byte0.getLsbD bit then 0x100#16
      else 0#16 := by
    rw [show (0x100#16) = BitVec.twoPow 16 8 from rfl, BitVec.and_twoPow, BitVec.getLsbD_shiftLeft]
    have hb : (byte0.setWidth 16).getLsbD (8 - (8 - bit)) = byte0.getLsbD bit := by
      rw [show 8 - (8 - bit) = bit by omega, BitVec.getLsbD_setWidth, decide_eq_true (by omega),
        Bool.true_and]
    rw [hb, decide_eq_true (by omega), decide_eq_false (by omega), Bool.true_and, Bool.not_false,
      Bool.true_and]
  unfold relative
  rw [hbit]
  split_ifs
  · rfl
  · rw [BitVec.sub_zero]

theorem value_move (byte : BitVec 8) (sign : Bool) (axis : BitVec 8) :
    (mouseMoveToEvent jiffies (if sign then byte.setWidth 16 - 0x100#16 else byte.setWidth 16) axis).value =
      BitVec.cons sign byte := by
  unfold mouseMoveToEvent
  dsimp only
  revert byte sign
  decide

theorem events_move : (((p.events jiffies down).filter (isMove relX)).map InputEvent.value = [p.moveX]) ∧
    (((p.events jiffies down).filter (isMove relY)).map InputEvent.value = [p.moveY]) := by
  have hwheel : ∀ axis, axis = relX ∨ axis = relY → (p.wheel jiffies).filter (isMove axis) = [] := by
    intro axis haxis
    refine List.filter_eq_nil_iff.mpr fun event hmem hmove => ?_
    obtain ⟨movement, axis', rfl, haxis'⟩ := Packet.mem_wheel hmem
    have hcode := (of_decide_eq_true hmove).2
    revert hcode
    obtain rfl | rfl := haxis <;> obtain rfl | rfl := haxis' <;>
        simp [mouseMoveToEvent, relX, relY, relHwheel, relWheel]
  have hbuttons : ∀ axis is, (Packet.buttonEvents jiffies p.buttons is).filter (isMove axis) = [] := by
    intro axis is
    refine List.filter_eq_nil_iff.mpr fun event hmem hmove => ?_
    obtain ⟨i, -, rfl⟩ := List.mem_map.mp hmem
    have htype := (of_decide_eq_true hmove).1
    simp [mouseButtonsToEvent, evKey, evRel] at htype
  have hx := value_move jiffies p.byte1 (p.byte0.getLsbD 4) relX
  have hy := value_move jiffies p.byte2 (p.byte0.getLsbD 5) relY
  rw [← relative_eq p.byte1 p.byte0 (by decide)] at hx
  rw [← relative_eq p.byte2 p.byte0 (by decide)] at hy
  constructor
  · rw [Packet.events, List.filter_append, List.filter_append, List.filter_append,
      hwheel _ (.inl rfl), hbuttons]
    simp [isMove, sncEvent, mouseMoveToEvent, evSyn, evRel, relX, relY]
    exact hx
  · rw [Packet.events, List.filter_append, List.filter_append, List.filter_append,
      hwheel _ (.inr rfl), hbuttons]
    simp [isMove, sncEvent, mouseMoveToEvent, evSyn, evRel, relX, relY]
    exact hy

theorem isKey_button {k : ℕ} (hi : i < 5) (hk : k < 5) (press : Bool) :
    isKey (btnLeft + i) (mouseButtonsToEvent jiffies (BitVec.ofNat 8 k) press) = decide (k = i) := by
  refine decide_eq_decide.mpr ⟨fun h => ?_, fun h => ⟨rfl, ?_⟩⟩
  · have hnat := congrArg BitVec.toNat h.2
    simp only [mouseButtonsToEvent, BitVec.toNat_ofNat, btnLeft] at hnat
    omega
  · subst h
    simp only [mouseButtonsToEvent, BitVec.toNat_ofNat, Nat.mod_eq_of_lt (show k < 2 ^ 8 by omega),
      Nat.add_comm]

theorem buttonEvents_filter (buttons : ℕ → Bool) {is : List ℕ} (hnd : is.Nodup)
    (his : ∀ k ∈ is, k < 5) (hi : i < 5) :
    (Packet.buttonEvents jiffies buttons is).filter (isKey (btnLeft + i)) =
      if i ∈ is then [mouseButtonsToEvent jiffies (BitVec.ofNat 8 i) (buttons i)] else [] := by
  induction is with
  | nil => rfl
  | cons k is ih =>
    obtain ⟨hk, hnd⟩ := List.nodup_cons.mp hnd
    have ih := ih hnd fun j hj => his j (List.mem_cons_of_mem k hj)
    have hkey := isKey_button jiffies hi (his k List.mem_cons_self) (buttons k)
    rw [Packet.buttonEvents, List.map_cons, ← Packet.buttonEvents]
    by_cases hki : k = i
    · subst hki
      rw [List.filter_cons_of_pos (by simpa using hkey), ih, if_neg hk, if_pos List.mem_cons_self]
    · rw [List.filter_cons_of_neg (by simpa [hki] using hkey), ih]
      exact if_congr (by simp [Ne.symm hki]) rfl rfl

theorem events_button (hi : i < 5) :
    ((p.events jiffies down).filter (isKey (btnLeft + i))).map InputEvent.code =
    if down i = p.after down i then [] else [if p.after down i then keyPress else keyRelease] := by
  have hwheel : (p.wheel jiffies).filter (isKey (btnLeft + i)) = [] := by
    refine List.filter_eq_nil_iff.mpr fun event hmem hkey => ?_
    obtain ⟨movement, axis, rfl, -⟩ := Packet.mem_wheel hmem
    have htype := (of_decide_eq_true hkey).1
    simp [mouseMoveToEvent, evRel, evKey] at htype
  have hchanged : i ∈ Packet.changed down p.buttons (List.range p.buttonMax) ↔ down i ≠ p.after down i := by
    unfold Packet.changed Packet.after
    by_cases hlt : i < p.buttonMax <;> simp [hlt]
  have hnd : (Packet.changed down p.buttons (List.range p.buttonMax)).Nodup := List.nodup_range.filter _
  rw [Packet.events, List.filter_append, List.filter_append, List.filter_append, hwheel,
    buttonEvents_filter jiffies p.buttons hnd (fun k hk => Packet.lt_of_mem_changed hk) hi]
  by_cases hc : down i = p.after down i
  · rw [if_neg (by simpa [hchanged] using hc), if_pos hc]
    simp [isKey, sncEvent, mouseMoveToEvent, evSyn, evRel, evKey]
  · have hlt : i < p.buttonMax := by
      by_contra hge
      exact hc (if_neg hge).symm
    rw [if_pos (hchanged.mpr hc), if_neg hc, Packet.after, if_pos hlt]
    simp [isKey, sncEvent, mouseMoveToEvent, mouseButtonsToEvent, evSyn, evRel, evKey]

/-- **The events of a button take turns.** -/
theorem eventsOf_alternate (qs : List (Word × Packet)) (hi : i < 5) :
    Alternate (down i) (((eventsOf down qs).filter (isKey (btnLeft + i))).map InputEvent.code) := by
  induction qs generalizing down with
  | nil => trivial
  | cons q qs ih =>
    have ih := ih (q.2.after down)
    rw [eventsOf, List.filter_append, List.map_append, events_button q.1 q.2 down hi]
    by_cases hc : down i = q.2.after down i
    · rw [if_pos hc, List.nil_append, hc]
      exact ih
    · rw [if_neg hc, List.singleton_append]
      have hnot : q.2.after down i = !down i := by
        cases h1 : q.2.after down i <;> cases h2 : down i <;> simp_all
      rw [hnot] at ih ⊢
      refine ⟨?_, ih⟩
      cases down i <;> rfl

/-- **The movements add up.** -/
theorem eventsOf_move (qs : List (Word × Packet)) :
    (((eventsOf down qs).filter (isMove relX)).map fun event => event.value.toInt).sum =
        (qs.map fun q => q.2.moveX.toInt).sum ∧
      (((eventsOf down qs).filter (isMove relY)).map fun event => event.value.toInt).sum =
        (qs.map fun q => q.2.moveY.toInt).sum := by
  induction qs generalizing down with
  | nil => exact ⟨rfl, rfl⟩
  | cons q qs ih =>
    obtain ⟨ihx, ihy⟩ := ih (q.2.after down)
    obtain ⟨hx, hy⟩ := events_move q.1 q.2 down
    have hsum : ∀ {events : List InputEvent} {v : BitVec 9}, events.map InputEvent.value = [v] →
        (events.map fun event => event.value.toInt).sum = v.toInt := by
      intro events v h
      have hmap : events.map (fun event => event.value.toInt) =
          (events.map InputEvent.value).map BitVec.toInt := by
        rw [List.map_map]
        rfl
      rw [hmap, h, List.map_singleton, List.sum_singleton]
    rw [eventsOf, List.filter_append, List.map_append, List.sum_append, hsum hx, ihx,
      List.filter_append, List.map_append, List.sum_append, hsum hy, ihy, List.map_cons,
        List.sum_cons, List.map_cons, List.sum_cons]
    exact ⟨rfl, rfl⟩

end Events

/-! ### The buttons after a stream -/

theorem and_twoPow_ne_zero (b : BitVec 8) (hi : i < 8) :
    decide (b &&& BitVec.twoPow 8 i ≠ 0) = b.getLsbD i := by
  have hne : BitVec.twoPow 8 i ≠ 0 := by
    interval_cases i <;> decide
  rw [BitVec.and_twoPow]
  cases b.getLsbD i with
  | false => simp
  | true => simpa using hne

theorem Packet.buttonMax_eq (p : Packet) : p.buttonMax = if p.byte3.getLsbD 6 then 3 else 5 := by
  rw [← and_twoPow_ne_zero p.byte3 (show 6 < 8 by decide)]
  exact if_congr decide_eq_true_iff.symm rfl rfl

theorem Packet.buttons_eq (p : Packet) :
    (∀ i < 3, p.buttons i = p.byte0.getLsbD i) ∧ ∀ i < 2, p.buttons (3 + i) = p.byte3.getLsbD (4 + i) := by
  refine ⟨fun i hi => ?_, fun i hi => ?_⟩ <;> interval_cases i
  · exact and_twoPow_ne_zero p.byte0 (show 0 < 8 by decide)
  · exact and_twoPow_ne_zero p.byte0 (show 1 < 8 by decide)
  · exact and_twoPow_ne_zero p.byte0 (show 2 < 8 by decide)
  · exact and_twoPow_ne_zero p.byte3 (show 4 < 8 by decide)
  · exact and_twoPow_ne_zero p.byte3 (show 5 < 8 by decide)

/-- The bit of the last packet, or `false` if there is none. -/
def lastBit (bit : Packet → Bool) (packets : List Packet) : Bool := (packets.getLast?.map bit).getD false

/-- The last packet decides the first three buttons, and the last one without a horizontal scroll
the other two. -/
theorem foldl_after (packets : List Packet) (down : ℕ → Bool) (hup : ∀ i < 5, down i = false) :
    (∀ i < 3, packets.foldl Packet.after down i = lastBit (·.byte0.getLsbD i) packets) ∧
    (∀ i < 2, packets.foldl Packet.after down (3 + i) =
      lastBit (·.byte3.getLsbD (4 + i)) (packets.filter fun p => !p.byte3.getLsbD 6)) := by
  induction packets using List.reverseRecOn with
  | nil => exact ⟨fun i hi => hup i (by omega), fun i hi => hup (3 + i) (by omega)⟩
  | append_singleton packets p ih =>
    rw [List.foldl_append, List.foldl_cons, List.foldl_nil]
    refine ⟨fun i hi => ?_, fun i hi => ?_⟩
    · have hlt : i < p.buttonMax := by
        rw [p.buttonMax_eq]
        split_ifs <;> omega
      rw [Packet.after, if_pos hlt, p.buttons_eq.1 i hi, lastBit, List.getLast?_concat]
      rfl
    · rw [Packet.after, p.buttonMax_eq, List.filter_append]
      cases h6 : p.byte3.getLsbD 6 with
      | true =>
        rw [if_neg (by simp), ih.2 i hi]
        simp [h6]
      | false =>
        have hkeep : [p].filter (fun p => !p.byte3.getLsbD 6) = [p] :=
          List.filter_cons_of_pos (by rw [h6]; rfl)
        rw [if_pos (by simp; omega), p.buttons_eq.2 i hi, hkeep, lastBit, List.getLast?_concat]
        rfl

/-- **A stream of mouse packets.**  From a state between two packets in which all buttons are up,
and with room in the buffer throughout: every packet is handled once with its own bytes; the buttons
are those of the last packets that tell them; and among the events that are enqueued, those of a
button take turns beginning with a press, and the movements add up to those of the packets. -/
theorem mouse_stream {s : PS2} (hindex : s.curPacketIndex = 0) (hok : s.mouseEvents.Ok)
    (hup : ∀ i < 5, isPressed s.keyPresses (btnLeft + i) = false) (ops : List Op) (packets : List Packet)
    (hp : ∀ p ∈ packets, p.WellFormed) (hbytes : bytes true ops = packets.flatMap Packet.bytes)
    (hroom : ∀ pre, pre <+: ops → ¬ (run s pre).mouseEvents.Full) :
    (handled s ops).map Prod.snd = packets ∧
    (∀ i < 3, isPressed (run s ops).keyPresses (btnLeft + i) = lastBit (·.byte0.getLsbD i) packets) ∧
    (∀ i < 2, isPressed (run s ops).keyPresses (btnLeft + (3 + i)) =
      lastBit (·.byte3.getLsbD (4 + i)) (packets.filter fun p => !p.byte3.getLsbD 6)) ∧
    ∃ events, taken true s ops ++ (run s ops).mouseEvents.contents = s.mouseEvents.contents ++ events ∧
      (∀ i < 5, Alternate false ((events.filter (isKey (btnLeft + i))).map InputEvent.code)) ∧
      ((events.filter (isMove relX)).map fun event => event.value.toInt).sum =
        (packets.map fun p => p.moveX.toInt).sum ∧
      ((events.filter (isMove relY)).map fun event => event.value.toInt).sum =
        (packets.map fun p => p.moveY.toInt).sum := by
  have hhandled : (handled s ops).map Prod.snd = packets :=
    handled_eq ops (show Partial s [] from ⟨hindex, by decide, by simp⟩) hp hbytes
  have hclean : ∀ q ∈ handled s ops, ¬ q.2.Overflow := fun q hq => by
    refine (hp q.2 ?_).not_overflow
    rw [← hhandled]
    exact List.mem_map_of_mem hq
  have hcontents := run_contents (m := true) ops (by omega) hok hroom
  obtain ⟨hevents, hdown⟩ := added_eq ops (by omega) hclean
  rw [hevents] at hcontents
  rw [hhandled] at hdown
  obtain ⟨h1, h2⟩ := foldl_after packets (down s) hup
  rw [← hdown] at h1 h2
  refine ⟨hhandled, h1, h2, _, hcontents, fun i hi => ?_, ?_⟩
  · have := eventsOf_alternate (down s) (handled s ops) hi
    rwa [show down s i = false from hup i hi] at this
  · have := eventsOf_move (down s) (handled s ops)
    rw [← hhandled, List.map_map, List.map_map]
    exact this

/-- A packet with the left button down and a movement to the left, and one byte of the keyboard in
its middle. -/
def leftPress : List Op :=
  [.byte 0 true 0x19#8, .byte 0 true 0xFF#8, .byte 0 false 0x1E#8, .byte 0 true 0#8, .byte 0 true 0#8]

theorem mouse_stream_left_press :
    isPressed (run .init leftPress).keyPresses btnLeft = true ∧
      (handled .init leftPress).map Prod.snd = [⟨0x19#8, 0xFF#8, 0#8, 0#8⟩] := by
  have hroom : ∀ pre, pre <+: leftPress → ¬ (run .init pre).mouseEvents.Full := fun pre hpre => by
    have hall : ∀ n < 6, ¬ (run .init (leftPress.take n)).mouseEvents.Full := by decide
    rw [List.prefix_iff_eq_take.mp hpre]
    exact hall _ (Nat.lt_succ_of_le hpre.length_le)
  have hp : ∀ p ∈ [(⟨0x19#8, 0xFF#8, 0#8, 0#8⟩ : Packet)], p.WellFormed := by
    intro p hmem
    obtain rfl := List.mem_singleton.mp hmem
    exact ⟨by decide, by decide, by decide⟩
  obtain ⟨h1, h2, -⟩ :=
    mouse_stream (s := .init) rfl ⟨by decide, by decide⟩ (by decide) leftPress _ hp rfl hroom
  exact ⟨h2 0 (by decide), h1⟩

end GheithOS.Input
