import Mathlib.Data.List.Induction
import GheithOS.Input.Runs

/-!
# GheithOS.Input.Keyboard — the state of the keys

The bytes of the keyboard are read as a sequence of make and break codes (`codes`), whatever they
are and whatever the mouse sends in between.  For each key the state and the events follow from the
codes for it alone (`key_automaton`).

The values of the prefixed keys are their scan codes plus 30, while the constants of `scancodes.h`
are numbered through: only for the left arrow the two agree.  `documented_keys_iff` says for which
streams the documented constants can be used.
-/

namespace GheithOS.Input

/-! ### Streams of codes -/

/-- The make and break codes of a stream of bytes. -/
def codes : Bool → List (BitVec 8) → List (ℕ × Bool)
  | _, [] => []
  | e0Last, data :: rest =>
    if data = 0xE0#8 then codes true rest else (code e0Last data).toList ++ codes false rest

/-- The makes among the codes for a key since its last break. -/
def makesSince (v : ℕ) (cs : List (ℕ × Bool)) : ℕ := ((cs.filter (·.1 = v)).reverse.takeWhile (·.2)).length

/-- The codes of the events for a key: a press for a make of a key that is up, a hold for one of a
key that is down, and a release for each break. -/
def verdicts : Bool → List Bool → List (BitVec 5)
  | _, [] => []
  | isDown, true :: rest => (if isDown then keyHeld else keyPress) :: verdicts true rest
  | _, false :: rest => keyRelease :: verdicts false rest

/-- The events that a run enqueues, or would enqueue if there is no room. -/
def generated (s : PS2) : List Op → List InputEvent
  | [] => []
  | op :: ops => op.keyEvents s ++ op.mouseEvents s ++ generated (op.exec s) ops

/-- The indices at which a run writes `key_presses`. -/
def indices (s : PS2) : List Op → List ℕ
  | [] => []
  | op :: ops => op.written s ++ indices (op.exec s) ops

/-! ### One operation -/

/-- The code that an operation completes. -/
def Op.codes (s : PS2) : Op → List (ℕ × Bool)
  | byte _ false data => if data = 0xE0#8 then [] else (code s.e0Last data).toList
  | _ => []

/-- The number of makes, counted. -/
def tally (v n : ℕ) (c : ℕ × Bool) : ℕ := if c.1 = v then if c.2 then n + 1 else 0 else n

/-- The state of a key after so many makes. -/
def level (n : ℕ) : BitVec 8 := BitVec.ofNat 8 (min 2 n)

theorem isPressed_level {keys : Keys} {v n : ℕ} (h : keys v = level n) :
    isPressed keys v = decide (0 < n) := by
  unfold isPressed
  rw [h, level]
  obtain h0 | h1 | h2 : n = 0 ∨ n = 1 ∨ 2 ≤ n := by omega
  · subst h0
    rfl
  · subst h1
    rfl
  · rw [Nat.min_eq_left h2]
    simp
    omega

section Step

variable {s : PS2} {v n : ℕ}

theorem codes_cons (h : s.curPacketIndex < 4) (op : Op) (ops : List Op) :
    codes s.e0Last (bytes false (op :: ops)) =
      op.codes s ++ codes (op.exec s).e0Last (bytes false ops) := by
  cases op with
  | readKey => rfl
  | readMouse => rfl
  | byte jiffies isMouse data =>
    cases isMouse with
    | false =>
      have hbytes : bytes false (.byte jiffies false data :: ops) = data :: bytes false ops := rfl
      rw [hbytes, codes, Op.exec, interruptHandler_key, Op.codes]
      by_cases hd : data = 0xE0#8
      · rw [if_pos hd, if_pos hd, if_pos hd]
        rfl
      · rw [if_neg hd, if_neg hd, if_neg hd]
        cases code s.e0Last data <;> rfl
    | true =>
      rw [Op.exec, (interruptHandler_mouse_frame jiffies data h).2]
      rfl

/-- **The state of a key** counts its makes. -/
theorem exec_level (h : s.curPacketIndex < 4) (op : Op) (hv : v < btnLeft) (hn : s.keyPresses v = level n) :
    (op.exec s).keyPresses v = level ((op.codes s).foldl (tally v) n) := by
  cases op with
  | readKey => exact hn
  | readMouse => exact hn
  | byte jiffies isMouse data =>
    cases isMouse with
    | true =>
      refine ((interruptHandler_mouse_frame jiffies data h).1.keyPresses v fun hmem => ?_).trans hn
      obtain ⟨i, -, hi⟩ := Op.mem_written_mouse hmem
      omega
    | false =>
      rw [Op.exec, interruptHandler_key, Op.codes]
      by_cases hd : data = 0xE0#8
      · rw [if_pos hd, if_pos hd]
        exact hn
      rw [if_neg hd, if_neg hd]
      cases hc : code s.e0Last data with
      | none => exact hn
      | some c =>
        obtain ⟨w, make⟩ := c
        by_cases hw : w = v
        · subst hw
          have hkey := isPressed_level hn
          simp only [Option.elim_some, Option.toList_some, List.foldl_cons, List.foldl_nil, tally,
            Function.update_self, keyEvent, pressed, hkey, if_true]
          cases make with
          | false => rfl
          | true =>
            obtain h0 | h1 : n = 0 ∨ 1 ≤ n := by omega
            · subst h0
              rfl
            · rw [if_pos rfl, if_pos (decide_eq_true (by omega)), if_pos rfl, level,
                Nat.min_eq_left (by omega)]
              rfl
        · simp only [Option.elim_some, Option.toList_some, List.foldl_cons, List.foldl_nil,
            tally, if_neg hw]
          rw [Function.update_of_ne (Ne.symm hw)]
          exact hn

theorem codes_cases (s : PS2) (op : Op) :
    op.codes s = [] ∧ op.keyEvents s = [] ∨ ∃ c jiffies, op.codes s = [c] ∧
    c.1 ≤ 113 ∧ op.keyEvents s = [sncEvent jiffies, keyEvent s.keyPresses jiffies c] := by
  cases op with
  | readKey => exact .inl ⟨rfl, rfl⟩
  | readMouse => exact .inl ⟨rfl, rfl⟩
  | byte jiffies isMouse data =>
    cases isMouse with
    | true => exact .inl ⟨rfl, rfl⟩
    | false =>
      rw [Op.codes, Op.keyEvents]
      split_ifs
      · exact .inl ⟨rfl, rfl⟩
      · cases hc : code s.e0Last data with
        | none => exact .inl ⟨rfl, rfl⟩
        | some c => exact .inr ⟨c, jiffies, rfl, (code_range hc).2, rfl⟩

theorem mouseEvents_not_key (hv : v ≤ 113) (op : Op) : (op.mouseEvents s).filter (isKey v) = [] := by
  refine List.filter_eq_nil_iff.mpr fun event hmem hkey => ?_
  obtain ⟨htype, hvalue⟩ := of_decide_eq_true hkey
  unfold Op.mouseEvents at hmem
  cases hq : op.completed s with
  | none => simp [hq] at hmem
  | some q =>
    rw [hq, Option.elim_some] at hmem
    split_ifs at hmem
    · simp at hmem
    · simp only [Packet.events, List.mem_append, List.mem_cons, List.not_mem_nil, or_false,
        or_assoc] at hmem
      obtain rfl | hwheel | hbutton | rfl | rfl := hmem
      · exact absurd htype (by simp [sncEvent, evSyn, evKey])
      · obtain ⟨movement, axis, rfl, -⟩ := Packet.mem_wheel hwheel
        exact absurd htype (by simp [mouseMoveToEvent, evRel, evKey])
      · obtain ⟨i, hi, rfl⟩ := List.mem_map.mp hbutton
        have hlt := Packet.lt_of_mem_changed hi
        have hnat := congrArg BitVec.toNat hvalue
        rw [toNat_value hv] at hnat
        simp only [mouseButtonsToEvent, BitVec.toNat_ofNat, btnLeft] at hnat
        omega
      · exact absurd htype (by simp [mouseMoveToEvent, evRel, evKey])
      · exact absurd htype (by simp [mouseMoveToEvent, evRel, evKey])

theorem isKey_keyEvent (keys : Keys) (jiffies : Word) {c : ℕ × Bool} (hc : c.1 ≤ 113) (hv : v ≤ 113) :
    isKey v (keyEvent keys jiffies c) = decide (c.1 = v) := by
  refine decide_eq_decide.mpr ⟨fun h => ?_, fun h => ⟨rfl, by rw [← h]; rfl⟩⟩
  have hnat := congrArg BitVec.toNat h.2
  rwa [toNat_value hv, show (keyEvent keys jiffies c).value.toNat = c.1 from toNat_value hc] at hnat

end Step

/-! ### Runs -/

section Runs

variable {s : PS2} {v n : ℕ}

/-- **The run lemma of a key**, from any state. -/
theorem run_key (ops : List Op) (h : s.curPacketIndex < 4) (hv : v ≤ 113) (hn : s.keyPresses v = level n) :
    (run s ops).keyPresses v = level ((codes s.e0Last (bytes false ops)).foldl (tally v) n) ∧
    ((generated s ops).filter (isKey v)).map InputEvent.code =
      verdicts (decide (0 < n)) (((codes s.e0Last (bytes false ops)).filter (·.1 = v)).map Prod.snd) := by
  induction ops generalizing s n with
  | nil => exact ⟨hn, rfl⟩
  | cons op ops ih =>
    have hlevel := exec_level h op (lt_of_le_of_lt hv (by decide)) hn
    obtain ⟨ih1, ih2⟩ := ih (op.exec_frame h).index hlevel
    rw [codes_cons h, List.foldl_append]
    refine ⟨ih1, ?_⟩
    rw [generated, List.filter_append, List.filter_append, mouseEvents_not_key hv, List.append_nil,
      List.map_append, ih2, List.filter_append, List.map_append]
    obtain ⟨hcodes, hevents⟩ | ⟨c, jiffies, hcodes, hc, hevents⟩ := codes_cases s op
    · rw [hcodes, hevents]
      rfl
    · rw [hcodes, hevents, List.filter_cons_of_neg (by simp [isKey, sncEvent, evSyn, evKey])]
      have hkey := isKey_keyEvent s.keyPresses jiffies hc hv
      obtain ⟨w, make⟩ := c
      by_cases hw : w = v
      · subst hw
        have hpressed := isPressed_level hn
        rw [List.filter_cons_of_pos (by simpa using hkey), List.filter_nil,
          List.filter_cons_of_pos (by simp)]
        cases make <;> simp [verdicts, tally, keyEvent, pressed, hpressed]
      · rw [List.filter_cons_of_neg (by simpa [hw] using hkey), List.filter_nil,
          List.filter_cons_of_neg (by simpa using hw)]
        simp [tally, hw]

theorem foldl_tally (v : ℕ) (cs : List (ℕ × Bool)) : cs.foldl (tally v) 0 = makesSince v cs := by
  induction cs using List.reverseRecOn with
  | nil => rfl
  | append_singleton cs c ih =>
    rw [List.foldl_append, ih]
    unfold makesSince
    rw [List.filter_append]
    by_cases hc : c.1 = v
    · cases hm : c.2 <;> simp [tally, hc, hm]
    · simp [tally, hc]

theorem indices_lt (ops : List Op) (h : s.curPacketIndex < 4) : ∀ i ∈ indices s ops, i < 126 := by
  induction ops generalizing s with
  | nil => simp [indices]
  | cons op ops ih =>
    intro i hi
    rw [indices, List.mem_append] at hi
    rcases hi with hi | hi
    · exact Op.written_lt hi
    · exact ih (op.exec_frame h).index i hi

theorem run_keyPresses (ops : List Op) (h : s.curPacketIndex < 4) {i : ℕ} (hi : i ∉ indices s ops) :
    (run s ops).keyPresses i = s.keyPresses i := by
  induction ops generalizing s with
  | nil => rfl
  | cons op ops ih =>
    rw [indices, List.mem_append, not_or] at hi
    exact (ih (op.exec_frame h).index hi.2).trans ((op.exec_frame h).keyPresses i hi.1)

theorem filter_added (ops : List Op) (hv : v ≤ 113) :
    (added false s ops).filter (isKey v) = (generated s ops).filter (isKey v) := by
  induction ops generalizing s with
  | nil => rfl
  | cons op ops ih =>
    rw [added, generated, List.filter_append, List.filter_append, List.filter_append,
      mouseEvents_not_key hv, List.append_nil, ih, Op.added]

end Runs

/-- **The automaton of a key.**  Whatever bytes arrive: the state of a key is the number of its
makes since its last break, up to 2; its events are a press for the first of these makes, a hold for
each further one and a release for each break, and they are what programs find in `key_events` if it
is never full; and no index leaves `key_presses`, whose neighbour in memory, with any contents,
stays as it is. -/
theorem key_automaton (ops : List Op) {v : ℕ} (hv : v ≤ 113) :
    (run .init ops).keyPresses v = BitVec.ofNat 8 (min 2 (makesSince v (codes false (bytes false ops)))) ∧
    ((generated .init ops).filter (isKey v)).map InputEvent.code =
      verdicts false (((codes false (bytes false ops)).filter (·.1 = v)).map Prod.snd) ∧
    ((∀ pre, pre <+: ops → ¬ (run .init pre).keyEvents.Full) →
      ((taken false .init ops ++ (run .init ops).keyEvents.contents).filter (isKey v)).map InputEvent.code =
        verdicts false (((codes false (bytes false ops)).filter (·.1 = v)).map Prod.snd)) ∧
    (∀ i ∈ indices .init ops, i < 126) ∧
    ∀ (keys : Keys) (i : ℕ), 126 ≤ i →
      (run { PS2.init with keyPresses := keys } ops).keyPresses i = keys i := by
  obtain ⟨hstate, hevents⟩ := run_key (s := .init) (n := 0) ops (by decide) hv rfl
  refine ⟨?_, hevents, fun hroom => ?_, indices_lt ops (by decide), fun keys i hi => ?_⟩
  · rw [hstate, foldl_tally]
    rfl
  · have hcontents := run_contents (s := .init) (m := false) ops (by decide) ⟨by decide, by decide⟩ hroom
    rw [show ((run .init ops).events false).contents = (run .init ops).keyEvents.contents from
      rfl] at hcontents
    rw [hcontents, show (PS2.init.events false).contents = [] from rfl, List.nil_append,
      filter_added ops hv]
    exact hevents
  · have hindex : { PS2.init with keyPresses := keys }.curPacketIndex < 4 := Nat.zero_lt_succ 3
    exact run_keyPresses ops hindex fun hmem => absurd (indices_lt ops hindex i hmem) (by omega)

/-- The up arrow is pressed, held and released, with a byte of the mouse in between. -/
theorem key_automaton_up_arrow : 102 ≤ 113 ∧
    ((generated .init ([(false, 0xE0#8), (false, 0x48#8), (true, 8#8), (false, 0xE0#8),
      (false, 0x48#8), (false, 0xE0#8), (false, 0xC8#8)].map fun d => Op.byte 0 d.1 d.2)).filter
        (isKey 102)).map InputEvent.code =
        [keyPress, keyHeld, keyRelease] :=
  ⟨by decide, (key_automaton _ (by decide)).2.1⟩

/-! ### Documented keys -/

/-- The prefixed keys. -/
inductive ExtendedKey
  | home | cursorUp | pageUp | cursorLeft | cursorRight | «end» | cursorDown | pageDown | insert | delete
  deriving DecidableEq

namespace ExtendedKey

/-- The second byte of the make code, from the table of `scancodes.h`. -/
def scan : ExtendedKey → ℕ
  | home => 0x47
  | cursorUp => 0x48
  | pageUp => 0x49
  | cursorLeft => 0x4B
  | cursorRight => 0x4D
  | «end» => 0x4F
  | cursorDown => 0x50
  | pageDown => 0x51
  | insert => 0x52
  | delete => 0x53

/-- `KEY_HOME` to `KEY_DELETE`. -/
def constant : ExtendedKey → ℕ
  | home => 102
  | cursorUp => 103
  | pageUp => 104
  | cursorLeft => 105
  | cursorRight => 106
  | «end» => 107
  | cursorDown => 108
  | pageDown => 109
  | insert => 110
  | delete => 111

end ExtendedKey

/-- The documented keys: those without a prefix by their scan code. -/
inductive Key
  | plain (scan : ℕ) (range : 1 ≤ scan ∧ scan ≤ 0x53 ∨ scan = 0x57 ∨ scan = 0x58)
  | extended (key : ExtendedKey)
  deriving DecidableEq

namespace Key

/-- The make code or the break code of a key. -/
def code : Key → Bool → List (BitVec 8)
  | plain scan _, make => [BitVec.ofNat 8 (if make then scan else scan + 0x80)]
  | extended key, make => [0xE0#8, BitVec.ofNat 8 (if make then key.scan else key.scan + 0x80)]

/-- The `KEY_` constant of a key: those without a prefix have the constants `KEY_ESC` = 1 to
`KEY_KPDOT` = 0x53, `KEY_F11` = 0x57 and `KEY_F12` = 0x58. -/
def constant : Key → ℕ
  | plain scan _ => scan
  | extended key => key.constant

/-- The value that the handler uses. -/
def value : Key → ℕ
  | plain scan _ => scan
  | extended key => key.scan + 30

end Key

/-- The last code of the stream for a key is a make code. -/
def lastMake (stream : List (Key × Bool)) (key : Key) : Bool :=
  ((stream.filter (·.1 = key)).getLast?.map Prod.snd).getD false

/-- The bytes of a stream of codes. -/
def streamBytes (stream : List (Key × Bool)) : List (BitVec 8) := stream.flatMap fun c => c.1.code c.2

theorem codes_streamBytes (stream : List (Key × Bool)) :
    codes false (streamBytes stream) = stream.map fun c => (c.1.value, c.2) := by
  induction stream with
  | nil => rfl
  | cons c stream ih =>
    obtain ⟨key, make⟩ := c
    rw [streamBytes, List.flatMap_cons, ← streamBytes, List.map_cons, ← ih]
    cases key with
    | plain scan range =>
      have hcode : code false (BitVec.ofNat 8 (if make then scan else scan + 0x80)) =
          some (scan, make) := by
        unfold Input.code
        cases make with
        | true =>
          simp only [if_true, BitVec.toNat_ofNat, Nat.mod_eq_of_lt (show scan < 2 ^ 8 by omega)]
          rw [if_neg (by decide), if_pos (by omega)]
        | false =>
          have hlt : scan + 0x80 < 2 ^ 8 := by omega
          simp only [Bool.false_eq_true, if_false, BitVec.toNat_ofNat, Nat.mod_eq_of_lt hlt]
          rw [if_neg (by omega), if_pos (by omega), Nat.add_sub_cancel]
      have hne : BitVec.ofNat 8 (if make then scan else scan + 0x80) ≠ 0xE0#8 := by
        intro h
        rw [h] at hcode
        simp [Input.code] at hcode
      show codes false (BitVec.ofNat 8 (if make then scan else scan + 0x80) :: streamBytes stream) = _
      rw [codes, if_neg hne, hcode]
      rfl
    | extended key => cases key <;> cases make <;> rfl

theorem Key.value_injective : Function.Injective Key.value := by
  intro a b h
  cases a with
  | plain scan range =>
    cases b with
    | plain scan' range' =>
      obtain rfl : scan = scan' := h
      rfl
    | extended key =>
      cases key <;> simp only [value, ExtendedKey.scan] at h <;> omega
  | extended key =>
    cases b with
    | plain scan range =>
      cases key <;> simp only [value, ExtendedKey.scan] at h <;> omega
    | extended key' => cases key <;> cases key' <;> first | rfl | exact absurd h (by decide)

theorem makesSince_pos (v : ℕ) (cs : List (ℕ × Bool)) :
    decide (0 < makesSince v cs) = ((cs.filter (·.1 = v)).getLast?.map Prod.snd).getD false := by
  unfold makesSince
  rw [← List.head?_reverse]
  cases (cs.filter (·.1 = v)).reverse with
  | nil => rfl
  | cons c rest => cases hc : c.2 <;> simp [hc]

section Documented

variable {ops : List Op} {stream : List (Key × Bool)} (h : bytes false ops = streamBytes stream)
include h

theorem isPressed_stream {v : ℕ} (hv : v ≤ 113) : isPressed (run .init ops).keyPresses v =
    ((stream.filter (·.1.value = v)).getLast?.map Prod.snd).getD false := by
  have hlevel := (run_key (s := .init) (n := 0) ops (by decide) hv rfl).1
  have hcodes : codes PS2.init.e0Last (bytes false ops) = stream.map fun c => (c.1.value, c.2) := by
    rw [h]
    exact codes_streamBytes stream
  rw [isPressed_level hlevel, foldl_tally, makesSince_pos, hcodes, List.filter_map,
    List.getLast?_map, Option.map_map]
  rfl

theorem isPressed_value (key : Key) :
    isPressed (run .init ops).keyPresses key.value = lastMake stream key := by
  have hv : key.value ≤ 113 := by
    cases key with
    | plain scan range =>
      show scan ≤ 113
      omega
    | extended key => cases key <;> decide
  have hfilter : stream.filter (·.1.value = key.value) = stream.filter (·.1 = key) :=
    List.filter_congr fun c _ => decide_eq_decide.mpr Key.value_injective.eq_iff
  rw [isPressed_stream h hv, hfilter, lastMake]

theorem isPressed_no_value {v : ℕ} (hv : v ≤ 113) (hnone : ∀ key : Key, key.value ≠ v) :
    isPressed (run .init ops).keyPresses v = false := by
  rw [isPressed_stream h hv, List.filter_eq_nil_iff.mpr fun c _ => by simpa using hnone c.1]
  rfl

/-- **The documented constants** tell the state of every key exactly if, at the end of the stream,
each prefixed key but the left arrow is up. -/
theorem documented_keys_iff :
    (∀ key : Key, isPressed (run .init ops).keyPresses key.constant = lastMake stream key) ↔
      ∀ key ≠ ExtendedKey.cursorLeft, lastMake stream (.extended key) = false := by
  have hplain : ∀ (v : ℕ), v = 104 ∨ v = 106 ∨ v = 108 →
      isPressed (run .init ops).keyPresses v = false := by
    intro v hv
    refine isPressed_no_value h (by omega) fun key => ?_
    cases key with
    | plain scan range =>
      show scan ≠ v
      omega
    | extended key => cases key <;> simp only [Key.value, ExtendedKey.scan] <;> omega
  have hextended := fun key => isPressed_value h (.extended key)
  constructor
  · intro hall
    have hdown := fun key => hall (.extended key)
    -- three constants stand for no key, and the others each for the key in front
    have hpageUp := (hdown .pageUp).symm.trans (hplain 104 (by omega))
    have hcursorUp := (hdown .cursorUp).symm.trans ((hextended .pageUp).trans hpageUp)
    have hright := (hdown .cursorRight).symm.trans (hplain 106 (by omega))
    have hend := (hdown .end).symm.trans ((hextended .cursorRight).trans hright)
    have hpageDown := (hdown .pageDown).symm.trans ((hextended .end).trans hend)
    have hcursorDown := (hdown .cursorDown).symm.trans (hplain 108 (by omega))
    intro key hkey
    cases key with
    | home => exact (hdown .home).symm.trans ((hextended .cursorUp).trans hcursorUp)
    | cursorUp => exact hcursorUp
    | pageUp => exact hpageUp
    | cursorLeft => exact absurd rfl hkey
    | cursorRight => exact hright
    | «end» => exact hend
    | cursorDown => exact hcursorDown
    | pageDown => exact hpageDown
    | insert => exact (hdown .insert).symm.trans ((hextended .cursorDown).trans hcursorDown)
    | delete => exact (hdown .delete).symm.trans ((hextended .pageDown).trans hpageDown)
  · intro hup key
    cases key with
    | plain scan range => exact isPressed_value h (.plain scan range)
    | extended key =>
      have hzero : ∀ (other : ExtendedKey) {key : ExtendedKey}, other ≠ .cursorLeft → key ≠ .cursorLeft →
          isPressed (run .init ops).keyPresses (other.scan + 30) = lastMake stream (.extended key) := by
        intro other key hother hkey
        exact ((hextended other).trans (hup other hother)).trans (hup key hkey).symm
      cases key with
      | home => exact hzero .cursorUp (by decide) (by decide)
      | cursorUp => exact hzero .pageUp (by decide) (by decide)
      | pageUp => exact (hplain 104 (by omega)).trans (hup .pageUp (by decide)).symm
      | cursorLeft => exact hextended .cursorLeft
      | cursorRight => exact (hplain 106 (by omega)).trans (hup .cursorRight (by decide)).symm
      | «end» => exact hzero .cursorRight (by decide) (by decide)
      | cursorDown => exact (hplain 108 (by omega)).trans (hup .cursorDown (by decide)).symm
      | pageDown => exact hzero .end (by decide) (by decide)
      | insert => exact hzero .cursorDown (by decide) (by decide)
      | delete => exact hzero .pageDown (by decide) (by decide)

end Documented

/-- The left arrow is held down, and the up arrow has been released. -/
theorem documented_keys_left_arrow :
    isPressed (run .init ([0xE0#8, 0x48#8, 0xE0#8, 0x4B#8, 0xE0#8,
      0xC8#8].map (Op.byte 0 false))).keyPresses
      (Key.extended .cursorLeft).constant = true :=
  (documented_keys_iff (show bytes false _ = streamBytes [(.extended .cursorUp, true),
    (.extended .cursorLeft, true), (.extended .cursorUp, false)] from rfl)).mpr
      (fun key hkey => by cases key <;> first | rfl | exact absurd rfl hkey)
    (.extended .cursorLeft)

/-- The up arrow is pressed: `is_pressed(KEY_UP)` is false. -/
theorem up_arrow_is_not_key_up :
    bytes false ([0xE0#8, 0x48#8].map (Op.byte 0 false)) = streamBytes [(.extended .cursorUp, true)] ∧
      lastMake [(.extended .cursorUp, true)] (.extended .cursorUp) = true ∧
      isPressed (run .init ([0xE0#8, 0x48#8].map (Op.byte 0 false))).keyPresses
        (Key.extended .cursorUp).constant =
        false := by
  decide

end GheithOS.Input
