import GheithOS.Signal.Delivery

/-!
# GheithOS.Signal.FrameBounds — the bytes of a signal frame

`run_signal_handler` stores three words and then seven bytes of code.  For an aligned frame this is
a sequence of byte stores (`writeFrame_eq`), so that the bytes it writes are a list
(`Process.frameWrites`).  All of them lie between the new stack pointer and the red zone of 128
bytes below the interrupted one.  They lie in user memory as well, but for the 16 stack pointers
whose frame is the last that passes the check of its three words: the code of that frame ends three
bytes behind user memory (`frame_bounds_iff`).
-/

namespace GheithOS.Signal

open Lib Function
open Syscall hiding storeBytes_outside run runSignalHandler
open MemoryMapping hiding InUser Mapped
open Files (bytesOf)

/-! ### Stores, byte by byte -/

section Stores

variable {env : Env} {a v : ℕ} {l : List Byte}

theorem storeBytes_append (a : ℕ) (xs ys : List Byte) :
    storeBytes env a (xs ++ ys) = (do storeBytes env a xs; storeBytes env (a + xs.length) ys) := by
  induction xs generalizing a with
  | nil => rfl
  | cons x xs ih =>
    rw [List.cons_append, storeBytes, storeBytes, ih, bind_assoc, List.length_cons, Nat.add_assoc,
      Nat.add_comm 1]

theorem storeBytes_ok (h : ∀ j < l.length, InUser (a + j) 1 ∧ Mapped env (a + j) 1) (w : World) :
    storeBytes env a l w = .ok () { w with mem := putBytes w.mem a l } := by
  cases hr : storeBytes env a l w with
  | ok _ w' =>
    obtain ⟨-, rfl⟩ := (storeBytes_ends l a w).ok hr
    rfl
  | error e w' =>
    rcases (storeBytes_ends l a w).error hr with ⟨-, j, hj, -, hm⟩ | ⟨-, j, hj, hu⟩
    · exact absurd (h j hj).2 hm
    · exact absurd (h j hj).1 hu

theorem storeBytes_outside (hmap : ∀ page, env.mapped page = true) (h : ¬ ∀ j < l.length, InUser (a + j) 1)
    (w : World) : ∃ w', storeBytes env a l w = .error .outside w' := by
  cases hr : storeBytes env a l w with
  | ok _ w' => exact absurd (fun j hj => (((storeBytes_ends l a w).ok hr).1 j hj).1) h
  | error e w' =>
    rcases (storeBytes_ends l a w).error hr with ⟨-, j, -, -, hm⟩ | ⟨rfl, -⟩
    · exact absurd ⟨hmap _, hmap _⟩ hm
    · exact ⟨w', rfl⟩

theorem aligned_byte (env : Env) (h : a % 4 = 0) {k : ℕ} (hk : k < 4) :
    (InUser (a + k) 1 ↔ InUser a 4) ∧ (Mapped env (a + k) 1 ↔ Mapped env a 4) := by
  have hpage : ∀ j < 4, (a + j) / frameSize = a / frameSize := by
    intro j hj
    unfold frameSize
    omega
  constructor
  · simp only [InUser, userMemStart, userMemEnd, sharedAddress, frameSize]
    omega
  · unfold Mapped
    rw [show a + k + 1 - 1 = a + k by omega, show a + 4 - 1 = a + 3 by omega, hpage k hk,
      hpage 3 (by omega)]

theorem putWord_eq (mem : ℕ → Byte) (a v : ℕ) : putWord mem a v = putBytes mem a (bytesOf 4 v) := by
  funext b
  have hbytes : bytesOf 4 v = [BitVec.ofNat 8 (v / 256 ^ 0), BitVec.ofNat 8 (v / 256 ^ 1),
      BitVec.ofNat 8 (v / 256 ^ 2), BitVec.ofNat 8 (v / 256 ^ 3)] := rfl
  by_cases hb : a ≤ b ∧ b < a + 4
  · obtain ⟨k, hk, rfl⟩ : ∃ k < 4, b = a + k := ⟨b - a, by omega, by omega⟩
    rw [putWord, if_pos hb, Nat.add_sub_cancel_left, hbytes]
    interval_cases k <;> simp [putBytes, update, Nat.add_assoc]
  · rw [putWord, if_neg hb, putBytes_outside _ (by rw [hbytes]; simp only [List.length]; omega)]

theorem store32_eq (h : a % 4 = 0) : store32 env a v = storeBytes env a (bytesOf 4 v) := by
  funext w
  obtain ⟨hu₀, hm₀⟩ := aligned_byte env h (Nat.succ_pos 3)
  by_cases hu : InUser a 4
  · by_cases hm : Mapped env a 4
    · have hbytes : ∀ j < 4, InUser (a + j) 1 ∧ Mapped env (a + j) 1 := fun j hj => by
        obtain ⟨hu', hm'⟩ := aligned_byte env h hj
        exact ⟨hu'.mpr hu, hm'.mpr hm⟩
      rw [storeBytes_ok (l := bytesOf 4 v) hbytes, ← putWord_eq]
      exact bind_ok (touch_of_mapped hu hm)
    · exact (bind_error (touch_of_not_mapped hu hm)).trans
        (bind_error (bind_error (touch_of_not_mapped (hu₀.mpr hu) fun h' => hm (hm₀.mp h')))).symm
  · exact (bind_error (touch_of_not_inUser hu)).trans
      (bind_error (bind_error (touch_of_not_inUser fun h' => hu (hu₀.mp h')))).symm

end Stores

/-! ### The frame -/

/-- The bytes of the frame of a handler, in the order in which they are stored. -/
def frameBytes (userStack code argument : ℕ) : List Byte :=
  bytesOf 4 (userStack + 12) ++ (bytesOf 4 code ++ (bytesOf 4 argument ++ sigreturnBytecode))

/-- **The frame is stored byte by byte.** -/
theorem writeFrame_eq (env : Env) {a : ℕ} (code argument : ℕ) (h : a % 4 = 0) :
    writeFrame env a code argument = storeBytes env a (frameBytes a code argument) := by
  unfold writeFrame frameBytes
  rw [storeBytes_append, storeBytes_append, storeBytes_append, store32_eq h, store32_eq (by omega),
    store32_eq (by omega)]
  rfl

/-- Bytes with the addresses they are stored at. -/
def placed (a : ℕ) (bs : List Byte) : List (ℕ × Byte) := bs.mapIdx fun k b => (a + k, b)

theorem forall_placed {P : ℕ → Prop} (a : ℕ) (bs : List Byte) :
    (∀ x ∈ placed a bs, P x.1) ↔ ∀ j < bs.length, P (a + j) := by
  simp only [placed, List.mem_mapIdx]
  constructor
  · exact fun h j hj => h _ ⟨j, hj, rfl⟩
  · rintro h _ ⟨j, hj, rfl⟩
    exact h j hj

theorem map_snd_placed (a : ℕ) (bs : List Byte) : (placed a bs).map Prod.snd = bs := by
  refine List.ext_getElem (by simp [placed]) fun i _ _ => ?_
  simp [placed]

/-- The bytes that `run_signal_handler` writes. -/
def Process.frameWrites (code argument : Word) (p : Process) : List (ℕ × Byte) :=
  if p.world.signalHandler = 0 ∨ p.inSignalHandler = true then []
  else if validatePointer 4 p.userStack 3
      then placed p.userStack (frameBytes p.userStack code.toNat argument.toNat)
  else []

section Bounds

theorem enterHandler_mapped {env : Env} (hmap : ∀ page, env.mapped page = true)
    (code argument : Word) (q : Process) {userStack : ℕ} (halign : userStack % 16 = 0) :
    ((∀ j < 19, InUser (userStack + j) 1) ∧ enterHandler env userStack code argument q = .again { q with
      world := { q.world with
        mem := putBytes q.world.mem userStack (frameBytes userStack code.toNat argument.toNat) }
      context := { q.context with eip := BitVec.ofNat 32 q.world.signalHandler } }) ∨
    (enterHandler env userStack code argument q = .panics ∧ ¬ ∀ j < 19, InUser (userStack + j) 1) := by
  unfold enterHandler
  rw [writeFrame_eq env _ _ (by omega)]
  by_cases hall : ∀ j < 19, InUser (userStack + j) 1
  · rw [storeBytes_ok (l := frameBytes userStack code.toNat argument.toNat) fun j hj =>
      ⟨hall j hj, hmap _, hmap _⟩]
    exact .inl ⟨hall, rfl⟩
  · obtain ⟨w', hw'⟩ :=
      storeBytes_outside (l := frameBytes userStack code.toNat argument.toNat) hmap hall q.world
    rw [hw']
    exact .inr ⟨rfl, hall⟩

/-- **What `run_signal_handler` writes**: with all of user memory mapped it stores the bytes of the
frame, or panics at the first one that lies elsewhere. -/
theorem runSignalHandler_writes {env : Env} (hmap : ∀ page, env.mapped page = true)
    (code argument : Word) (p : Process) :
    (runSignalHandler env code argument p = .returned ∧ p.frameWrites code argument = []) ∨
    (∃ q, runSignalHandler env code argument p = .again q ∧ q.context.esp.toNat = p.userStack ∧
      (∀ x ∈ p.frameWrites code argument, InUser x.1 1) ∧
      q.world.mem = putBytes p.world.mem p.userStack ((p.frameWrites code argument).map Prod.snd)) ∨
    (runSignalHandler env code argument p = .panics ∧ ¬ ∀ x ∈ p.frameWrites code argument,
      InUser x.1 1) := by
  have hlt := signalStack_lt p.context.esp.toNat
  have halign := signalStack_align p.context.esp.toNat
  unfold runSignalHandler Process.frameWrites Process.userStack
  generalize signalStack p.context.esp.toNat = userStack at hlt halign ⊢
  by_cases hno : p.world.signalHandler = 0 ∨ p.inSignalHandler = true
  · rw [if_pos hno, if_pos hno]
    exact .inl ⟨rfl, rfl⟩
  rw [if_neg hno, if_neg hno]
  by_cases hv : validatePointer 4 userStack 3 = true
  · rw [if_pos hv, if_pos hv, forall_placed (P := fun b => InUser b 1), map_snd_placed]
    rcases enterHandler_mapped hmap code argument { p with
        afterSignalContext := p.context
        inSignalHandler := true
        context := { p.context with esp := BitVec.ofNat 32 userStack } } halign with
        ⟨hall, henter⟩ | ⟨henter, hnot⟩
    · refine .inr (.inl ⟨_, henter, ?_, hall, rfl⟩)
      rw [BitVec.toNat_ofNat, Nat.mod_eq_of_lt hlt]
    · exact .inr (.inr ⟨henter, hnot⟩)
  · rw [if_neg hv, if_neg hv]
    exact .inl ⟨rfl, rfl⟩

/-- What is asked of a signal frame. -/
structure FrameBounds (code argument : Word) (p : Process) : Prop where
  inUser : ∀ x ∈ p.frameWrites code argument, userMemStart ≤ x.1 ∧ x.1 < userMemEnd
  above : ∀ x ∈ p.frameWrites code argument, p.userStack ≤ x.1
  below : ∀ x ∈ p.frameWrites code argument, x.1 + 1 + 128 ≤ p.context.esp.toNat
  aligned : p.userStack % 16 = 0

/-- **The bounds of a signal frame** hold, unless there is a handler to run and the interrupted
stack pointer is one of the 16 whose frame passes the check with its code behind the end of user
memory. -/
theorem frame_bounds_iff (code argument : Word) (p : Process) :
    FrameBounds code argument p ↔ p.world.signalHandler = 0 ∨ p.inSignalHandler = true ∨
      p.context.esp.toNat < 0xF0001083 ∨ 0xF0001092 < p.context.esp.toNat := by
  have hstack : p.userStack = (p.context.esp.toNat + 2 ^ 32 - 147) % 2 ^ 32 / 16 * 16 := rfl
  have hesp : p.context.esp.toNat < 2 ^ 32 := p.context.esp.isLt
  have halign : p.userStack % 16 = 0 := signalStack_align _
  have hnone : p.frameWrites code argument = [] → FrameBounds code argument p := fun h =>
    ⟨by simp [h], by simp [h], by simp [h], halign⟩
  by_cases hno : p.world.signalHandler = 0 ∨ p.inSignalHandler = true
  · exact iff_of_true (hnone (if_pos hno)) (or_assoc.mp (.inl hno))
  rw [← or_assoc, or_iff_right hno]
  by_cases hv : validatePointer 4 p.userStack 3 = true
  · have hwrites : ∀ P : ℕ → Prop, (∀ x ∈ p.frameWrites code argument, P x.1) ↔
        ∀ j < 19, P (p.userStack + j) := by
      intro P
      rw [Process.frameWrites, if_neg hno, if_pos hv]
      exact forall_placed _ _
    rw [validatePointer_eq_true (by omega) (by decide) (by decide) (by decide)] at hv
    simp only [InUser, userMemStart, userMemEnd, sharedAddress, frameSize] at hv
    constructor
    · intro h
      have hlast := ((hwrites fun b => userMemStart ≤ b ∧ b < userMemEnd).mp h.inUser 18 (by omega)).2
      simp only [userMemEnd, sharedAddress, frameSize] at hlast
      omega
    · intro hrange
      refine ⟨(hwrites fun b => userMemStart ≤ b ∧ b < userMemEnd).mpr fun j hj => ?_,
        (hwrites fun b => p.userStack ≤ b).mpr fun j _ => Nat.le_add_right _ j,
        (hwrites fun b => b + 1 + 128 ≤ p.context.esp.toNat).mpr fun j hj => ?_, halign⟩
      · simp only [userMemStart, userMemEnd, sharedAddress, frameSize]
        omega
      · omega
  · refine iff_of_true (hnone ?_) ?_
    · rw [Process.frameWrites, if_neg hno, if_neg hv]
    · rw [validatePointer_eq_true (by omega) (by decide) (by decide) (by decide)] at hv
      simp only [InUser, userMemStart, userMemEnd, sharedAddress, frameSize] at hv
      omega

/-- A process with a handler whose stack pointer was set to a place behind user memory. -/
def highStack : Process :=
  { lostStack with context := { lostStack.context with esp := 0xF0001083 } }

/-- **A frame whose code leaves user memory**: the fifth byte of the code goes to `USER_MEM_END`,
and the kernel stops. -/
theorem frame_leaves_user_memory : (userMemEnd, 0x00#8) ∈ highStack.frameWrites 2 7 ∧
    ¬ FrameBounds 2 7 highStack ∧
    runSignalHandler (idle fun _ => true) 2 7 highStack = .panics := by
  have hwritten : (userMemEnd, 0x00#8) ∈ highStack.frameWrites 2 7 := by decide
  have hout : ¬ InUser userMemEnd 1 := by decide
  refine ⟨hwritten, fun h => ?_, ?_⟩
  · exact absurd (h.inUser _ hwritten).2 (Nat.lt_irrefl userMemEnd)
  · rcases @runSignalHandler_writes (idle fun _ => true) (fun _ => rfl) 2 7 highStack with
      ⟨-, hnil⟩ | ⟨q, -, -, hall, -⟩ | ⟨hpanics, -⟩
    · rw [hnil] at hwritten
      cases hwritten
    · exact absurd (hall _ hwritten) hout
    · exact hpanics

end Bounds

end GheithOS.Signal
