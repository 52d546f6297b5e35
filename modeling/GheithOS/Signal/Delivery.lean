import GheithOS.Signal.Model
import GheithOS.Syscall.Bounds

/-!
# GheithOS.Signal.Delivery — a signal whose frame cannot be written

`run_signal_handler` changes the context and sets the flag before it writes the frame, and the
instruction pointer after it.  If a page of the frame is not mapped, the page fault handler starts
the process from the context as it is then: at the interrupted instruction, with the stack of the
handler, and the signal is lost.  The frame may also reach beyond user memory, since only three
words of it are checked.  `delivery_iff` says that nothing else goes wrong.
-/

namespace GheithOS.Signal

open Lib Syscall Function
open MemoryMapping hiding InUser Mapped

variable {env : Env} {w : World} {a code argument : ℕ}

/-- The 19 bytes of a frame are mapped user memory. -/
def FrameMapped (env : Env) (a : ℕ) : Prop := InUser a 19 ∧ Mapped env a 19

instance decidableFrameMapped (env : Env) (a : ℕ) : Decidable (FrameMapped env a) :=
  inferInstanceAs (Decidable (_ ∧ _))

/-- The frame of a handler: the return address, the two arguments, and the code that the handler
returns to. -/
structure FrameAt (mem : ℕ → Byte) (a code argument : ℕ) : Prop where
  ret : word mem a = a + 12
  code : word mem (a + 4) = code
  argument : word mem (a + 8) = argument
  bytecode : window mem (a + 12) 7 = sigreturnBytecode

/-! ### Writing the frame -/

theorem putBytes_outside (bs : List Byte) {mem : ℕ → Byte} {a b : ℕ} (h : b < a ∨ a + bs.length ≤ b) :
    putBytes mem a bs b = mem b := by
  induction bs generalizing mem a with
  | nil => rfl
  | cons x bs ih =>
    rw [List.length_cons] at h
    rw [putBytes, ih (by omega), update_of_ne (by omega)]

theorem window_putBytes (bs : List Byte) (mem : ℕ → Byte) (a : ℕ) :
    window (putBytes mem a bs) a bs.length = bs := by
  induction bs generalizing mem a with
  | nil => rfl
  | cons x bs ih =>
    have hfirst : putBytes mem a (x :: bs) a = x := by
      rw [putBytes, putBytes_outside bs (by omega), update_self]
    have hcons : window (putBytes mem a (x :: bs)) a (bs.length + 1) =
        putBytes mem a (x :: bs) a :: window (putBytes mem a (x :: bs)) (a + 1) bs.length := rfl
    rw [List.length_cons, hcons, hfirst, putBytes, ih]

theorem word_putWord (mem : ℕ → Byte) (a : ℕ) {v : ℕ} (hv : v < 2 ^ 32) : word (putWord mem a v) a = v := by
  rw [word_eq, putWord_inside (by omega) (by omega), putWord_inside (by omega) (by omega),
    putWord_inside (by omega) (by omega), putWord_inside (by omega) (by omega)]
  simp only [BitVec.toNat_ofNat, Nat.sub_self, Nat.add_sub_cancel_left]
  omega

theorem word_congr {mem mem' : ℕ → Byte} (h : ∀ b, a ≤ b → b < a + 4 → mem' b = mem b) :
    word mem' a = word mem a := by
  rw [word_eq, word_eq, h a (by omega) (by omega), h (a + 1) (by omega) (by omega),
    h (a + 2) (by omega) (by omega), h (a + 3) (by omega) (by omega)]

/-- The memory with a frame in it. -/
def putFrame (mem : ℕ → Byte) (a code argument : ℕ) : ℕ → Byte :=
  putBytes (putWord (putWord (putWord mem a (a + 12)) (a + 4) code) (a + 8) argument)
    (a + 12) sigreturnBytecode

theorem frameAt_putFrame (mem : ℕ → Byte) (ha : a + 12 < 2 ^ 32) (hc : code < 2 ^ 32)
    (hg : argument < 2 ^ 32) : FrameAt (putFrame mem a code argument) a code argument := by
  unfold putFrame
  refine ⟨?_, ?_, ?_, window_putBytes sigreturnBytecode _ _⟩
  · refine (word_congr fun b h1 h2 => ?_).trans (word_putWord mem a ha)
    rw [putBytes_outside _ (by omega), putWord_outside (by omega), putWord_outside (by omega)]
  · refine (word_congr fun b h1 h2 => ?_).trans (word_putWord (putWord mem a (a + 12)) (a + 4) hc)
    rw [putBytes_outside _ (by omega), putWord_outside (by omega)]
  · refine (word_congr fun b h1 h2 => ?_).trans
      (word_putWord (putWord (putWord mem a (a + 12)) (a + 4) code) (a + 8) hg)
    rw [putBytes_outside _ (by omega)]

/-- The frame is aligned, so that its words and the first bytes of its code are on one page. -/
theorem frameMapped_iff (ha : a % 16 = 0) (hu : InUser a 12) : FrameMapped env a ↔
    Mapped env a 4 ∧ ∀ j < 7, InUser (a + 12 + j) 1 ∧ Mapped env (a + 12 + j) 1 := by
  have hpage : ∀ j < 16, (a + j) / frameSize = a / frameSize := by
    intro j hj
    unfold frameSize
    omega
  constructor
  · rintro ⟨hin, hm⟩
    refine ⟨⟨hm.1, ?_⟩, fun j hj => ⟨hin.mono (by omega) (by omega), ?_⟩⟩
    · rw [show a + 4 - 1 = a + 3 by omega, hpage 3 (by omega)]
      exact hm.1
    · have hlast := hm.2
      by_cases hj4 : j < 4
      · have := hpage (12 + j) (by omega)
        rw [← Nat.add_assoc] at this
        refine ⟨?_, ?_⟩
        · rw [this]
          exact hm.1
        · rw [show a + 12 + j + 1 - 1 = a + 12 + j by omega, this]
          exact hm.1
      · have hsame : (a + 12 + j) / frameSize = (a + 19 - 1) / frameSize := by
          unfold frameSize
          omega
        refine ⟨?_, ?_⟩
        · rw [hsame]
          exact hlast
        · rw [show a + 12 + j + 1 - 1 = a + 12 + j by omega, hsame]
          exact hlast
  · rintro ⟨hm, hall⟩
    obtain ⟨hin, hlast⟩ := hall 6 (by omega)
    have hend := hin.2
    refine ⟨⟨hu.1, by omega⟩, hm.1, ?_⟩
    exact hlast.1

/-- **The two ends of the frame.** -/
theorem writeFrame_ends (env : Env) (w : World) (code argument : ℕ) (ha : a % 16 = 0) (hu : InUser a 12) :
    Runs (writeFrame env a code argument) w
      (fun _ w' => FrameMapped env a ∧ w' = { w with mem := putFrame w.mem a code argument })
      fun e _ => (e = .fault ∨ e = .outside) ∧ ¬ FrameMapped env a := by
  have hpage : ∀ j ≤ 8, Mapped env (a + j) 4 ↔ Mapped env a 4 := by
    intro j hj
    have h1 : (a + j) / frameSize = a / frameSize := by
      unfold frameSize
      omega
    have h2 : (a + j + 4 - 1) / frameSize = (a + 4 - 1) / frameSize := by
      unfold frameSize
      omega
    unfold Mapped
    rw [h1, h2]
  by_cases hm : Mapped env a 4
  · refine runs_bind (runs_of_ok (store32_ok (hu.mono (by omega) (by omega)) hm) ?_)
    refine runs_bind (runs_of_ok
      (store32_ok (hu.mono (by omega) (by omega)) ((hpage 4 (by omega)).mpr hm)) ?_)
    refine runs_bind (runs_of_ok
      (store32_ok (hu.mono (by omega) (by omega)) ((hpage 8 (by omega)).mpr hm)) ?_)
    refine (storeBytes_ends sigreturnBytecode (a + 12) _).mono ?_ ?_
    · rintro _ w' ⟨hall, rfl⟩
      exact ⟨(frameMapped_iff ha hu).mpr ⟨hm, hall⟩, rfl⟩
    · rintro e _ (⟨he, j, hj, -, hm'⟩ | ⟨he, j, hj, hu'⟩)
      · exact ⟨.inl he, fun hf => hm' (((frameMapped_iff ha hu).mp hf).2 j hj).2⟩
      · exact ⟨.inr he, fun hf => hu' (((frameMapped_iff ha hu).mp hf).2 j hj).1⟩
  · refine runs_bind ((store32_fault _ (hu.mono (by omega) (by omega))).mono ?_ ?_)
    · intro _ _ h
      exact absurd h hm
    · rintro e _ rfl
      exact ⟨.inl rfl, fun hf => hm ((frameMapped_iff ha hu).mp hf).1⟩

/-! ### Delivery -/

/-- The stack that the handler is to get. -/
def Process.userStack (p : Process) : ℕ := signalStack p.context.esp.toNat

/-- The next instruction is the first one of the handler, on a frame for the signal; or the process
has ended. -/
def Delivered (env : Env) (handler : ℕ) (code argument : Word) : Outcome → Prop
  | .user p => p.context.eip = BitVec.ofNat 32 handler ∧ p.inSignalHandler = true ∧
      FrameMapped env p.context.esp.toNat ∧
      FrameAt p.world.mem p.context.esp.toNat code.toNat argument.toNat
  | .exits _ => True
  | .panics => False

/-- There is no handler that could be run, the check of the frame fails, or the frame can be
written. -/
def Deliverable (env : Env) (p : Process) : Prop :=
  p.world.signalHandler = 0 ∨ p.inSignalHandler = true ∨ validatePointer 4 p.userStack 3 = false ∨
    FrameMapped env p.userStack

variable {p : Process}

theorem run_cons_in_handler (t : Moment) (ts : List Moment) (h : p.inSignalHandler = true) :
    run env (t :: ts) p = if t.kernelInterrupted then run env ts (t.kill.elim p p.kill)
      else if (t.kill.elim p p.kill).isKilled then some (.exits (t.kill.elim p p.kill).killArgument)
      else some (.user (t.kill.elim p p.kill)) := by
  have hflag : (t.kill.elim p p.kill).inSignalHandler = true := by
    cases t.kill with
    | none => exact h
    | some k =>
      rw [Option.elim_some, Process.kill]
      split_ifs <;> exact h
  rw [run]
  refine if_congr Iff.rfl rfl (if_congr Iff.rfl ?_ rfl)
  rw [runSignalHandler, if_pos (.inr hflag)]
  rfl

variable {o : Outcome}

theorem run_in_handler (ts : List Moment) (h : p.inSignalHandler = true)
    (ho : run env ts p = some o) :
    (∃ exitCode, o = .exits exitCode) ∨ o = .user p ∧ p.isKilled = false := by
  induction ts generalizing p with
  | nil => simp [run] at ho
  | cons t ts ih =>
    rw [run_cons_in_handler t ts h] at ho
    cases hk : t.kill with
    | none =>
      rw [hk, Option.elim_none] at ho
      split_ifs at ho with h1 h2
      · exact ih h ho
      · exact .inl ⟨_, (Option.some.inj ho).symm⟩
      · exact .inr ⟨(Option.some.inj ho).symm, by simpa using h2⟩
    | some k =>
      have hq : (p.kill k).inSignalHandler = true ∧ (p.kill k).isKilled = true := by
        unfold Process.kill
        split_ifs with hc
        · exact ⟨h, hc⟩
        · exact ⟨h, rfl⟩
      rw [hk, Option.elim_some, if_pos hq.2] at ho
      split_ifs at ho
      · refine .inl ((ih hq.1 ho).resolve_right fun hc => ?_)
        exact absurd (hc.2.symm.trans hq.2) (by decide)
      · exact .inl ⟨_, (Option.some.inj ho).symm⟩

theorem signalStack_align (esp : ℕ) : signalStack esp % 16 = 0 := by
  unfold signalStack
  exact Nat.mul_mod_left _ 16

theorem enterHandler_cases (env : Env) (code argument : Word) (q : Process) {userStack : ℕ}
    (halign : userStack % 16 = 0) (hu : InUser userStack 12) :
    (FrameMapped env userStack ∧ enterHandler env userStack code argument q =
      .again { q with
        world := { q.world with mem := putFrame q.world.mem userStack code.toNat argument.toNat }
        context := { q.context with eip := BitVec.ofNat 32 q.world.signalHandler } }) ∨
    (¬ FrameMapped env userStack ∧ (enterHandler env userStack code argument q = .panics ∨
      ∃ w, enterHandler env userStack code argument q = .again { q with world := w })) := by
  have hends := writeFrame_ends env q.world code.toNat argument.toNat halign hu
  unfold enterHandler
  cases hw : writeFrame env userStack code.toNat argument.toNat q.world with
  | ok _ w' =>
    obtain ⟨hmapped, rfl⟩ := hends.ok hw
    exact .inl ⟨hmapped, rfl⟩
  | error e w' =>
    obtain ⟨he, hnot⟩ := hends.error hw
    refine .inr ⟨hnot, ?_⟩
    rcases he with rfl | rfl
    · exact .inr ⟨w', rfl⟩
    · exact .inl rfl

/-- **`run_signal_handler`**: it returns, it goes on in the handler, or it is abandoned with the
flag set. -/
theorem runSignalHandler_cases (env : Env) (code argument : Word) (p : Process) :
    (Deliverable env p ∧ runSignalHandler env code argument p = .returned) ∨
    (Deliverable env p ∧ ∃ q, runSignalHandler env code argument p = .again q ∧ q.inSignalHandler = true ∧
      Delivered env p.world.signalHandler code argument (.user q)) ∨
    (¬ Deliverable env p ∧ (runSignalHandler env code argument p = .panics ∨
      ∃ q, runSignalHandler env code argument p = .again q ∧ q.inSignalHandler = true ∧
        q.isKilled = p.isKilled ∧
        ¬ FrameMapped env q.context.esp.toNat)) := by
  have hlt := signalStack_lt p.context.esp.toNat
  have halign := signalStack_align p.context.esp.toNat
  unfold runSignalHandler Deliverable Process.userStack
  generalize signalStack p.context.esp.toNat = userStack at hlt halign ⊢
  by_cases hno : p.world.signalHandler = 0 ∨ p.inSignalHandler = true
  · rw [if_pos hno]
    exact .inl ⟨hno.elim Or.inl fun h => .inr (.inl h), rfl⟩
  rw [if_neg hno]
  dsimp only
  by_cases hv : validatePointer 4 userStack 3 = true
  · have hu : InUser userStack 12 := (validatePointer_eq_true hlt (by decide) (by decide) (by decide)).mp hv
    have hesp : (BitVec.ofNat 32 userStack).toNat = userStack := by
      rw [BitVec.toNat_ofNat, Nat.mod_eq_of_lt hlt]
    rw [if_pos hv]
    rcases enterHandler_cases env code argument { p with
        afterSignalContext := p.context
        inSignalHandler := true
        context := { p.context with esp := BitVec.ofNat 32 userStack } } halign hu with
      ⟨hmapped, henter⟩ | ⟨hnot, henter⟩
    · refine .inr (.inl ⟨.inr (.inr (.inr hmapped)), _, henter, rfl, rfl, rfl, ?_⟩)
      dsimp only
      rw [hesp]
      exact ⟨hmapped, frameAt_putFrame _ hu.lt code.isLt argument.isLt⟩
    · refine .inr (.inr ⟨?_, henter.imp_right ?_⟩)
      · rintro (h | h | h | h)
        · exact hno (.inl h)
        · exact hno (.inr h)
        · exact absurd (h.symm.trans hv) (by decide)
        · exact hnot h
      · rintro ⟨w, hw⟩
        refine ⟨_, hw, rfl, rfl, ?_⟩
        dsimp only
        rwa [hesp]
  · rw [if_neg hv]
    exact .inl ⟨.inr (.inr (.inl (Bool.eq_false_iff.mpr hv))), rfl⟩

variable {q : Process} {ts : List Moment}

theorem delivered_of_run {handler : ℕ} {code argument : Word} (hq : q.inSignalHandler = true)
    (hd : Delivered env handler code argument (.user q)) (ho : run env ts q = some o) :
    Delivered env handler code argument o := by
  rcases run_in_handler ts hq ho with ⟨exitCode, rfl⟩ | ⟨rfl, -⟩
  · trivial
  · exact hd

/-- A call of `run` in which nothing else happens. -/
def quiet : Moment := ⟨false, none⟩

theorem run_abandoned (hk : q.isKilled = false) : run env [quiet] q = some (.user q) := by
  simp [run, quiet, hk]

theorem run_killed (hk : p.isKilled = true) (t : Moment) :
    run env (t :: ts) p = if t.kernelInterrupted then run env ts p
      else (runSignalHandler env 2 p.killArgument { p with isKilled := false }).next p.killArgument
        (run env ts) := by
  have hkeep : t.kill.elim p p.kill = p := by
    cases t.kill with
    | none => rfl
    | some k => exact if_pos hk
  rw [run, hkeep, if_pos hk]

/-- **A kill that is pending is delivered or ends the process**, exactly if the frame can be written
where it is to be. -/
theorem run_delivered (h : Deliverable env p) (hk : p.isKilled = true) (ts : List Moment)
    (ho : run env ts p = some o) : Delivered env p.world.signalHandler 2 p.killArgument o := by
  induction ts with
  | nil => simp [run] at ho
  | cons t ts ih =>
    rw [run_killed hk] at ho
    split_ifs at ho
    · exact ih ho
    · rcases runSignalHandler_cases env 2 p.killArgument { p with isKilled := false } with
        ⟨-, hr⟩ | ⟨-, q, hr, hq, hd⟩ | ⟨hnot, -⟩
      · rw [hr] at ho
        obtain rfl := Option.some.inj ho
        trivial
      · rw [hr] at ho
        exact delivered_of_run hq hd ho
      · exact absurd h hnot

/-- The calls of `run` that do not put the process back into the queue. -/
def uninterrupted (ts : List Moment) : ℕ := ts.countP fun t => !t.kernelInterrupted

theorem uninterrupted_cons (t : Moment) (ts : List Moment) :
    uninterrupted (t :: ts) = uninterrupted ts + if t.kernelInterrupted then 0 else 1 := by
  unfold uninterrupted
  rw [List.countP_cons]
  cases t.kernelInterrupted <;> rfl

theorem run_isSome_in_handler (h : p.inSignalHandler = true) (hts : 1 ≤ uninterrupted ts) :
    (run env ts p).isSome = true := by
  induction ts generalizing p with
  | nil => simp [uninterrupted] at hts
  | cons t ts ih =>
    rw [uninterrupted_cons] at hts
    rw [run_cons_in_handler t ts h]
    split_ifs at hts ⊢
    · refine ih ?_ hts
      cases t.kill with
      | none => exact h
      | some k =>
        rw [Option.elim_some, Process.kill]
        split_ifs <;> exact h
    · rfl
    · rfl

theorem next_isSome (env : Env) (code argument exitCode : Word) (p : Process)
    (hts : 1 ≤ uninterrupted ts) :
    ((runSignalHandler env code argument p).next exitCode (run env ts)).isSome = true := by
  rcases runSignalHandler_cases env code argument p with
    ⟨-, hr⟩ | ⟨-, q, hr, hq, -⟩ | ⟨-, hr | ⟨q, hr, hq, -⟩⟩ <;> rw [hr]
  · rfl
  · exact run_isSome_in_handler hq hts
  · rfl
  · exact run_isSome_in_handler hq hts

theorem run_isSome (hts : 2 ≤ uninterrupted ts) : (run env ts p).isSome = true := by
  induction ts generalizing p with
  | nil => simp [uninterrupted] at hts
  | cons t ts ih =>
    rw [uninterrupted_cons] at hts
    rw [run]
    split_ifs at hts ⊢
    · exact ih hts
    · exact next_isSome env _ _ _ _ (by omega)
    · rfl

/-- **Signal delivery.**  At the second call of `Process::run` at the latest it is clear what a
process does next; and a kill that `run` finds, as well as a fault of the process, leads into the
handler with its frame or ends the process, whatever happens meanwhile, exactly if the signal is
deliverable. -/
theorem delivery_iff (env : Env) (p : Process) :
    (∀ ts, 2 ≤ uninterrupted ts →
      (run env ts p).isSome = true ∧ ∀ address, (segfault env ts address p).isSome = true) ∧
    (((p.isKilled = true → ∀ ts o, run env ts p = some o →
      Delivered env p.world.signalHandler 2 p.killArgument o) ∧
      ∀ address ts o, segfault env ts address p = some o →
        Delivered env p.world.signalHandler 1 address o) ↔
    Deliverable env p) := by
  refine ⟨fun ts hts => ⟨run_isSome hts, fun address => next_isSome env _ _ _ _ (by omega)⟩, ?_⟩
  constructor
  · rintro ⟨hkill, hfault⟩
    by_contra hnot
    cases hk : p.isKilled with
    | true =>
      have hkill := hkill hk
      rcases runSignalHandler_cases env 2 p.killArgument { p with isKilled := false } with
        ⟨h, -⟩ | ⟨h, -⟩ | ⟨-, hr | ⟨q, hr, hq, hqk, hframe⟩⟩
      · exact hnot h
      · exact hnot h
      · exact hkill [quiet] .panics (by rw [run_killed hk, hr]; rfl)
      · refine hframe (hkill [quiet, quiet] (.user q) ?_).2.2.1
        rw [run_killed hk, hr]
        exact run_abandoned hqk
    | false =>
      rcases runSignalHandler_cases env 1 0
          { p with world := { p.world with mem := putWord p.world.mem faultAddress (0 : Word).toNat } } with
        ⟨h, -⟩ | ⟨h, -⟩ | ⟨-, hr | ⟨q, hr, hq, hqk, hframe⟩⟩
      · exact hnot h
      · exact hnot h
      · exact hfault 0 [] .panics (by rw [segfault, hr]; rfl)
      · refine hframe (hfault 0 [quiet] (.user q) ?_).2.2.1
        rw [segfault, hr]
        exact run_abandoned (hqk.trans hk)
  · intro h
    refine ⟨fun hk ts o ho => run_delivered h hk ts ho, fun address ts o ho => ?_⟩
    rw [segfault] at ho
    rcases runSignalHandler_cases env 1 address
        { p with world := { p.world with mem := putWord p.world.mem faultAddress address.toNat } } with
      ⟨-, hr⟩ | ⟨-, q, hr, hq, hd⟩ | ⟨hnot, -⟩
    · rw [hr] at ho
      obtain rfl := Option.some.inj ho
      trivial
    · rw [hr] at ho
      exact delivered_of_run hq hd ho
    · exact absurd h hnot

/-- A process with a handler that has been killed, and whose stack is on a page that is not
mapped. -/
def lostStack : Process where
  context := ⟨0x80001000, 0x202, 0x90000000, 0, 0, 0, 0, 0, 0, 0⟩
  inSignalHandler := false
  afterSignalContext := ⟨0, 0, 0, 0, 0, 0, 0, 0, 0, 0⟩
  isKilled := true
  killArgument := 7
  world := { newProcess (fun _ => 0#8) with signalHandler := 0x80002000 }

/-- **A kill that is lost**: the process goes on at the interrupted instruction, below its stack and
with the flag set. -/
theorem kill_is_lost : ∃ q, run (idle fun _ => false) [quiet, quiet] lostStack = some (.user q) ∧
    q.context.eip = lostStack.context.eip ∧ q.context.esp = 0x8FFFFF60 ∧ q.inSignalHandler = true ∧
    q.isKilled = false ∧ ¬ Delivered (idle fun _ => false)
      lostStack.world.signalHandler 2 lostStack.killArgument (.user q) := by
  refine ⟨_, rfl, rfl, rfl, rfl, rfl, ?_⟩
  rintro ⟨heip, -⟩
  exact absurd heip (by decide)

end GheithOS.Signal
