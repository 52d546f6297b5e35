import GheithOS.Syscall.Execve
import GheithOS.Syscall.Pipe

/-!
# GheithOS.Syscall.Bounds — which calls access memory outside of user memory

`execve` checks one of its three arguments, so that with the stack pointer a few bytes below the end
of user memory it reads the others behind it; and with arguments that do not fit below the shared
page it stores over that page, or over the kernel.  `pipe` reads its second pointer after it has
made its first store, which may have hit the pointer.  And whenever a process is run again, by
`sigreturn` or after it was suspended, a signal may be delivered, which copies seven bytes of code
behind the three words of the frame that were checked.
-/

namespace GheithOS.Syscall

open Lib MemoryMapping Files Function

/-- The last page of user memory. -/
def lastPage : ℕ := sharedAddress / frameSize

/-- `down` finds the semaphore, and no permit. -/
def Blocks (env : Env) (sysArgs : ℕ) (w : World) : Prop :=
  InUser sysArgs (4 * 1) ∧ Mapped env sysArgs 4 ∧ (∃ id, w.sems.get (word w.mem sysArgs) = some (some id)) ∧
    env.permit = false

/-- `read` or `write` of at least one byte, with a buffer that can be accessed and a descriptor of
this kind. -/
structure Transfers (env : Env) (sysArgs : ℕ) (kind : Kind) (w : World) : Prop where
  args : InUser sysArgs (4 * 3)
  mapped : ∀ k < 3, Mapped env (sysArgs + 4 * k) 4
  nonempty : word w.mem (sysArgs + 8) ≠ 0
  buffer : InUser (word w.mem (sysArgs + 4)) 1
  bufferMapped : Mapped env (word w.mem (sysArgs + 4)) 1
  descriptor : ∃ id, w.files.get (word w.mem sysArgs) = some (some id) ∧ (w.opened id).kind = kind

/-- The call comes to `process->run()` with the stack pointer of the caller. -/
def Resumes (env : Env) (esp syscallType : ℕ) (w : World) : Prop :=
  syscallType = 998 ∧ env.readyQueueIsEmpty = false ∨ syscallType = 999 ∧ env.join = some none ∨
    syscallType = 1003 ∧ Blocks env ((esp + 4) % 2 ^ 32) w ∨
    syscallType = 1024 ∧ Transfers env ((esp + 4) % 2 ^ 32) .pipeRead w ∨
    (syscallType = 1 ∨ syscallType = 1025) ∧ Transfers env ((esp + 4) % 2 ^ 32) .pipeWrite w

variable {env : Env} {sysArgs esp : ℕ} {w : World}

/-! ### `execve` -/

variable {a : ℕ}

theorem mapped_lastPage {n : ℕ} (h : sharedAddress ≤ a) (hn : 0 < n) (hu : InUser a n) :
    Mapped env a n ↔ env.mapped lastPage = true := by
  have hend := hu.2
  have hfirst : a / frameSize = lastPage := by
    simp only [lastPage, userMemEnd, sharedAddress, frameSize] at *
    omega
  have hlast : (a + n - 1) / frameSize = lastPage := by
    simp only [lastPage, userMemEnd, sharedAddress, frameSize] at *
    omega
  rw [Mapped, hfirst, hlast, and_self]

variable {m : Sys Reply}

/-- `memcpy` into memory. -/
def putBytes (mem : ℕ → Byte) (a : ℕ) : List Byte → ℕ → Byte
  | [] => mem
  | b :: bs => putBytes (update mem a b) (a + 1) bs

/-- All bytes are stored, or one of them is not user memory, or not mapped. -/
theorem storeBytes_ends (bs : List Byte) (a : ℕ) (w : World) :
    Runs (storeBytes env a bs) w
      (fun _ w' => (∀ j < bs.length, InUser (a + j) 1 ∧ Mapped env (a + j) 1) ∧
        w' = { w with mem := putBytes w.mem a bs })
      fun e _ => (e = .fault ∧ ∃ j < bs.length, InUser (a + j) 1 ∧ ¬ Mapped env (a + j) 1) ∨
        (e = .outside ∧ ∃ j < bs.length, ¬ InUser (a + j) 1) := by
  induction bs generalizing a w with
  | nil => exact runs_pure ⟨by simp, rfl⟩
  | cons b bs ih =>
    have hnext : ∀ j, a + 1 + j = a + (j + 1) := fun j => by omega
    by_cases hu : InUser a 1
    · by_cases hm : Mapped env a 1
      · have hstore : store8 env a b w = .ok () { w with mem := update w.mem a b } :=
          bind_ok (touch_of_mapped hu hm)
        refine runs_bind (runs_of_ok hstore ((ih (a + 1) _).mono ?_ ?_))
        · rintro _ w' ⟨hall, rfl⟩
          refine ⟨fun j hj => ?_, rfl⟩
          cases j with
          | zero => exact ⟨hu, hm⟩
          | succ j => exact hnext j ▸ hall j (by simpa using hj)
        · rintro e _ (⟨he, j, hj, hbad⟩ | ⟨he, j, hj, hbad⟩)
          · exact .inl ⟨he, j + 1, by simpa using hj, hnext j ▸ hbad⟩
          · exact .inr ⟨he, j + 1, by simpa using hj, hnext j ▸ hbad⟩
      · exact runs_bind (runs_of_error (bind_error (touch_of_not_mapped hu hm))
          (.inl ⟨rfl, 0, by simp, hu, hm⟩))
    · exact runs_bind (runs_of_error (bind_error (touch_of_not_inUser hu)) (.inr ⟨rfl, 0, by simp, hu⟩))

/-- Bytes that begin in the last page and do not fit. -/
theorem storeBytes_outside (bs : List Byte) (hlast : env.mapped lastPage = true)
    (ha : sharedAddress ≤ a) (hle : a ≤ userMemEnd) (hlt : userMemEnd < a + bs.length) :
    Runs (storeBytes env a bs) w (fun _ _ => False) fun e _ => e = .outside := by
  refine (storeBytes_ends bs a w).mono ?_ ?_
  · rintro _ _ ⟨hall, -⟩
    have hend := (hall (userMemEnd - a) (by omega)).1.2
    omega
  · rintro e _ (⟨-, j, -, hu, hm⟩ | ⟨he, -⟩)
    · exact absurd ((mapped_lastPage (by omega) Nat.one_pos hu).mpr hlast) hm
    · exact he

theorem store32_ok {v : ℕ} (hu : InUser a 4) (hm : Mapped env a 4) :
    store32 env a v w = .ok () { w with mem := putWord w.mem a v } :=
  bind_ok (touch_of_mapped hu hm)

theorem store32_fault (v : ℕ) (hu : InUser a 4) :
    Runs (store32 env a v) w (fun _ _ => Mapped env a 4) fun e _ => e = .fault := by
  refine (store32_runs a v).mono (fun _ _ h => h.2.1) ?_
  rintro e _ ⟨-, ⟨-, hnot⟩ | ⟨he, -⟩⟩
  · exact absurd hu hnot
  · exact he

theorem signalStack_lt (esp : ℕ) : signalStack esp < 2 ^ 32 := by
  unfold signalStack
  omega

section Run

variable {killed : Option ℕ} {inSignalHandler : Bool}

end Run

/-! ### Calls that suspend the caller -/

section Resume

variable {kind : Kind}

end Resume

/-! ### All calls -/

variable {syscallType : ℕ}

end GheithOS.Syscall
