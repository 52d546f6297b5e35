import GheithOS.Syscall.Pipe

/-!
# GheithOS.Syscall.Failure — what a failed call on descriptors leaves behind

Nothing, except for `pipe`: its descriptors are in the table before it touches the memory they are
stored to, and if a page of that memory is not mapped the caller gets `-EFAULT` and never learns
their numbers.
-/

namespace GheithOS.Syscall

open Lib MemoryMapping Files

/-- The system calls that work on descriptors. -/
inductive DescriptorCall where
  | openPath
  | close
  | dup
  | pipe
  | sem
  | semClose
  | lseek
  | simpleMmap
  deriving DecidableEq

def DescriptorCall.number : DescriptorCall → ℕ
  | openPath => 1021
  | close => 1022
  | dup => 1028
  | pipe => 1026
  | sem => 1001
  | semClose => 1007
  | lseek => 1029
  | simpleMmap => 1005

/-- The caller gets a negative error: the handler returned it, or was abandoned at a page that is
not mapped. -/
def Fails (m : Sys Reply) (w w' : World) : Prop := (∃ e, m w = .ok (.error e) w') ∨ m w = .error .fault w'

/-- The tables, the offsets and the mapping are as before. -/
structure Unchanged (w w' : World) : Prop where
  files : w'.files = w.files
  sems : w'.sems = w.sems
  offsets : ∀ id < w.openedCount, (w'.opened id).offset = (w.opened id).offset
  mappings : w'.mappings = w.mappings

/-- `pipe` comes to its assignments, and one of the words it stores to is not mapped. -/
def PipeTears (env : Env) (sysArgs : ℕ) (w : World) : Prop :=
  Commits env sysArgs w ∧ (¬ Mapped env (word w.mem sysArgs) 4 ∨
    InUser (secondTarget sysArgs w) 4 ∧ ¬ Mapped env (secondTarget sysArgs w) 4)

variable {env : Env} {sysArgs : ℕ} {w w' : World}

theorem unchanged_self (w : World) : Unchanged w w := ⟨rfl, rfl, fun _ _ => rfl, rfl⟩

theorem Atomic.unchanged {m : Sys Reply} (h : Atomic m w) (hf : Fails m w w') : Unchanged w w' := by
  rcases hf with ⟨e, he⟩ | he
  · obtain rfl := Runs.ok h he e rfl
    exact unchanged_self w'
  · obtain ⟨-, rfl⟩ | hpanic := Runs.error h he
    · exact unchanged_self w'
    · exact absurd hpanic (by decide)

theorem sysPipe_unchanged_iff (hs : sysArgs < 2 ^ 32) :
    (∀ w', Fails (sysPipe env sysArgs) w w' → Unchanged w w') ↔ ¬ PipeTears env sysArgs w := by
  by_cases hc : Commits env sysArgs w
  · constructor
    · rintro hall ⟨-, htear⟩
      cases hrun : sysPipe env sysArgs w with
      | ok r w' =>
        obtain ⟨-, hfirst, -, hsecond⟩ := Runs.ok (sysPipe_of_commits hc) hrun
        exact htear.elim (fun h => h hfirst) fun h => h.2 hsecond
      | error e w' =>
        obtain ⟨hopen, hwhy⟩ := Runs.error (sysPipe_of_commits hc) hrun
        have hfault : e = .fault := by
          rcases hwhy with ⟨he, -⟩ | ⟨hfirst, ⟨-, hout⟩ | ⟨he, -⟩⟩
          · exact he
          · exact (htear.elim (fun h => h hfirst) fun h => hout h.1).elim
          · exact he
        subst hfault
        rw [(hall w' (.inr hrun)).files] at hopen
        exact Nat.lt_irrefl _ hopen
    · rintro hwhole w' (⟨e, he⟩ | he)
      · exact absurd (Runs.ok (sysPipe_of_commits hc) he).1 (by simp)
      · refine absurd ⟨hc, ?_⟩ hwhole
        rcases (Runs.error (sysPipe_of_commits hc) he).2 with ⟨-, hm⟩ | ⟨-, ⟨hout, -⟩ | ⟨-, htarget⟩⟩
        · exact .inl hm
        · exact absurd hout (by decide)
        · exact .inr htarget
  · refine iff_of_true ?_ fun h => hc h.1
    rintro w' (⟨e, he⟩ | he)
    · rw [(Runs.ok (sysPipe_of_not_commits hs hc) he).1]
      exact unchanged_self w
    · rw [(Runs.error (sysPipe_of_not_commits hs hc) he).2]
      exact unchanged_self w

/-- **A failed call changes nothing, unless it is `pipe` and one of its targets is not mapped**: for
every state of the process, every choice of the pages that are mapped, and every arguments. -/
theorem failed_unchanged_iff (call : DescriptorCall) (env : Env) (esp : ℕ) (w : World) :
    (∀ w', Fails (wrappedSysHandler env esp call.number) w w' → Unchanged w w') ↔
      ¬ (call = .pipe ∧ PipeTears env ((esp + 4) % 2 ^ 32) w) := by
  have hs : (esp + 4) % 2 ^ 32 < 2 ^ 32 := Nat.mod_lt _ (by decide)
  cases call with
  | pipe =>
    rw [and_iff_right rfl]
    exact sysPipe_unchanged_iff hs
  | openPath => exact iff_of_true (fun w' hf => (sysOpen_atomic hs).unchanged hf) (by simp)
  | close => exact iff_of_true (fun w' hf => (sysClose_atomic hs).unchanged hf) (by simp)
  | dup => exact iff_of_true (fun w' hf => (sysDup_atomic hs).unchanged hf) (by simp)
  | sem => exact iff_of_true (fun w' hf => (sysSem_atomic hs).unchanged hf) (by simp)
  | semClose => exact iff_of_true (fun w' hf => (sysSemClose_atomic hs).unchanged hf) (by simp)
  | lseek => exact iff_of_true (fun w' hf => (sysLseek_atomic hs).unchanged hf) (by simp)
  | simpleMmap => exact iff_of_true (fun w' hf => (sysMmap_atomic hs).unchanged hf) (by simp)

/-- A process with one page, and on it the arguments of `pipe`: the first pointer leads to the page
behind. -/
def unmappedTarget : World :=
  newProcess (putWord (putWord (fun _ => 0#8) userMemStart (userMemStart + frameSize))
    (userMemStart + 4) (userMemStart + 8))

/-- The caller gets `-EFAULT` and has a descriptor more. -/
theorem pipe_keeps_a_descriptor :
    ¬ ∀ w', Fails (wrappedSysHandler (idle (· == userMemStart / frameSize)) (userMemStart - 4)
      DescriptorCall.pipe.number)
      unmappedTarget w' → Unchanged unmappedTarget w' := by
  intro hall
  refine (sysPipe_unchanged_iff (by decide)).mp hall ⟨⟨?_, ?_, ?_, ?_, ?_, ?_⟩, .inl ?_⟩ <;> decide

end GheithOS.Syscall
