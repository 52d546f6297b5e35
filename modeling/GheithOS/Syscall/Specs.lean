import GheithOS.Syscall.Memory

/-!
# GheithOS.Syscall.Specs — the handlers, one by one

A handler is `Safe` if no access of its leaves user memory, and `Atomic` if moreover the state is
untouched whenever the caller gets an error.  The checks at the top of a handler make every read
below them one that stays inside; what is left to see is where the first change of the state stands.
The handlers here are safe in every state.
-/

namespace GheithOS.Syscall

open Lib MemoryMapping Files

/-- No access leaves user memory, and with an error the state is as before. -/
def Atomic (m : Sys Reply) (w : World) : Prop :=
  Runs m w (fun r w' => ∀ e, r = .error e → w' = w) fun e w' => e = .fault ∧ w' = w ∨ e = .panic

section Rules

variable {α : Type} {m : Sys α} {f : α → Sys Reply} {w : World} {Q : α → Prop} {sysArgs n : ℕ}
  {h : Sys Reply}

theorem atomic_error (e : Errno) : Atomic (pure (.error e)) w := fun _ _ => rfl

theorem atomic_panic : Atomic (throw .panic) w := .inr rfl

theorem Reads.atomic (hm : Reads m w Q) (hf : ∀ a, Q a → Atomic (f a) w) : Atomic (m >>= f) w :=
  hm.runs_bind (.inl ⟨rfl, rfl⟩) hf

/-- The check at the top of a handler. -/
theorem atomic_validated (hn : 0 < n) (hs : sysArgs < 2 ^ 32) (hm : InUser sysArgs (4 * n) → Atomic h w) :
    Atomic (if validatePointer 4 sysArgs n then h else return .error .EFAULT) w := by
  split_ifs with hv
  · exact hm ((validatePointer_eq_true hs (by decide) (by decide) hn).mp hv)
  · exact atomic_error _

end Rules

section Handlers

variable {env : Env} {sysArgs : ℕ} {w : World}

theorem descriptor_reads (index : ℕ) : Reads (descriptor index) w fun r =>
    ∀ id file, r = some (id, file) → w.files.get index = some (some id) ∧ file = w.opened id := by
  unfold descriptor
  refine reads_get.bind ?_
  rintro _ rfl
  split
  · next id hid =>
    refine reads_pure ?_
    rintro _ _ ⟨⟩
    exact ⟨hid, rfl⟩
  · exact reads_pure (by simp)

/-- The three ends of a store. -/
theorem store32_runs (a v : ℕ) :
    Runs (store32 env a v) w (fun _ w' => InUser a 4 ∧ Mapped env a 4 ∧
      w' = { w with mem := putWord w.mem a v })
      fun e w' => w' = w ∧ (e = .outside ∧ ¬ InUser a 4 ∨ e = .fault ∧ InUser a 4 ∧ ¬ Mapped env a 4) := by
  by_cases hu : InUser a 4
  · by_cases hm : Mapped env a 4
    · exact runs_bind (runs_of_ok (touch_of_mapped hu hm) ⟨hu, hm, rfl⟩)
    · exact runs_bind (runs_of_error (touch_of_not_mapped hu hm) ⟨rfl, .inr ⟨rfl, hu, hm⟩⟩)
  · exact runs_bind (runs_of_error (touch_of_not_inUser hu) ⟨rfl, .inl ⟨rfl, hu⟩⟩)

/-- A new entry of the table never makes the handler fail. -/
theorem allocFile_runs (id : ℕ) : Runs (allocFile id) w (fun _ _ => True) fun e _ => e = .panic := by
  refine runs_get ?_
  split
  · trivial
  · exact runs_throw rfl

/-- `alloc` at the end of a handler. -/
theorem allocFile_atomic (id : ℕ) {w' : World} : Runs (do let i ← allocFile id; return Reply.ok i) w
    (fun r w'' => ∀ e, r = .error e → w'' = w') fun e w'' => e = .fault ∧ w'' = w' ∨ e = .panic := by
  refine runs_bind ((allocFile_runs id).mono ?_ fun _ _ => .inr)
  rintro i _ _ _ ⟨⟩

/-! ### Handlers that read their arguments and reply -/

section Arguments

variable (hs : sysArgs < 2 ^ 32)
include hs

theorem atomic_arg {f : ℕ → Sys Reply} (h : ∀ x, Atomic (f x) w) :
    Atomic (if validatePointer 4 sysArgs 1 then arg env sysArgs 0 >>= f else return .error .EFAULT) w :=
  atomic_validated Nat.one_pos hs fun hu => (arg_reads hu Nat.one_pos).atomic fun x _ => h x

theorem sysSem_atomic : Atomic (sysSem env sysArgs) w := by
  refine atomic_validated Nat.one_pos hs fun hu => ?_
  refine runs_get ?_
  split_ifs
  · refine (arg_reads hu Nat.one_pos).atomic fun _ _ => ?_
    refine runs_get ?_
    split
    · rintro _ ⟨⟩
    · exact atomic_panic
  · exact atomic_error _

theorem sysSemClose_atomic : Atomic (sysSemClose env sysArgs) w := by
  refine atomic_arg hs fun index => ?_
  refine runs_get ?_
  dsimp only
  split_ifs
  · rintro _ ⟨⟩
  · exact atomic_error _

theorem sysClose_atomic : Atomic (sysClose env sysArgs) w := by
  refine atomic_arg hs fun index => ?_
  refine runs_get ?_
  dsimp only
  split_ifs
  · rintro _ ⟨⟩
  · exact atomic_error _

theorem sysDup_atomic : Atomic (sysDup env sysArgs) w := by
  refine atomic_validated Nat.one_pos hs fun hu => ?_
  refine runs_get ?_
  split_ifs
  · refine (arg_reads hu Nat.one_pos).atomic fun index _ => ?_
    refine (descriptor_reads index).atomic fun file _ => ?_
    split
    · exact allocFile_atomic _
    · exact atomic_error _
  · exact atomic_error _

theorem sysOpen_atomic : Atomic (sysOpen env sysArgs) w := by
  refine atomic_validated Nat.one_pos hs fun hu => ?_
  refine (arg_reads hu Nat.one_pos).atomic ?_
  rintro path ⟨rfl, -⟩
  refine (validateAndCount_reads Nat.one_pos (by decide) (word_lt _ _)).atomic fun count hcount => ?_
  cases count with
  | none => exact atomic_error _
  | some n =>
    refine runs_get ?_
    split_ifs
    · refine (reads_done (scan_of_terminated (hcount n rfl))).atomic fun name _ => ?_
      split
      · exact atomic_error _
      · split
        · exact allocFile_atomic _
        · exact allocFile_atomic _
        · exact atomic_panic
    · exact atomic_error _

end Arguments

theorem lseek_atomic (index offset whence : ℕ) : Atomic (lseek index offset whence) w := by
  refine (descriptor_reads index).atomic fun file _ => ?_
  split
  · split
    · exact atomic_error _
    · split_ifs
      · exact atomic_error _
      · rintro _ ⟨⟩
  · exact atomic_error _

theorem sysLseek_atomic (hs : sysArgs < 2 ^ 32) : Atomic (sysLseek env sysArgs) w := by
  refine atomic_validated (by decide) hs fun hu => ?_
  refine (arg_reads hu (by decide)).atomic fun index _ => ?_
  refine (arg_reads hu (by decide)).atomic fun offset _ => ?_
  refine (arg_reads hu (by decide)).atomic fun whence _ => ?_
  exact lseek_atomic index offset whence

theorem mapMemory_atomic (start size : ℕ) (file : Option ℕ) (fileOffset fileSize : ℕ) :
    Atomic (mapMemory env start size file fileOffset fileSize) w := by
  refine reads_get.atomic ?_
  rintro w₁ rfl
  split
  · rintro _ ⟨⟩
  · next h =>
    obtain rfl : _ = w₁.mappings := by simpa [h] using map_error (congrArg Prod.snd h)
    exact atomic_error _
  · next h =>
    obtain rfl : _ = w₁.mappings := by simpa [h] using map_error (congrArg Prod.snd h)
    exact atomic_error _

theorem sysMmap_atomic (hs : sysArgs < 2 ^ 32) : Atomic (sysMmap env sysArgs) w := by
  refine atomic_validated (by decide) hs fun hu => ?_
  refine (arg_reads hu (by decide)).atomic fun start _ => ?_
  refine (arg_reads hu (by decide)).atomic fun size _ => ?_
  refine (arg_reads hu (by decide)).atomic fun file _ => ?_
  split_ifs
  · exact mapMemory_atomic _ _ _ _ _
  · refine (arg_reads hu (by decide)).atomic fun offset _ => ?_
    split_ifs
    · exact atomic_error _
    · refine (descriptor_reads file).atomic fun _ _ => ?_
      split
      · split_ifs
        · exact mapMemory_atomic _ _ _ _ _
        · exact mapMemory_atomic _ _ _ _ _
      · exact atomic_error _

/-! ### The other calls -/

end Handlers

end GheithOS.Syscall
