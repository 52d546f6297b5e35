import GheithOS.Syscall.Execve
import GheithOS.Vmm.StackItems

/-!
# GheithOS.Exec.Arguments — the arguments of a new program on its stack

`SYS::execve` checks `argv`, `envp` and their strings, and `set_up_stack` copies them to the stack
of the new program.  Nothing bounds their size: what is accepted stays in the region of the stack
exactly if it fits there (`arguments_in_stack_iff`).  `VectorAt` says which strings the two pointers
of a call stand for.
-/

namespace GheithOS.Exec

open Lib MemoryMapping
open Syscall hiding setUpStack
open Vmm (InStack bytesRequired stringBytes totalLength stackPointer dataAddress
  itemAddresses stackItems stackPointer_eq stackPointer_written inStack_iff setUpStack writeItems
    setUpStack_eq)

/-- A string of user memory. -/
structure StringAt (mem : ℕ → Byte) (p : ℕ) (str : List Byte) : Prop where
  bytes : window mem p str.length = str
  nonzero : ∀ b ∈ str, b ≠ 0#8
  terminator : mem (p + str.length) = 0#8

/-- The strings of `argv` or `envp`; a null pointer stands for none. -/
def VectorAt (mem : ℕ → Byte) (arr : ℕ) (strs : List (List Byte)) : Prop :=
  arr = 0 ∧ strs = [] ∨ arr ≠ 0 ∧ word mem (arr + strs.length * 4) = 0 ∧
    ∀ i (h : i < strs.length), word mem (arr + i * 4) ≠ 0 ∧ StringAt mem (word mem (arr + i * 4)) strs[i]

/-! ### What is accepted -/

section Accepted

variable {env : Env} {w w' : World} {arr n : ℕ} {lens : List ℕ}

theorem value_one (mem : ℕ → Byte) (a : ℕ) : value mem 1 a = (mem a).toNat :=
  by simp [value, window, Files.littleEndian]

theorem word_eq (mem : ℕ → Byte) (a : ℕ) : word mem a = (mem a).toNat + 256 * ((mem (a + 1)).toNat +
    256 * ((mem (a + 2)).toNat + 256 * ((mem (a + 3)).toNat + 256 * 0))) := rfl

theorem stringAt_of_terminated {mem : ℕ → Byte} {p : ℕ} (h : Terminated env mem 1 p 0 n) :
    StringAt mem p (window mem p n) := by
  refine ⟨by rw [length_window], fun b hb => ?_, ?_⟩
  · obtain ⟨j, hj, rfl⟩ := mem_window.mp hb
    have hnonzero := h.nonzero j (Nat.zero_le j) hj
    rw [Nat.mul_one, value_one] at hnonzero
    intro hzero
    rw [hzero] at hnonzero
    exact hnonzero rfl
  · have hzero := h.zero
    rw [Nat.mul_one, value_one] at hzero
    rw [length_window]
    exact BitVec.eq_of_toNat_eq hzero

theorem length_stringBytes (strs : List (List Byte)) :
    (stringBytes strs).length = stringSpace (strs.map List.length) := by
  simp [stringBytes, stringSpace, List.length_flatMap, Function.comp_def]

theorem vectorAt_of_counted (h : Counted env w.mem arr lens.length)
    (hs : Strings env w.mem arr (List.range lens.length) lens) :
    ∃ strs, VectorAt w.mem arr strs ∧ strs.map List.length = lens := by
  rcases h with ⟨hzero, hnone⟩ | ⟨hne, h⟩
  · exact ⟨[], .inl ⟨hzero, rfl⟩, (List.eq_nil_of_length_eq_zero hnone).symm⟩
  · refine ⟨lens.mapIdx fun i => window w.mem (word w.mem (arr + i * 4)),
      .inr ⟨hne, ?_, fun i hi => ?_⟩, ?_⟩
    · rw [List.length_mapIdx]
      exact h.zero
    · have hin : i < lens.length := by simpa using hi
      refine ⟨h.nonzero i (Nat.zero_le i) hin, ?_⟩
      have hstring := hs.get (by simpa using hin) hin
      rw [List.get_eq_getElem, List.getElem_range] at hstring
      rw [List.getElem_mapIdx]
      exact stringAt_of_terminated hstring
    · refine List.ext_getElem (by simp) fun i _ _ => ?_
      rw [List.getElem_map, List.getElem_mapIdx, length_window]

/-- **The arguments of a new program.**  What `SYS::execve` accepts are two vectors of strings,
which it has counted; `set_up_stack` writes their items, and they stay inside the region of the
stack, with the room for them computed exactly, if and only if they fit into it. -/
theorem arguments_in_stack_iff (path argv envp : Word) {nArgs nEnvs total : ℕ}
    (h : checkArguments env path.toNat argv.toNat envp.toNat w = .ok (.ok (nArgs, nEnvs, total)) w') :
    (∃ args envs, VectorAt w.mem argv.toNat args ∧ VectorAt w.mem envp.toNat envs ∧
      nArgs = args.length ∧ nEnvs = envs.length ∧ total = totalLength args envs) ∧
    ∀ args envs, VectorAt w.mem argv.toNat args → VectorAt w.mem envp.toNat envs →
      (∀ d, setUpStack d (totalLength args envs) args envs = (do
        let _ ← writeItems d (stackItems (totalLength args envs) args envs)
          (⟨stackPointer (totalLength args envs) args envs, 0⟩,
            ⟨dataAddress (totalLength args envs) args envs, 0⟩)
        return stackPointer (totalLength args envs) args envs)) ∧
      (InStack args envs ↔ bytesRequired args envs ≤ Vmm.userStackSize) := by
  refine ⟨?_, fun args envs _ _ => ⟨fun d => setUpStack_eq d _ args envs, inStack_iff args envs⟩⟩
  obtain ⟨args, envs, haccepted, hargs, henvs, htotal⟩ :=
    (Runs.ok (checkArguments_reads path.isLt argv.isLt envp.isLt) h).2 nArgs nEnvs total rfl
  obtain ⟨argStrs, hargv, hargLens⟩ := vectorAt_of_counted haccepted.argCount haccepted.argStrings
  obtain ⟨envStrs, henvp, henvLens⟩ := vectorAt_of_counted haccepted.envCount haccepted.envStrings
  refine ⟨argStrs, envStrs, hargv, henvp, ?_, ?_, ?_⟩
  · rw [hargs, ← hargLens, List.length_map]
  · rw [henvs, ← henvLens, List.length_map]
  · rw [htotal, totalLength, length_stringBytes, length_stringBytes, hargLens, henvLens]

end Accepted

/-- User memory with one argument, a string of `len` bytes at `0x80002000`; the vector lies at
`0x80001000`, and the empty path at `0x80000000`. -/
def oneArgument (len : ℕ) : World := newProcess fun a =>
  if 0x80002000 ≤ a ∧ a < 0x80002000 + len then 1#8
  else if a = 0x80001001 then 0x20#8 else if a = 0x80001003 then 0x80#8 else 0#8

/-- Surroundings in which every path is that of a program. -/
def anyProgram : Env :=
  { idle (fun _ => true) with lookup := fun _ _ => some ⟨3, .file 84#32⟩, isElf := fun _ => true }

section OneArgument

variable {len : ℕ}

theorem oneArgument_byte (len : ℕ) {j : ℕ} (hj : j < len) : (oneArgument len).mem (0x80002000 + j) = 1#8 :=
  if_pos ⟨by omega, by omega⟩

theorem oneArgument_end (len : ℕ) : (oneArgument len).mem (0x80002000 + len) = 0#8 := by
  show (if _ then _ else _) = _
  rw [if_neg (by omega), if_neg (by omega), if_neg (by omega)]

theorem oneArgument_path : Terminated anyProgram (oneArgument len).mem 1 0x80000000 0 0 := by
  refine .last (by decide) ⟨rfl, rfl⟩ ?_
  rw [value_one]
  rfl

theorem oneArgument_vector (len : ℕ) : Terminated anyProgram (oneArgument len).mem 4 0x80001000 0 1 ∧
    word (oneArgument len).mem 0x80001000 = 0x80002000 := by
  have hword : word (oneArgument len).mem 0x80001000 = 0x80002000 := by
    rw [word_eq]
    simp [oneArgument, newProcess]
  have hnull : word (oneArgument len).mem 0x80001004 = 0 := by
    rw [word_eq]
    simp [oneArgument, newProcess]
  refine ⟨.step (by decide) ⟨rfl, rfl⟩ ?_ (.last (by decide) ⟨rfl, rfl⟩ hnull), hword⟩
  show word (oneArgument len).mem 0x80001000 ≠ 0
  rw [hword]
  omega

theorem oneArgument_string (h : len < 2 ^ 24) :
    Terminated anyProgram (oneArgument len).mem 1 0x80002000 0 len where
  le := Nat.zero_le len
  inUser j _ hj := by
    unfold Syscall.InUser userMemStart userMemEnd sharedAddress frameSize
    omega
  mapped _ _ _ := ⟨rfl, rfl⟩
  nonzero j _ hj := by
    rw [Nat.mul_one, value_one, oneArgument_byte len hj]
    decide
  zero := by
    rw [Nat.mul_one, value_one, oneArgument_end]
    rfl

/-- **The argument is accepted**, however long it is. -/
theorem oneArgument_accepted (h : len < 2 ^ 24) :
    checkArguments anyProgram 0x80000000 0x80001000 0 (oneArgument len) =
      .ok (.ok (1, 0, len + 1)) (oneArgument len) := by
  obtain ⟨hvector, hword⟩ := oneArgument_vector len
  have haccepted : Accepted anyProgram (oneArgument len) 0x80000000 0x80001000 0 [len] [] := by
    refine ⟨⟨0, _, _, oneArgument_path, rfl, rfl, rfl⟩, .inr ⟨by omega, hvector⟩, .cons ?_ .nil,
      .inl ⟨rfl, rfl⟩, .nil⟩
    rw [Nat.zero_mul, Nat.add_zero, hword]
    exact oneArgument_string h
  rw [checkArguments_of_accepted haccepted]
  have htotal : (stringSpace [] + stringSpace [len]) % 2 ^ 32 = len + 1 := by
    rw [stringSpace_cons, show stringSpace [] = 0 from rfl]
    omega
  rw [htotal]
  rfl

theorem oneArgument_vectorAt (h : len < 2 ^ 24) :
    VectorAt (oneArgument len).mem 0x80001000 [List.replicate len 1#8] ∧
    VectorAt (oneArgument len).mem 0 [] := by
  obtain ⟨hvector, hword⟩ := oneArgument_vector len
  have hwindow : window (oneArgument len).mem 0x80002000 len = List.replicate len 1#8 := by
    refine List.eq_replicate_iff.mpr ⟨length_window _ _ _, fun b hb => ?_⟩
    obtain ⟨j, hj, rfl⟩ := mem_window.mp hb
    exact oneArgument_byte len hj
  refine ⟨.inr ⟨by omega, hvector.zero, fun i hi => ?_⟩, .inl ⟨rfl, rfl⟩⟩
  obtain rfl : i = 0 := by simpa using hi
  rw [Nat.zero_mul, Nat.add_zero, hword]
  refine ⟨by omega, ?_⟩
  rw [List.getElem_cons_zero, ← hwindow]
  exact stringAt_of_terminated (oneArgument_string h)

theorem oneArgument_required (len : ℕ) : bytesRequired [List.replicate len 1#8] [] = len + 25 := by
  simp [bytesRequired, stringBytes]
  omega

end OneArgument

/-- A short argument. -/
theorem arguments_in_stack_short :
    checkArguments anyProgram 0x80000000 0x80001000 0 (oneArgument 3) =
      .ok (.ok (1, 0, 4)) (oneArgument 3) ∧
      InStack [List.replicate 3 1#8] [] := by
  have haccepted := oneArgument_accepted (show 3 < 2 ^ 24 by omega)
  obtain ⟨hargs, henvs⟩ := oneArgument_vectorAt (show 3 < 2 ^ 24 by omega)
  have hiff := arguments_in_stack_iff 0x80000000#32 0x80001000#32 0#32 haccepted
  refine ⟨haccepted, ((hiff.2 _ _ hargs henvs).2).mpr ?_⟩
  rw [oneArgument_required]
  decide

/-- One argument of a megabyte. -/
def longArguments : List (List Byte) := [List.replicate (2 ^ 20) 1#8]

/-- **A long argument** is accepted, and the first word is written below the stack. -/
theorem arguments_below_stack :
    checkArguments anyProgram 0x80000000 0x80001000 0 (oneArgument (2 ^ 20)) =
        .ok (.ok (1, 0, 2 ^ 20 + 1)) (oneArgument (2 ^ 20)) ∧
      VectorAt (oneArgument (2 ^ 20)).mem 0x80001000 longArguments ∧
      VectorAt (oneArgument (2 ^ 20)).mem 0 [] ∧
      0xEFEFFFE0 ∈ itemAddresses (stackItems (totalLength longArguments []) longArguments [])
        (stackPointer (totalLength longArguments []) longArguments [])
        (dataAddress (totalLength longArguments []) longArguments []) ∧
      0xEFEFFFE0 < Vmm.userStackEnd := by
  obtain ⟨hargs, henvs⟩ := oneArgument_vectorAt (show 2 ^ 20 < 2 ^ 24 by omega)
  refine ⟨oneArgument_accepted (by omega), hargs, henvs, ?_, by decide⟩
  have hsp : stackPointer (totalLength longArguments []) longArguments [] = 0xEFEFFFE0 := by
    rw [stackPointer_eq, longArguments, oneArgument_required]
    rfl
  have hfirst : ∀ a, stackPointer (totalLength longArguments []) longArguments [] = a → a ∈ itemAddresses
      (stackItems (totalLength longArguments []) longArguments [])
      (stackPointer (totalLength longArguments []) longArguments [])
      (dataAddress (totalLength longArguments []) longArguments []) := by
    rintro _ rfl
    exact stackPointer_written _ _ _ _
  exact hfirst _ hsp

end GheithOS.Exec
