import GheithOS.Exec.Load

/-!
# GheithOS.Exec.Visited — where `validate` reads

`ELF::validate` checks that `phnum` program headers of 32 bytes fit into the file behind `phoff`,
and then reads them at the distance `phentsize`.  It returns if and only if every header that its
loop visits lies in the file (`validate_returns_iff`); a header behind the end stops the kernel.
The loop visits the headers in their order, up to the first one that makes `validate` give up.
-/

namespace GheithOS.Exec

open Lib MemoryMapping Files Syscall

/-- A program header with which `validate` gives up. -/
def ProgramHeader.Rejected (size : ℕ) (ph : ProgramHeader) : Prop :=
  ph.IsLoad ∧ (validateAddress ph.vaddr ph.memsz 1 = false ∨ size < (ph.offset + ph.filesz) % 2 ^ 32)

/-- The `i`-th program header lies in a file of this size. -/
def ElfHeader.Inside (header : ElfHeader) (size i : ℕ) : Prop :=
  header.position i + ProgramHeader.size ≤ size

section Visited

variable {σ : Type} {io : BlockIO σ} {I : σ → Prop} {content : ℕ → Byte} {s : σ}

theorem validateLoop_cons_returns_iff (H : Serves io I content) (hI : I s) {i : ℕ} {is : List ℕ} {P : Prop}
    (hrest : ∀ loads found s, I s →
      ((∃ r s', validateLoop io (elfHeader content) is loads found s = .ok (r, s')) ↔ P))
    (loads : List ElfLoad) (found : Bool) :
    (∃ r s', validateLoop io (elfHeader content) (i :: is) loads found s = .ok (r, s')) ↔
      (elfHeader content).Inside io.sizeInBytes i ∧
        ((programHeader content i).Rejected io.sizeInBytes ∨ P) := by
  unfold validateLoop
  by_cases hin : (elfHeader content).Inside io.sizeInBytes i
  · obtain ⟨s₁, hread, hI₁⟩ := readThing_of_le H hI hin
    have hph : ProgramHeader.ofBytes (window content ((elfHeader content).position i) ProgramHeader.size) =
        programHeader content i := rfl
    rw [and_iff_right hin, bind_of_eq hread, hph]
    unfold ProgramHeader.Rejected ProgramHeader.IsLoad
    split_ifs with hskip hv hf
    · rw [hrest _ _ _ hI₁, or_iff_right]
      omega
    · exact iff_of_true ⟨_, _, rfl⟩ (.inl ⟨by omega, .inl hv⟩)
    · exact iff_of_true ⟨_, _, rfl⟩ (.inl ⟨by omega, .inr hf⟩)
    · rw [hrest _ _ _ hI₁, or_iff_right]
      exact fun h => h.2.elim hv hf
  · have hread := readThing_of_lt H hI (by decide) (Nat.lt_of_not_le hin)
    refine iff_of_false ?_ fun h => hin h.1
    rintro ⟨r, s', hr⟩
    rw [bind_of_error hread] at hr
    cases hr

/-- **The loop** over the headers from `a` on. -/
theorem validateLoop_returns_iff (H : Serves io I content) :
    ∀ (n a : ℕ) (loads : List ElfLoad) (found : Bool) (s : σ), I s →
      ((∃ r s', validateLoop io (elfHeader content) (List.range' a n) loads found s = .ok (r, s')) ↔
        ∀ i, a ≤ i → i < a + n →
          (∀ j, a ≤ j → j < i → ¬ (programHeader content j).Rejected io.sizeInBytes) →
          (elfHeader content).Inside io.sizeInBytes i) := by
  intro n
  induction n with
  | zero =>
    intro a loads found s hI
    refine iff_of_true ⟨_, _, rfl⟩ fun i hle hlt => ?_
    omega
  | succ n ih =>
    intro a loads found s hI
    rw [List.range'_succ,
      validateLoop_cons_returns_iff H hI (fun loads found s hI => ih (a + 1) loads found s hI)]
    constructor
    · rintro ⟨hin, hrest⟩ i hle hlt hvisited
      rcases hle.eq_or_lt with rfl | hlt'
      · exact hin
      · have hrest := hrest.resolve_left (hvisited a le_rfl hlt')
        exact hrest i hlt' (by omega) fun j hj => hvisited j (by omega)
    · intro h
      refine ⟨h a le_rfl (by omega) fun j hj hlt => by omega, ?_⟩
      by_cases hrej : (programHeader content a).Rejected io.sizeInBytes
      · exact .inl hrej
      · refine .inr fun i hle hlt hvisited => h i (by omega) (by omega) fun j hj hlt' => ?_
        rcases hj.eq_or_lt with rfl | hj'
        · exact hrej
        · exact hvisited j hj' hlt'

/-- **`validate` returns if and only if every program header that it visits lies in the file** (or
it gives up at the header of the file). -/
theorem validate_returns_iff (H : Serves io I content) (hI : I s) :
    (∃ r s', validate io s = .ok (r, s')) ↔
      io.sizeInBytes < ElfHeader.size ∨ (elfHeader content).isValid io.sizeInBytes = false ∨
        ∀ i < (elfHeader content).phnum, (∀ j < i, ¬ (programHeader content j).Rejected io.sizeInBytes) →
          (elfHeader content).Inside io.sizeInBytes i := by
  unfold validate
  by_cases hsmall : io.sizeInBytes < ElfHeader.size
  · rw [if_pos hsmall]
    exact iff_of_true ⟨_, _, rfl⟩ (.inl hsmall)
  obtain ⟨s₁, hread, hI₁⟩ := readThing_of_le H hI (show 0 + ElfHeader.size ≤ io.sizeInBytes by omega)
  have hheader : ElfHeader.ofBytes (window content 0 ElfHeader.size) = elfHeader content := rfl
  rw [if_neg hsmall, or_iff_right hsmall, bind_of_eq hread, hheader]
  cases hvalid : (elfHeader content).isValid io.sizeInBytes with
  | false => exact iff_of_true ⟨_, _, rfl⟩ (.inl rfl)
  | true =>
    rw [if_pos rfl, List.range_eq_range', validateLoop_returns_iff H _ _ _ _ _ hI₁]
    simp

end Visited

/-- The program header of the small program lies in its file. -/
theorem validate_returns_program : ∃ r s', validate (programFile 0x80000000) () = .ok (r, s') := by
  refine (validate_returns_iff (serves_ramFile _ 84 (by decide)) trivial).mpr (.inr (.inr ?_))
  have hone : (elfHeader fun i => (program 0x80000000).getD i 0#8).phnum = 1 := rfl
  intro i hi _
  obtain rfl : i = 0 := by omega
  exact Nat.le_refl 84

/-- A header for two program headers with a distance of 64 bytes. -/
def sparseProgram : List Byte :=
  [0x7f#8, 0x45#8, 0x4c#8, 0x46#8, 1#8, 1#8, 1#8, 0#8] ++ bytesOf 8 0 ++
    bytesOf 2 2 ++ bytesOf 2 3 ++ bytesOf 4 1 ++ bytesOf 4 0x80000000 ++ bytesOf 4 52 ++
      bytesOf 4 0 ++ bytesOf 4 0 ++
    bytesOf 2 52 ++ bytesOf 2 64 ++ bytesOf 2 2

/-- In a file of 116 bytes the check of the bounds accepts the two headers, and the second one is
read at the end of the file. -/
theorem validate_reads_behind_end :
    (ElfHeader.ofBytes sparseProgram).isValid 116 = true ∧
      validate (ramFile (fun i => sparseProgram.getD i 0#8) 116 (by decide)) () =
        .error .assertion := ⟨rfl, rfl⟩

end GheithOS.Exec
