import GheithOS.Exec.Visited

/-!
# GheithOS.Exec.Accepted — the files that `validate` accepts

Every quantity that `ELF::validate` looks at is a 32-bit field of the file.  The address range of a
load goes through `validate_address`, which sees an overflow; the file range is compared with the
size of the file as a wrapped sum.  So a list that is returned is what it should be, exactly if no
such sum has wrapped (`validate_sound_iff`).
-/

namespace GheithOS.Exec

open Lib MemoryMapping Files Syscall

/-- **A list of loads that fits its file**: the visited program headers that are to be loaded, in
order; their ranges lie in the file and in user memory, and one of them has the entry point. -/
structure Fits (content : ℕ → Byte) (size : ℕ) (list : ElfLoadList) : Prop where
  loads : list.loads = ((programHeaders content).filter (·.IsLoad)).map ProgramHeader.load
  inFile : ∀ l ∈ list.loads, l.offset + l.fileSize ≤ size
  inUser : ∀ l ∈ list.loads, userMemStart ≤ l.loadAddress ∧ l.loadAddress + l.memorySize ≤ userMemEnd
  entryPoint : list.entryPoint = (elfHeader content).entry
  entry : ∃ l ∈ list.loads, l.loadAddress ≤ list.entryPoint ∧ list.entryPoint < l.loadAddress + l.memorySize

theorem forall_loads {content : ℕ → Byte} {P : ElfLoad → Prop} :
    (∀ l ∈ ((programHeaders content).filter (·.IsLoad)).map ProgramHeader.load, P l) ↔
      ∀ ph ∈ programHeaders content, ph.IsLoad → P ph.load := by
  simp only [List.forall_mem_map, List.mem_filter, decide_eq_true_eq, and_imp]

section Sound

variable {σ : Type} {io : BlockIO σ} {I : σ → Prop} {content : ℕ → Byte} {s s' : σ} {list : ElfLoadList}

/-- **`validate` is sound** for a file that it accepts, if and only if no load has a file range
whose end is beyond `2^32`. -/
theorem validate_sound_iff (H : Serves io I content) (hI : I s) (h : validate io s = .ok (some list, s')) :
    Fits content io.sizeInBytes list ↔
      ∀ ph ∈ programHeaders content, ph.IsLoad → ph.offset + ph.filesz < 2 ^ 32 := by
  have hsize := io.size_lt
  obtain ⟨-, hloads, hvalid, hentry, ph, hmem, hload, hcover⟩ := validate_accepts H hI h
  constructor
  · intro hfits
    have hfile := hfits.inFile
    rw [hloads, forall_loads] at hfile
    intro ph hmem hload
    exact Nat.lt_of_le_of_lt (hfile ph hmem hload) hsize
  · intro hwrap
    refine ⟨hloads, ?_, ?_, hentry, ?_⟩
    · rw [hloads, forall_loads]
      intro ph hmem hload
      have hin := (hvalid ph hmem hload).inFile
      have hlt : ph.load.offset + ph.load.fileSize < 2 ^ 32 := hwrap ph hmem hload
      rwa [Nat.mod_eq_of_lt hlt] at hin
    · rw [hloads, forall_loads]
      intro ph hmem hload
      have hv := hvalid ph hmem hload
      exact ⟨hv.lower, hv.upper.le⟩
    · have hmem' : ph.load ∈ list.loads := by
        rw [hloads]
        exact List.mem_map_of_mem (List.mem_filter.mpr ⟨hmem, decide_eq_true hload⟩)
      have hlt : ph.vaddr + ph.memsz < 2 ^ 32 := (hvalid ph hmem hload).upper.trans (by decide)
      refine ⟨ph.load, hmem', ?_⟩
      rw [hentry]
      unfold ProgramHeader.Covers at hcover
      rwa [Nat.mod_eq_of_lt hlt] at hcover

end Sound

/-- The small program is accepted with its one load. -/
theorem validate_sound_program :
    validate (programFile 0x80000000) () = .ok (some ⟨0x80000000, [⟨0, 84, 0x80000000, 84⟩]⟩, ()) ∧
      Fits (fun i => (program 0x80000000).getD i 0#8) 84 ⟨0x80000000, [⟨0, 84, 0x80000000, 84⟩]⟩ := by
  have hvalidate : validate (programFile 0x80000000) () =
      .ok (some ⟨0x80000000, [⟨0, 84, 0x80000000, 84⟩]⟩, ()) := rfl
  have hheaders : programHeaders (fun i => (program 0x80000000).getD i 0#8) =
      [⟨1, 0, 0x80000000, 84, 84⟩] := rfl
  refine ⟨hvalidate, (validate_sound_iff (serves_ramFile _ 84 (by decide)) trivial hvalidate).mpr ?_⟩
  rw [hheaders]
  intro ph hmem _
  obtain rfl := List.mem_singleton.mp hmem
  decide

/-- The small program, with a load whose file range starts 16 bytes below `2^32` and has 32
bytes. -/
def wrappedProgram : List Byte :=
  (program 0x80000000).take 56 ++ bytesOf 4 0xFFFFFFF0 ++ bytesOf 4 0x80000000 ++ bytesOf 4 0 ++
    bytesOf 4 32 ++
    bytesOf 4 84 ++ bytesOf 4 5 ++ bytesOf 4 4096

/-- **A load that lies outside of its file is accepted**: the end of its range is 16 after the
overflow. -/
theorem validate_accepts_wrapped :
    validate (ramFile (fun i => wrappedProgram.getD i 0#8) 84 (by decide)) () =
      .ok (some ⟨0x80000000, [⟨0xFFFFFFF0, 32, 0x80000000, 84⟩]⟩, ()) ∧
    ¬ Fits (fun i => wrappedProgram.getD i 0#8) 84 ⟨0x80000000, [⟨0xFFFFFFF0, 32, 0x80000000, 84⟩]⟩ := by
  refine ⟨rfl, fun h => ?_⟩
  exact absurd (h.inFile _ List.mem_cons_self) (by decide)

end GheithOS.Exec
