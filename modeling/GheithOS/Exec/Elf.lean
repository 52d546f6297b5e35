import GheithOS.Syscall.Memory

/-!
# GheithOS.Exec.Elf — `elf.cc`

`ELF::validate` reads the header of the file and then, in a loop, its program headers; the loads
that it returns are those of type 1 with a size in memory.  What the headers of a file are is a
matter of its bytes (`programHeaders`); the code reads just these, and stops the kernel where one of
them lies behind the end.
-/

namespace GheithOS.Exec

open Lib MemoryMapping Files Syscall

/-- The number in `n` bytes of a structure. -/
def field (bytes : List Byte) (position n : ℕ) : ℕ := littleEndian ((bytes.drop position).take n)

/-- The fields of `ElfHeader` that are read. -/
structure ElfHeader where
  magic0 : ℕ
  magic1 : ℕ
  magic2 : ℕ
  magic3 : ℕ
  cls : ℕ
  encoding : ℕ
  headerVersion : ℕ
  abi : ℕ
  type : ℕ
  machine : ℕ
  version : ℕ
  entry : ℕ
  phoff : ℕ
  phentsize : ℕ
  phnum : ℕ
  deriving DecidableEq

def ElfHeader.size : ℕ := 52

def ElfHeader.ofBytes (bytes : List Byte) : ElfHeader where
  magic0 := field bytes 0 1
  magic1 := field bytes 1 1
  magic2 := field bytes 2 1
  magic3 := field bytes 3 1
  cls := field bytes 4 1
  encoding := field bytes 5 1
  headerVersion := field bytes 6 1
  abi := field bytes 7 1
  type := field bytes 16 2
  machine := field bytes 18 2
  version := field bytes 20 4
  entry := field bytes 24 4
  phoff := field bytes 28 4
  phentsize := field bytes 42 2
  phnum := field bytes 44 2

/-- The fields of `ProgramHeader` that are read. -/
structure ProgramHeader where
  type : ℕ
  offset : ℕ
  vaddr : ℕ
  filesz : ℕ
  memsz : ℕ
  deriving DecidableEq

def ProgramHeader.size : ℕ := 32

def ProgramHeader.ofBytes (bytes : List Byte) : ProgramHeader where
  type := field bytes 0 4
  offset := field bytes 4 4
  vaddr := field bytes 8 4
  filesz := field bytes 16 4
  memsz := field bytes 20 4

structure ElfLoad where
  offset : ℕ
  fileSize : ℕ
  loadAddress : ℕ
  memorySize : ℕ
  deriving DecidableEq

structure ElfLoadList where
  entryPoint : ℕ
  loads : List ElfLoad
  deriving DecidableEq

variable {σ : Type}

/-- `BlockIO::read` of a structure. -/
def readThing (io : BlockIO σ) (offset size : ℕ) : Prog Halt σ (List Byte) := do
  let (cnt, bytes) ← io.readAll offset size
  assert (cnt = size)
  return bytes

/-- The checks of the header. -/
def ElfHeader.isValid (header : ElfHeader) (size : ℕ) : Bool :=
  header.magic0 = 0x7f ∧ header.magic1 = 0x45 ∧ header.magic2 = 0x4c ∧ header.magic3 = 0x46 ∧
    header.cls = 1 ∧ header.encoding = 1 ∧ header.headerVersion = 1 ∧ header.abi = 0 ∧
    header.type = 2 ∧ header.machine = 3 ∧ header.version = 1 ∧
    validateAddress header.entry 0 1 = true ∧
    checkBounds header.phoff header.phnum ProgramHeader.size 0 ((size + 1) % 2 ^ 32) = true

/-- Where the loop reads the `i`-th program header. -/
def ElfHeader.position (header : ElfHeader) (i : ℕ) : ℕ := (header.phoff + i * header.phentsize) % 2 ^ 32

/-- The loop over the program headers. -/
def validateLoop (io : BlockIO σ) (header : ElfHeader) :
    List ℕ → List ElfLoad → Bool → Prog Halt σ (Option ElfLoadList)
  | [], loads, entryPointFound => return if entryPointFound then some ⟨header.entry, loads⟩ else none
  | i :: is, loads, entryPointFound => do
    let bytes ← readThing io (header.position i) ProgramHeader.size
    let ph := ProgramHeader.ofBytes bytes
    if ph.type ≠ 1 ∨ ph.memsz = 0 then validateLoop io header is loads entryPointFound
    else if validateAddress ph.vaddr ph.memsz 1 = false then return none
    else if (ph.offset + ph.filesz) % 2 ^ 32 > io.sizeInBytes then return none
    else
      validateLoop io header is (loads ++ [⟨ph.offset, ph.filesz, ph.vaddr, ph.memsz⟩])
        (entryPointFound || decide (header.entry ≥ ph.vaddr ∧
          header.entry < (ph.vaddr + ph.memsz) % 2 ^ 32))

/-- `ELF::validate`. -/
def validate (io : BlockIO σ) : Prog Halt σ (Option ElfLoadList) := do
  if io.sizeInBytes < ElfHeader.size then return none
  else
    let bytes ← readThing io 0 ElfHeader.size
    let header := ElfHeader.ofBytes bytes
    if header.isValid io.sizeInBytes then validateLoop io header (List.range header.phnum) [] false
    else return none

/-! ### The headers of a file -/

section Headers

variable (content : ℕ → Byte)

/-- The header of a file. -/
def elfHeader : ElfHeader := ElfHeader.ofBytes (window content 0 ElfHeader.size)

/-- The `i`-th program header of a file. -/
def programHeader (i : ℕ) : ProgramHeader :=
  ProgramHeader.ofBytes (window content ((elfHeader content).position i) ProgramHeader.size)

/-- The program headers of a file. -/
def programHeaders : List ProgramHeader :=
  (List.range (elfHeader content).phnum).map (programHeader content)

end Headers

/-- A program header that is to be loaded. -/
def ProgramHeader.IsLoad (ph : ProgramHeader) : Prop := ph.type = 1 ∧ 0 < ph.memsz

instance (ph : ProgramHeader) : Decidable ph.IsLoad := inferInstanceAs (Decidable (_ ∧ _))

def ProgramHeader.load (ph : ProgramHeader) : ElfLoad := ⟨ph.offset, ph.filesz, ph.vaddr, ph.memsz⟩

/-- What `validate` has checked of a load in a file of this size. -/
structure ElfLoad.Valid (size : ℕ) (l : ElfLoad) : Prop where
  pos : 0 < l.memorySize
  lower : userMemStart ≤ l.loadAddress
  upper : l.loadAddress + l.memorySize < userMemEnd
  inFile : (l.offset + l.fileSize) % 2 ^ 32 ≤ size
  fileSize_lt : l.fileSize < 2 ^ 32

section Soundness

variable {io : BlockIO σ} {I : σ → Prop} {content : ℕ → Byte} {s : σ}

theorem field_lt (bytes : List Byte) (position : ℕ) : field bytes position 4 < 2 ^ 32 := by
  have hlen : ((bytes.drop position).take 4).length ≤ 4 := List.length_take_le _ _
  calc field bytes position 4 < 256 ^ ((bytes.drop position).take 4).length := littleEndian_lt _
    _ ≤ 256 ^ 4 := Nat.pow_le_pow_right (by decide) hlen

theorem readThing_ends (H : Serves io I content) (hI : I s) {offset size : ℕ} (hsize : 0 < size) :
    Ends (fun _ => True) (readThing io offset size) s fun bytes s' => bytes =
      window content offset size ∧ I s' := by
  unfold readThing
  by_cases ho : offset ≤ io.sizeInBytes
  · refine ends_bind (((H.readAll hI size ho).weaken fun _ h => h.elim).mono ?_)
    rintro _ s' ⟨rfl, hI'⟩
    refine ends_bind (ends_of_assert fun hcount => ends_pure ⟨?_, hI'⟩)
    rw [Int.ofNat_inj.mp hcount]
  · have hnone : io.readAll offset size s = .ok ((-1, []), s) := readAll_of_lt (by omega) (by omega) s
    refine ends_bind (ends_of_eq hnone (ends_bind (ends_of_assert fun hcount => ?_)))
    omega

theorem readThing_of_le (H : Serves io I content) (hI : I s) {offset size : ℕ}
    (h : offset + size ≤ io.sizeInBytes) :
    ∃ s', readThing io offset size s = .ok (window content offset size, s') ∧ I s' := by
  have hmin : min size (io.sizeInBytes - offset) = size := by omega
  obtain ⟨r, s', hr, rfl, hI'⟩ := (H.readAll hI size (Nat.le_of_add_right_le h)).returns fun _ h => h.elim
  refine ⟨s', ?_, hI'⟩
  unfold readThing
  rw [bind_of_eq hr]
  dsimp only
  rw [hmin, assert, if_pos rfl]
  rfl

/-- A structure that does not lie in the file fails the assertion. -/
theorem readThing_of_lt (H : Serves io I content) (hI : I s) {offset size : ℕ} (hsize : 0 < size)
    (h : io.sizeInBytes < offset + size) : readThing io offset size s = .error .assertion := by
  have hfail : ∀ (cnt : ℤ) (bytes : List Byte) (s' : σ), io.readAll offset size s = .ok ((cnt, bytes), s') →
      cnt ≠ size → readThing io offset size s = .error .assertion := by
    intro cnt bytes s' hr hne
    unfold readThing
    rw [bind_of_eq hr]
    dsimp only
    rw [assert, if_neg hne]
    rfl
  by_cases ho : offset ≤ io.sizeInBytes
  · obtain ⟨r, s', hr, rfl, -⟩ := (H.readAll hI size ho).returns fun _ h => h.elim
    exact hfail _ _ _ hr (by omega)
  · exact hfail _ _ _ (readAll_of_lt (by omega) (by omega) s) (by omega)

theorem load_valid {ph : ProgramHeader} {size : ℕ} (hload : ph.IsLoad)
    (hv : validateAddress ph.vaddr ph.memsz 1 = true) (hf : (ph.offset + ph.filesz) % 2 ^ 32 ≤ size)
    (hvaddr : ph.vaddr < 2 ^ 32) (hfilesz : ph.filesz < 2 ^ 32) : ph.load.Valid size := by
  obtain ⟨hself, -, hlast⟩ := (validateAddress_eq_true hvaddr Nat.one_pos).mp hv
  rw [Nat.mul_one] at hlast
  exact ⟨hload.2, (hself hload.2).1, hlast, hf, hfilesz⟩

/-- The entry point of the file lies in this load, as the loop finds out. -/
def ProgramHeader.Covers (entry : ℕ) (ph : ProgramHeader) : Prop :=
  ph.vaddr ≤ entry ∧ entry < (ph.vaddr + ph.memsz) % 2 ^ 32

theorem validateLoop_ends (H : Serves io I content) {is : List ℕ} {loads : List ElfLoad}
    {found : Bool} (hI : I s) :
    Ends (fun _ => True) (validateLoop io (elfHeader content) is loads found) s fun r s' => I s' ∧
      ∀ list, r = some list →
      list.loads = loads ++ ((is.map (programHeader content)).filter (·.IsLoad)).map ProgramHeader.load ∧
      (∀ ph ∈ is.map (programHeader content), ph.IsLoad → ph.load.Valid io.sizeInBytes) ∧
      list.entryPoint = (elfHeader content).entry ∧
      (found = true ∨ ∃ ph ∈ is.map (programHeader content), ph.IsLoad ∧
        ph.Covers (elfHeader content).entry) := by
  induction is generalizing s loads found with
  | nil =>
    refine ends_pure ⟨hI, ?_⟩
    intro list hlist
    split_ifs at hlist with hfound
    obtain rfl := Option.some.inj hlist
    exact ⟨by simp, by simp, rfl, .inl hfound⟩
  | cons i is ih =>
    unfold validateLoop
    refine ends_bind ((readThing_ends H hI (by decide)).mono ?_)
    rintro _ s₁ ⟨rfl, hI₁⟩
    have hph : ProgramHeader.ofBytes (window content ((elfHeader content).position i) ProgramHeader.size) =
        programHeader content i := rfl
    dsimp only
    rw [hph]
    split_ifs with hskip hv hf
    · -- no load
      have hno : ¬ (programHeader content i).IsLoad := by
        unfold ProgramHeader.IsLoad
        omega
      refine (ih hI₁).mono fun r s' h => ⟨h.1, fun list hlist => ?_⟩
      obtain ⟨hloads, hvalid, hentry, hcover⟩ := h.2 list hlist
      rw [List.map_cons, List.filter_cons_of_neg (by simpa using hno)]
      refine ⟨hloads, List.forall_mem_cons.mpr ⟨fun hl => absurd hl hno, hvalid⟩, hentry,
        hcover.imp_right ?_⟩
      exact fun ⟨ph, hmem, hc⟩ => ⟨ph, List.mem_cons_of_mem _ hmem, hc⟩
    · exact ends_pure ⟨hI₁, by simp⟩
    · exact ends_pure ⟨hI₁, by simp⟩
    · have hload : (programHeader content i).IsLoad := by
        unfold ProgramHeader.IsLoad
        omega
      refine (ih hI₁).mono fun r s' h => ⟨h.1, fun list hlist => ?_⟩
      obtain ⟨hloads, hvalid, hentry, hcover⟩ := h.2 list hlist
      rw [List.map_cons, List.filter_cons_of_pos (by simpa using hload), List.map_cons]
      refine ⟨?_, List.forall_mem_cons.mpr ⟨fun _ => ?_, hvalid⟩, hentry, ?_⟩
      · rw [hloads, List.append_assoc]
        rfl
      · exact load_valid hload (by simpa using hv) (by omega) (field_lt _ _) (field_lt _ _)
      · rw [Bool.or_eq_true, decide_eq_true_iff, or_assoc] at hcover
        rcases hcover with hfound | hhere | ⟨ph, hmem, hc⟩
        · exact .inl hfound
        · exact .inr ⟨_, List.mem_cons_self, hload, hhere⟩
        · exact .inr ⟨ph, List.mem_cons_of_mem _ hmem, hc⟩

variable {list : ElfLoadList} {s' : σ}

/-- **What `validate` accepts**: its loads are the program headers of the file that are to be
loaded, each of them was checked, and one of them has the entry point. -/
theorem validate_accepts (H : Serves io I content) (hI : I s)
    (h : validate io s = .ok (some list, s')) :
    I s' ∧ list.loads = ((programHeaders content).filter (·.IsLoad)).map ProgramHeader.load ∧
      (∀ ph ∈ programHeaders content, ph.IsLoad → ph.load.Valid io.sizeInBytes) ∧
      list.entryPoint = (elfHeader content).entry ∧
      ∃ ph ∈ programHeaders content, ph.IsLoad ∧ ph.Covers (elfHeader content).entry := by
  have hends : Ends (fun _ => True) (validate io) s fun r s' => I s' ∧ ∀ list, r = some list →
      list.loads = ((programHeaders content).filter (·.IsLoad)).map ProgramHeader.load ∧
      (∀ ph ∈ programHeaders content, ph.IsLoad → ph.load.Valid io.sizeInBytes) ∧
      list.entryPoint = (elfHeader content).entry ∧
      ∃ ph ∈ programHeaders content, ph.IsLoad ∧ ph.Covers (elfHeader content).entry := by
    unfold validate
    split_ifs
    · exact ends_pure ⟨hI, by simp⟩
    · refine ends_bind ((readThing_ends H hI (by decide)).mono ?_)
      rintro _ s₁ ⟨rfl, hI₁⟩
      have hheader : ElfHeader.ofBytes (window content 0 ElfHeader.size) = elfHeader content := rfl
      dsimp only
      rw [hheader]
      split_ifs
      · refine (validateLoop_ends H hI₁).mono fun r s' h => ⟨h.1, fun list hlist => ?_⟩
        obtain ⟨hloads, hvalid, hentry, hcover⟩ := h.2 list hlist
        exact ⟨hloads, hvalid, hentry, hcover.resolve_left (by decide)⟩
      · exact ends_pure ⟨hI₁, by simp⟩
  exact ⟨(hends.ok h).1, (hends.ok h).2 list rfl⟩

end Soundness

end GheithOS.Exec
