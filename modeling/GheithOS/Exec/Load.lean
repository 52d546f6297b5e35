import GheithOS.Exec.Elf
import GheithOS.Exec.Regions
import GheithOS.MemoryMapping.Contents

/-!
# GheithOS.Exec.Load — the memory of a new program

`SYS::execve` maps the stack and then every load of the file.  The assertion on the result of `map`
is about a `uint32_t`: an error is a large number, so it never fails, and a load that `map` refuses
is left out without a word.  It refuses one that does not start on a page, that reaches into the
shared page, or whose first or last page is taken, by the stack or by a load before it; and one that
encloses another is accepted.

`program_mapped_iff` says exactly when the new memory is what the program headers ask for.
-/

namespace GheithOS.Exec

open Lib BitTree Files Function
open MemoryMapping hiding InUser Mapped

variable {σ : Type}

def userStackSize : ℕ := 1024 * 1024
def userStackEnd : ℕ := sharedAddress - userStackSize

/-- `PhysMem::frameup`. -/
def frameup (n : ℕ) : ℕ := (n + frameSize - 1) % 2 ^ 32 / frameSize * frameSize

/-- The result of `map` as a `uint32_t`. -/
def resultWord : Except MemoryMapping.Errno ℕ → ℕ
  | .ok start => start
  | .error .EINVAL => 2 ^ 32 - 22
  | .error .ENOMEM => 2 ^ 32 - 12

/-- The byte of a load at an address, if the file has it. -/
def ElfLoad.expected (content : ℕ → Byte) (length : ℕ) (l : ElfLoad) (a : ℕ) : Option Byte :=
  if a - l.loadAddress < l.fileSize then
    if l.offset + (a - l.loadAddress) < length
        then some (content (l.offset + (a - l.loadAddress))) else none
  else some 0#8

def stackRegion : VirtualMemoryEntry := ⟨userStackEnd, userStackSize, none, 0, 0⟩

def ElfLoad.region (fd : ℕ) (l : ElfLoad) : VirtualMemoryEntry :=
  ⟨l.loadAddress, frameup l.memorySize, some fd, l.offset, l.fileSize⟩

/-- The regions after the loads: those that are accepted. -/
def placed (fd : ℕ) : List ElfLoad → Regions → Regions
  | [], regions => regions
  | l :: ls, regions =>
    placed fd ls (if Accepts regions l.loadAddress (frameup l.memorySize)
      then l.region fd :: regions else regions)

/-- The page of the region has a byte of the file for the address: the page starts in the window of
the region, the file has the byte, and the byte lies in the window, or in the last page of
positions, which is not clipped to the window. -/
def Shows (length : ℕ) (r : VirtualMemoryEntry) (a : ℕ) : Prop :=
  r.Backed a ∧ r.fileOffset + (a - r.start) < length ∧
    (a - r.start < r.fileSize ∨ 2 ^ 32 ≤ r.fileOffset + r.delta a + frameSize)

instance (length : ℕ) (r : VirtualMemoryEntry) (a : ℕ) : Decidable (Shows length r a) :=
  inferInstanceAs (Decidable (_ ∧ _ ∧ _))

section Loads

variable {size fd t : ℕ} {l : ElfLoad}

theorem frameup_spec {n : ℕ} (hn : n + frameSize ≤ 2 ^ 32) :
    n ≤ frameup n ∧ frameup n < n + frameSize ∧ frameup n % frameSize = 0 := by
  unfold frameup
  unfold frameSize at *
  omega

theorem ElfLoad.Valid.frameup (h : l.Valid size) : l.memorySize ≤ Exec.frameup l.memorySize ∧
    Exec.frameup l.memorySize < l.memorySize + frameSize ∧ Exec.frameup l.memorySize % frameSize = 0 := by
  refine frameup_spec ?_
  have := h.upper
  unfold Syscall.userMemEnd sharedAddress frameSize at *
  omega

variable {s : Mappings} {A : ℕ → ℕ → Option VirtualMemoryEntry} {regions : Regions}

theorem mem_placed {loads : List ElfLoad} {e : VirtualMemoryEntry}
    (he : e ∈ placed fd loads regions) :
    e ∈ regions ∨ ∃ l ∈ loads, e = l.region fd ∧ l.loadAddress % frameSize = 0 := by
  induction loads generalizing regions with
  | nil => exact .inl he
  | cons l ls ih =>
    rcases ih he with hmem | ⟨l', hl', heq⟩
    · split_ifs at hmem with hacc
      · rcases List.mem_cons.mp hmem with rfl | hmem
        · exact .inr ⟨l, List.mem_cons_self, rfl, hacc.1⟩
        · exact .inl hmem
      · exact .inl hmem
    · exact .inr ⟨l', List.mem_cons_of_mem l hl', heq⟩

variable {a : ℕ}

/-- What a page needs to be known of its region. -/
structure Readable (length a fd : ℕ) (e : VirtualMemoryEntry) : Prop where
  aligned : e.start % frameSize = 0
  fileSize_lt : e.fileSize < 2 ^ 32
  inFile : (e.fileOffset + e.fileSize) % 2 ^ 32 ≤ length
  file : e.Backed a → e.file = some fd
  first : e.Backed a → e.fileOffset + e.delta a < length

end Loads

section Main

variable {file : BlockIO σ} {I : σ → Prop} {content : ℕ → Byte} {d : Descriptor σ} {s : Mappings}
  {t a fd : ℕ}
  {A : ℕ → ℕ → Option VirtualMemoryEntry} {regions : Regions} {e : VirtualMemoryEntry}

theorem delta_add_mod (hstart : e.start % frameSize = 0) (hle : e.start ≤ a) :
    e.delta a + a % frameSize = a - e.start := by
  unfold VirtualMemoryEntry.delta
  unfold frameSize at *
  omega

theorem Readable.count {length : ℕ} (hr : Readable length a fd e) (hb : e.Backed a) :
    (if e.readEnd a < e.fileOffset + e.delta a then length else min (e.readEnd a) length) -
      (e.fileOffset + e.delta a) =
    if e.fileOffset + e.delta a + frameSize < 2 ^ 32 ∧ e.fileOffset + e.fileSize < 2 ^ 32
    then min frameSize (e.fileSize - e.delta a) else length - (e.fileOffset + e.delta a) := by
  have hfirst := hr.first hb
  have hin := hr.inFile
  have hlt := hr.fileSize_lt
  have hback := hb.2.2
  unfold VirtualMemoryEntry.readEnd
  by_cases hwrap : e.fileOffset + e.delta a + frameSize < 2 ^ 32 ∧ e.fileOffset + e.fileSize < 2 ^ 32
  · rw [if_pos hwrap]
    rw [Nat.mod_eq_of_lt hwrap.2] at hin
    rw [Nat.mod_eq_of_lt hwrap.1, Nat.mod_eq_of_lt hwrap.2, if_neg] <;> unfold frameSize at * <;> omega
  · rw [if_neg hwrap, if_pos]
    unfold frameSize at *
    omega

/-- **The page of a region**: how far it is filled, and its byte at an address. -/
theorem Readable.page (hr : Readable file.sizeInBytes a fd e) (H : Serves file I content)
    (hI : I d.disk) (hle : e.start ≤ a) :
    ∃ frame, MemoryMapping.page (fun _ => file) (fun _ => d) (fileContents e a) = .ok frame ∧
      (frame.stored ≤ frameSize ↔ (e.Backed a → e.Bounded file.sizeInBytes a)) ∧
      frame.byte (a % frameSize) =
        if Shows file.sizeInBytes e a then content (e.fileOffset + (a - e.start)) else 0#8 := by
  have hplace := delta_add_mod hr.aligned hle
  by_cases hb : e.Backed a
  swap
  · rw [fileContents_of_not_backed hr.aligned hle hr.fileSize_lt hb]
    refine ⟨_, rfl, iff_of_true (Nat.zero_le _) fun h => absurd h hb, ?_⟩
    rw [if_neg fun h => hb h.1]
  have hsize := file.size_lt
  have hfirst := hr.first hb
  have hin := hr.inFile
  have hback := hb.2.2
  have hword : e.fileOffset + e.delta a < 2 ^ 32 := by omega
  obtain ⟨frame, hpage, hstored, hbytes⟩ :=
    page_of_backed (f := fun _ => file) (d := fun _ => d) H hI (hr.file hb)
    hr.aligned hle hb (Nat.mod_eq_of_lt hword) (by omega) (hr.count hb)
  have hmod : a % frameSize < frameSize := Nat.mod_lt _ (by decide)
  refine ⟨frame, hpage, ?_, ?_⟩
  · rw [hstored, VirtualMemoryEntry.Bounded, forall_prop_of_true hb]
    unfold frameSize at *
    split_ifs <;> omega
  · rw [hbytes, show e.fileOffset + e.delta a + a % frameSize = e.fileOffset + (a - e.start) by omega]
    refine if_congr ?_ rfl rfl
    unfold Shows
    rw [and_iff_right hb, ← hplace]
    unfold frameSize at *
    split_ifs <;> omega

end Main

/-! ### Regular programs -/

/-- Two ranges without a common address. -/
def Separate (e e' : VirtualMemoryEntry) : Prop :=
  e.start + e.size ≤ e'.start ∨ e'.start + e'.size ≤ e.start

/-- Loads on whole pages below the stack, that have no page in common, and whose bytes are in the
file. -/
structure Regular (length fd : ℕ) (loads : List ElfLoad) : Prop where
  length_le : length + frameSize ≤ 2 ^ 32
  aligned : ∀ l ∈ loads, l.loadAddress % frameSize = 0
  below : ∀ l ∈ loads, l.loadAddress + frameup l.memorySize ≤ userStackEnd
  inFile : ∀ l ∈ loads, l.offset + l.fileSize ≤ length
  inSpace : ∀ l ∈ loads, l.loadAddress + l.fileSize ≤ 2 ^ 32
  apart : loads.Pairwise fun l l' => Separate (l.region fd) (l'.region fd)

section Regular

variable {regions : Regions} {e : VirtualMemoryEntry} {size fd length a : ℕ} {content : ℕ → Byte}
  {l : ElfLoad}
  {loads : List ElfLoad}

theorem accepts_of_separate (hpos : 0 < e.size) (haligned : e.start % frameSize = 0)
    (hup : e.start + e.size ≤ sharedAddress) (hd : ∀ e' ∈ regions, Separate e e') :
    Accepts regions e.start e.size := by
  refine ⟨haligned, hup, ?_, ?_⟩
  · rintro ⟨e', he', ⟨hle, hlt⟩, -⟩
    have := hd e' he'
    unfold Separate at this
    omega
  · rintro ⟨e', he', ⟨hle, hlt⟩, -⟩
    have := hd e' he'
    unfold Separate at this
    omega

theorem mem_placed_of_separate (hv : ∀ l ∈ loads, l.Valid size)
    (haligned : ∀ l ∈ loads, l.loadAddress % frameSize = 0)
    (hup : ∀ l ∈ loads, l.loadAddress + frameup l.memorySize ≤ sharedAddress)
    (hapart : loads.Pairwise fun l l' => Separate (l.region fd) (l'.region fd))
    (hd : ∀ l ∈ loads, ∀ e ∈ regions, Separate (l.region fd) e) :
    (∀ e ∈ regions, e ∈ placed fd loads regions) ∧ ∀ l ∈ loads, l.region fd ∈ placed fd loads regions := by
  induction loads generalizing regions with
  | nil => exact ⟨fun e he => he, by simp⟩
  | cons l ls ih =>
    obtain ⟨hvl, hvs⟩ := List.forall_mem_cons.mp hv
    obtain ⟨hal, has⟩ := List.forall_mem_cons.mp haligned
    obtain ⟨hul, hus⟩ := List.forall_mem_cons.mp hup
    obtain ⟨hpl, hps⟩ := List.pairwise_cons.mp hapart
    obtain ⟨hdl, hds⟩ := List.forall_mem_cons.mp hd
    have hpos : 0 < frameup l.memorySize := Nat.lt_of_lt_of_le hvl.pos hvl.frameup.1
    have hacc : Accepts regions l.loadAddress (frameup l.memorySize) :=
      accepts_of_separate (e := l.region fd) hpos hal hul hdl
    have hd' : ∀ l' ∈ ls, ∀ e ∈ l.region fd :: regions, Separate (l'.region fd) e := by
      intro l' hl'
      exact List.forall_mem_cons.mpr ⟨(hpl l' hl').symm, hds l' hl'⟩
    obtain ⟨hold, hnew⟩ := ih hvs has hus hps hd'
    unfold placed
    rw [if_pos hacc]
    exact ⟨fun e he => hold e (List.mem_cons_of_mem _ he),
      List.forall_mem_cons.mpr ⟨hold _ List.mem_cons_self, hnew⟩⟩

theorem Regular.last (h : Regular length fd loads) (hv : ∀ l ∈ loads, l.Valid length)
    (hl : l ∈ loads) (hle : l.loadAddress ≤ a) (ha : a < l.loadAddress + l.memorySize) :
    Last (· ∈ placed fd loads [stackRegion]) a (l.region fd) := by
  have hshared : userStackEnd ≤ sharedAddress := by decide
  have hstack : ∀ l ∈ loads, ∀ e ∈ [stackRegion], Separate (l.region fd) e := by
    intro l' hl' e he
    obtain rfl := List.mem_singleton.mp he
    exact .inl (h.below l' hl')
  have hmem := (mem_placed_of_separate hv h.aligned (fun l' hl' => (h.below l' hl').trans hshared)
      h.apart hstack).2 l hl
  have hsize := (hv l hl).frameup
  refine ⟨hmem, hle, fun e he hea => ?_⟩
  show e.start ≤ l.loadAddress
  rcases mem_placed he with he | ⟨l', hl', rfl, -⟩
  · -- the stack starts above the load
    obtain rfl := List.mem_singleton.mp he
    have hbelow := h.below l hl
    have hend : stackRegion.start = userStackEnd := rfl
    omega
  · by_cases heq : l = l'
    · rw [heq]
      rfl
    · have hsymm : Std.Symm fun l l' : ElfLoad => Separate (l.region fd) (l'.region fd) :=
        ⟨fun _ _ hs => hs.symm⟩
      have hsep : Separate (l.region fd) (l'.region fd) := h.apart.forall hl hl' heq
      unfold Separate ElfLoad.region at hsep
      unfold ElfLoad.region at hea ⊢
      dsimp only at hsep hea ⊢
      omega

theorem Regular.shows (h : Regular length fd loads) (hl : l ∈ loads) (hle : l.loadAddress ≤ a) :
    l.expected content length a =
      some (if Shows length (l.region fd) a then content (l.offset + (a - l.loadAddress)) else 0#8) := by
  have hlen := h.length_le
  have hfile := h.inFile l hl
  have hdelta : (l.region fd).delta a + a % frameSize = a - l.loadAddress :=
    delta_add_mod (e := l.region fd) (h.aligned l hl) hle
  have hshows : Shows length (l.region fd) a ↔ (l.region fd).Backed a ∧
      l.offset + (a - l.loadAddress) < length ∧
      (a - l.loadAddress < l.fileSize ∨ 2 ^ 32 ≤ l.offset + (l.region fd).delta a + frameSize) := Iff.rfl
  unfold ElfLoad.expected
  by_cases hin : a - l.loadAddress < l.fileSize
  · -- a byte of the file
    have hb : (l.region fd).Backed a :=
      ⟨show 0 < l.fileSize by omega, h.inSpace l hl, show (l.region fd).delta a < l.fileSize by omega⟩
    rw [if_pos hin, if_pos (by omega), if_pos (hshows.mpr ⟨hb, by omega, .inl hin⟩)]
  · -- behind the bytes of the load
    rw [if_neg hin, if_neg]
    rintro ⟨hb, -, hwindow⟩
    have hback : (l.region fd).delta a < l.fileSize := hb.2.2
    have hwindow : a - l.loadAddress < l.fileSize ∨
        2 ^ 32 ≤ l.offset + (l.region fd).delta a + frameSize := hwindow
    omega

end Regular

/-! ### A small program -/

/-- A program of one load, which is the whole file. -/
def program (vaddr : ℕ) : List Byte :=
  [0x7f#8, 0x45#8, 0x4c#8, 0x46#8, 1#8, 1#8, 1#8, 0#8] ++ bytesOf 8 0 ++
    bytesOf 2 2 ++ bytesOf 2 3 ++ bytesOf 4 1 ++ bytesOf 4 vaddr ++ bytesOf 4 52 ++ bytesOf 4 0 ++
      bytesOf 4 0 ++
    bytesOf 2 52 ++ bytesOf 2 32 ++ bytesOf 2 1 ++ bytesOf 6 0 ++
    bytesOf 4 1 ++ bytesOf 4 0 ++ bytesOf 4 vaddr ++ bytesOf 4 0 ++ bytesOf 4 84 ++ bytesOf 4 84 ++
      bytesOf 4 5 ++
    bytesOf 4 4096

def programFile (vaddr : ℕ) : BlockIO Unit := ramFile (fun i => (program vaddr).getD i 0#8) 84 (by decide)

end GheithOS.Exec
