import GheithOS.MemoryMapping.Contents

/-!
# GheithOS.MemoryMapping.Paging — the pages of a mapped file

`simple_mmap` and `SYS::execve` map files, and a fault in such an entry is answered with a page of
the file.  The page, the window of the entry into the file and the file itself are clipped one after
the other, with sums of 32 bits.  `supplies_iff` says for which entries the page is the right one:
the page of a large file is empty if the entry lies so high that `start + file_size` leaves the
address space; a window that leaves the 32-bit positions of a file shows bytes from the front of the
file, or is read to the end of the file, over the end of the frame; and the last page of positions
is not clipped to the window.  Where entries overlap, the page is the one of the entry that starts
last, and it has to be the same page.
-/

namespace GheithOS.MemoryMapping

open Lib BitTree Files Function

/-- What the callers of `map` pass for a file: `simple_mmap` an offset inside the file and the
length of the file, `SYS::execve` what `ELF::validate` has accepted. -/
inductive Passed (length : ℕ) : ℕ → ℕ → Prop
  | simpleMmap {fileOffset : ℕ} (aligned : fileOffset % frameSize = 0) (inside : fileOffset < length) :
    Passed length fileOffset length
  | execve {fileOffset fileSize : ℕ} (header : 0 < length) (offset_lt : fileOffset < 2 ^ 32)
    (size_lt : fileSize < 2 ^ 32) (inFile : (fileOffset + fileSize) % 2 ^ 32 ≤ length) :
    Passed length fileOffset fileSize

section Files

-- the file of a descriptor, and the lengths of the files
variable (node length : ℕ → ℕ)

/-- What `map` is called with: anonymous memory has no window, and one with a file is that of a
caller. -/
def Window : Option ℕ → ℕ → ℕ → Prop
  | none, fileOffset, fileSize => fileOffset = 0 ∧ fileSize = 0
  | some fd, fileOffset, fileSize => Passed (length (node fd)) fileOffset fileSize

/-- The calls of `map` are those of the callers. -/
def Callers (_ : Mappings) : MappingOp → Prop
  | .map _ _ _ file fileOffset fileSize => Window node length file fileOffset fileSize
  | _ => True

/-- Files with any contents, and descriptors with any offsets. -/
structure OpenFiles (σ : Type) where
  file : ℕ → BlockIO σ
  inv : σ → Prop
  content : ℕ → ℕ → Byte
  descriptor : ℕ → Descriptor σ
  serves : ∀ i, Serves (file i) inv (content i)
  disk : ∀ fd, inv (descriptor fd).disk
  size : ∀ i, (file i).sizeInBytes = length i

end Files

namespace VirtualMemoryEntry

/-- The byte that the entry asks for at an address. -/
def expected (content : ℕ → Byte) (length : ℕ) (e : VirtualMemoryEntry) (b : ℕ) : Byte :=
  if b - e.start < e.fileSize ∧ e.fileOffset + (b - e.start) < length
  then content (e.fileOffset + (b - e.start)) else 0#8

/-- How many bytes of the file the entry asks for on the page of an address. -/
def asked (length : ℕ) (e : VirtualMemoryEntry) (a : ℕ) : ℕ :=
  min frameSize (min (e.fileSize - e.delta a) (length - (e.fileOffset + e.delta a)))

/-- The 32 bits are enough for the page of an address: the entry does not leave the address space
with the bytes of the file, the position in the file is a word and not the highest one, the end of
the page is one too where the file goes on behind the window, and so is the end of the window where
the file goes on behind the page. -/
def Exact (length : ℕ) (e : VirtualMemoryEntry) (a : ℕ) : Prop :=
  e.delta a < e.fileSize →
    (e.fileOffset + e.delta a < length → e.start + e.fileSize ≤ 2 ^ 32) ∧
    (e.start + e.fileSize ≤ 2 ^ 32 → e.fileOffset + e.delta a < 2 ^ 32 - 1 ∧
      (e.fileOffset + e.fileSize < length → e.fileOffset + e.delta a + frameSize < 2 ^ 32) ∧
      e.Bounded length a)

/-- The position of the page is a word, and the end of the page or of the window is not. -/
def Open (e : VirtualMemoryEntry) (a : ℕ) : Prop :=
  e.fileOffset + e.delta a < 2 ^ 32 ∧
    (2 ^ 32 ≤ e.fileOffset + e.delta a + frameSize ∨ 2 ^ 32 ≤ e.fileOffset + e.fileSize)

instance (e : VirtualMemoryEntry) (a : ℕ) : Decidable (e.Open a) := inferInstanceAs (Decidable (_ ∧ _))

/-- The page of `e'` shows what `e` asks for.  Where that is nothing, `e'` has no byte for the page.
Otherwise it has the same file at the same position, and as many bytes of it. -/
structure Instead (node length : ℕ → ℕ) (fd : ℕ) (e e' : VirtualMemoryEntry) (a : ℕ) : Prop where
  nothing : e.asked (length (node fd)) a = 0 → e'.Backed a → e'.fileOffset + e'.delta a < 2 ^ 32 - 1 ∧
    ∀ fd', e'.file = some fd' → length (node fd') ≤ e'.fileOffset + e'.delta a
  something : 0 < e.asked (length (node fd)) a →
    e'.Backed a ∧ (∃ fd', e'.file = some fd' ∧ node fd' = node fd) ∧
    (e'.fileOffset + e'.delta a) % 2 ^ 32 = e.fileOffset + e.delta a ∧
    (e'.Open a → length (node fd) ≤ e.fileOffset + e.delta a + e.asked (length (node fd)) a) ∧
    (¬ e'.Open a →
      min frameSize
        (min (e'.fileSize - e'.delta a) (length (node fd) - (e.fileOffset + e.delta a))) =
      e.asked (length (node fd)) a)

end VirtualMemoryEntry

/-- What was read into the frame lies in it, and is what the entry asks for. -/
def Filled.IsPage (content : ℕ → Byte) (length : ℕ) (e : VirtualMemoryEntry) (a : ℕ)
    (frame : Filled) : Prop :=
  frame.stored ≤ frameSize ∧
    ∀ x < frameSize, frame.byte x = e.expected content length (a / frameSize * frameSize + x)

/-- `check_address` supplies the page that the entry with the file of `fd` asks for, whatever the
files hold and wherever the offsets of the descriptors stand. -/
def Supplies (node length : ℕ → ℕ) (s : Mappings) (t fd : ℕ) (e : VirtualMemoryEntry) (a : ℕ) : Prop :=
  (checkAddress s t a true).isMapped = true ∧ ∀ (σ : Type) (o : OpenFiles length σ),
    ∃ frame, page (fun fd => o.file (node fd)) o.descriptor (checkAddress s t a true).contents = .ok frame ∧
      frame.IsPage (o.content (node fd)) (length (node fd)) e a

/-! ### Pages -/

section Pages

variable {e e' : VirtualMemoryEntry} {node length : ℕ → ℕ} {a fd : ℕ}

theorem Passed.size_lt {length fileOffset fileSize : ℕ} (h : Passed length fileOffset fileSize)
    (hl : length < 2 ^ 32) : fileSize < 2 ^ 32 := by
  cases h with
  | simpleMmap => exact hl
  | execve _ _ h => exact h

theorem Passed.length_pos {length fileOffset fileSize : ℕ} (h : Passed length fileOffset fileSize) :
    0 < length := by
  cases h with
  | simpleMmap _ inside => exact Nat.zero_lt_of_lt inside
  | execve header => exact header

theorem Window.size_lt {file : Option ℕ} {fileOffset fileSize : ℕ}
    (h : Window node length file fileOffset fileSize) (hlen : ∀ i, length i < 2 ^ 32) :
    fileSize < 2 ^ 32 := by
  cases file with
  | none => exact h.2.symm ▸ by decide
  | some fd => exact Passed.size_lt h (hlen _)

theorem expected_page (content : ℕ → Byte) (length : ℕ) (hstart : e.start % frameSize = 0)
    (hle : e.start ≤ a) {x : ℕ} (hx : x < frameSize) :
    e.expected content length (a / frameSize * frameSize + x) =
      if x < e.asked length a then content (e.fileOffset + e.delta a + x) else 0#8 := by
  have hpage := page_start hstart hle
  have hplace : a / frameSize * frameSize + x - e.start = e.delta a + x := by
    unfold VirtualMemoryEntry.delta
    omega
  unfold VirtualMemoryEntry.expected VirtualMemoryEntry.asked
  rw [hplace, ← Nat.add_assoc]
  exact if_congr (by omega) rfl rfl

/-- Files in memory. -/
def ramFiles (hlen : ∀ i, length i < 2 ^ 32) (content : ℕ → ℕ → Byte) (offset : ℕ → Word) :
    OpenFiles length Unit where
  file i := ramFile (content i) (length i) (hlen i)
  inv _ := True
  content := content
  descriptor fd := ⟨offset fd, ()⟩
  serves _ := serves_ramFile _ _ _
  disk _ := trivial
  size _ := rfl

/-- Two windows into files show the same bytes in a frame, whatever the files hold, if they have the
same number of bytes, and those of the same file at the same position. -/
theorem windows_agree_iff {i i' p p' n n' : ℕ} (hn : n ≤ frameSize) :
    (∀ content : ℕ → ℕ → Byte, n' ≤ frameSize ∧ ∀ x < frameSize,
      (if x < n' then content i' (p' + x) else 0#8) = if x < n then content i (p + x) else 0#8) ↔
      n' = n ∧ (0 < n → i' = i ∧ p' = p) := by
  have hne : (1#8 : Byte) ≠ 0#8 := by decide
  constructor
  · intro h
    -- a file of ones shows the number of bytes
    obtain ⟨hn', hones⟩ := h fun _ _ => 1#8
    have hcount : ∀ x < frameSize, x < n' ↔ x < n := by
      intro x hx
      have := hones x hx
      split_ifs at this with h1 h2 h2
      · exact iff_of_true h1 h2
      · exact absurd this hne
      · exact absurd this.symm hne
      · exact iff_of_false h1 h2
    have hsame : n' = n := by
      rcases lt_trichotomy n' n with hlt | heq | hlt
      · exact absurd ((hcount n' (by omega)).mpr hlt) (Nat.lt_irrefl _)
      · exact heq
      · exact absurd ((hcount n (by omega)).mp hlt) (Nat.lt_irrefl _)
    refine ⟨hsame, fun hpos => ?_⟩
    -- and one with a single one where it begins
    have hfirst := (h fun j q => if j = i' ∧ q = p' then 1#8 else 0#8).2 0 (by decide)
    rw [if_pos (by omega), if_pos hpos] at hfirst
    simp only [Nat.add_zero, and_self, if_true] at hfirst
    split_ifs at hfirst with heq
    · exact ⟨heq.1.symm, heq.2.symm⟩
    · exact absurd hfirst hne
  · rintro ⟨rfl, hsame⟩ content
    refine ⟨hn, fun x _ => ?_⟩
    split_ifs with hx
    · obtain ⟨rfl, rfl⟩ := hsame (by omega)
      rfl
    · rfl

theorem readAt_highest {σ : Type} {file : BlockIO σ} {I : σ → Prop} {content : ℕ → Byte}
    {d : Descriptor σ} (H : Serves file I content) (hI : I d.disk) (size : Word) :
    ∃ n d', readAt file size 0xFFFFFFFF#32 d = .ok ((n, window content d.offset.toNat
      (min (kMin (d.offset + size) (Files.length file) - d.offset).toNat
        (file.sizeInBytes - d.offset.toNat))), d') := by
  obtain ⟨r, disk', hr⟩ := readAll_window H hI d.offset.toNat
      (kMin (d.offset + size) (Files.length file) - d.offset).toNat
  unfold readAt
  rw [if_pos rfl, read_eq, hr]
  exact ⟨_, _, rfl⟩

section Right

variable (hlen : ∀ i, length i < 2 ^ 32) (hstart : e.start % frameSize = 0) (hle : e.start ≤ a)
  (hstart' : e'.start % frameSize = 0) (hle' : e'.start ≤ a)

/-- The page of `e'` is the one that `e` asks for, whatever the files hold. -/
def Right (node length : ℕ → ℕ) (fd : ℕ) (e e' : VirtualMemoryEntry) (a : ℕ) : Prop :=
  ∀ (σ : Type) (o : OpenFiles length σ),
    ∃ frame, page (fun fd => o.file (node fd)) o.descriptor (fileContents e' a) = .ok frame ∧
      frame.IsPage (o.content (node fd)) (length (node fd)) e a

include hlen hstart hle hstart' hle'

theorem right_of_not_backed (hf : e'.fileSize < 2 ^ 32) (hb : ¬ e'.Backed a) :
    Right node length fd e e' a ↔ e.asked (length (node fd)) a = 0 := by
  have hnone := fileContents_of_not_backed hstart' hle' hf hb
  constructor
  · intro h
    obtain ⟨frame, hpage, -, hbytes⟩ := h Unit (ramFiles hlen (fun _ _ => 1#8) 0)
    rw [hnone] at hpage
    obtain rfl := Except.ok.inj hpage
    have hfirst : 0#8 = _ := hbytes 0 (by decide)
    rw [expected_page _ _ hstart hle (by decide)] at hfirst
    split_ifs at hfirst with hpos
    · exact absurd hfirst (show ¬ (0#8 = 1#8) by decide)
    · omega
  · intro hzero σ o
    refine ⟨_, by rw [hnone]; rfl, Nat.zero_le _, fun x hx => ?_⟩
    rw [expected_page _ _ hstart hle hx, if_neg (by omega)]

theorem right_of_backed {fd' : ℕ} (hfile : e'.file = some fd') (hb : e'.Backed a) {position count : ℕ}
    (hp : (e'.fileOffset + e'.delta a) % 2 ^ 32 = position) (hpos : position < 2 ^ 32 - 1)
    (hcount : (if e'.readEnd a < position then length (node fd')
      else min (e'.readEnd a) (length (node fd'))) - position = count) :
    Right node length fd e e' a ↔ count = e.asked (length (node fd)) a ∧
      (0 < e.asked (length (node fd)) a → node fd' = node fd ∧ position = e.fileOffset + e.delta a) := by
  have hasked : e.asked (length (node fd)) a ≤ frameSize := Nat.min_le_left _ _
  have hpage : ∀ (σ : Type) (o : OpenFiles length σ),
      ∃ frame, page (fun fd => o.file (node fd)) o.descriptor (fileContents e' a) = .ok frame ∧
        frame.stored = count ∧
        ∀ x, frame.byte x = if x < count then o.content (node fd') (position + x) else 0#8 := by
    intro σ o
    refine page_of_backed (f := fun fd => o.file (node fd)) (o.serves (node fd'))
      (o.disk fd') hfile hstart' hle' hb
      hp hpos ?_
    rw [o.size]
    exact hcount
  rw [← windows_agree_iff hasked]
  constructor
  · intro h content
    obtain ⟨frame, hframe, hstored, hbytes⟩ := hpage Unit (ramFiles hlen content 0)
    obtain ⟨frame', hframe', hin, hright⟩ := h Unit (ramFiles hlen content 0)
    obtain rfl := Except.ok.inj (hframe.symm.trans hframe')
    refine ⟨hstored ▸ hin, fun x hx => ?_⟩
    have := hright x hx
    rw [hbytes, expected_page _ _ hstart hle hx] at this
    exact this
  · intro h σ o
    obtain ⟨frame, hframe, hstored, hbytes⟩ := hpage σ o
    obtain ⟨hin, hsame⟩ := h o.content
    refine ⟨frame, hframe, hstored ▸ hin, fun x hx => ?_⟩
    rw [hbytes, expected_page _ _ hstart hle hx]
    exact hsame x hx

theorem not_right_of_highest {fd' : ℕ} (hfile : e'.file = some fd') (hb : e'.Backed a)
    (hne : 0 < length (node fd')) (hp : e'.fileOffset + e'.delta a = 2 ^ 32 - 1) :
    ¬ Right node length fd e e' a := by
  intro h
  -- the end of the read is behind the wrap, so that there is at least one byte
  obtain ⟨size, hsize, hread⟩ : ∃ size, 0 < size % 2 ^ 32 ∧
      fileContents e' a = some ⟨some fd', 0, size, 4294967295⟩ := by
    have hread := fileContents_of_backed hstart' hle' hb
    rw [hp, show (2 ^ 32 - 1) % 2 ^ 32 = 4294967295 from rfl, hfile] at hread
    refine ⟨_, ?_, hread⟩
    unfold VirtualMemoryEntry.readEnd
    unfold frameSize
    omega
  -- the first byte of the page, of a file of ones
  have hfirst : ∀ offset : Word, ((window (fun _ => 1#8) offset.toNat
      (min (kMin (offset + BitVec.ofNat 32 size) (BitVec.ofNat 32 (length (node fd'))) - offset).toNat
        (length (node fd') - offset.toNat))).getD 0 0#8 = 1#8 ↔ 0 < e.asked (length (node fd)) a) := by
    intro offset
    obtain ⟨frame, hpage, -, hbytes⟩ := h Unit (ramFiles hlen (fun _ _ => 1#8) fun _ => offset)
    obtain ⟨n, d', hr⟩ := readAt_highest (d := ⟨offset, ()⟩)
      (serves_ramFile (fun _ => 1#8) (length (node fd')) (hlen _)) trivial (BitVec.ofNat 32 size)
    obtain ⟨frame', hpage', -, hbytes'⟩ :=
      page_of_read (f := fun fd => ramFile (fun _ => 1#8) (length (node fd)) (hlen _))
      (d := fun _ => ⟨offset, ()⟩) hr
    rw [hread] at hpage
    obtain rfl := Except.ok.inj (hpage'.symm.trans hpage)
    have hzero := hbytes 0 (by decide)
    rw [hbytes', expected_page _ _ hstart hle (by decide)] at hzero
    refine Iff.trans (iff_of_eq (congrArg (· = 1#8) hzero)) ?_
    split_ifs with hpos
    · exact iff_of_true rfl hpos
    · exact iff_of_false (by decide) hpos
  have hlength := hlen (node fd')
  -- from the front of the file it is a one, and from its end there is none
  have hfront := hfirst 0#32
  have hback := hfirst (BitVec.ofNat 32 (length (node fd')))
  rw [getD_window] at hfront hback
  rw [BitVec.toNat_ofNat, Nat.mod_eq_of_lt hlength, Nat.sub_self, Nat.min_zero,
    if_neg (Nat.lt_irrefl 0)] at hback
  rw [BitVec.sub_zero, BitVec.zero_add, toNat_kMin, BitVec.toNat_ofNat, BitVec.toNat_ofNat,
    Nat.mod_eq_of_lt hlength, if_pos (by simp only [BitVec.toNat_ofNat]; omega)] at hfront
  exact absurd (hback.mpr (hfront.mp rfl)) (by decide)

end Right

/-! ### The number of bytes -/

section Counts

variable {L : ℕ} (hL : L < 2 ^ 32) (hlow : userMemStart ≤ e.start) (hw : Passed L e.fileOffset e.fileSize)
include hL hlow hw

/-- How much is read into a page from a position below the highest one. -/
theorem count_eq (hb : e.Backed a) (hpos : (e.fileOffset + e.delta a) % 2 ^ 32 < 2 ^ 32 - 1) :
    (if e.readEnd a < (e.fileOffset + e.delta a) % 2 ^ 32 then L else min (e.readEnd a) L) -
      (e.fileOffset + e.delta a) % 2 ^ 32 =
    if e.Open a then L - (e.fileOffset + e.delta a)
    else min frameSize (min (e.fileSize - e.delta a) (L - (e.fileOffset + e.delta a) % 2 ^ 32)) := by
  obtain ⟨-, hup, hdelta⟩ := hb
  unfold VirtualMemoryEntry.readEnd
  cases hw with
  | simpleMmap aligned inside =>
    -- the entry lies in the upper half of memory, so that no sum wraps
    unfold userMemStart at hlow
    unfold frameSize at *
    have hend : e.fileOffset + e.delta a + 4096 < 2 ^ 32 := by omega
    have hwindow : e.fileOffset + e.fileSize < 2 ^ 32 := by omega
    rw [if_neg (fun h : e.Open a => by have := h.2; unfold frameSize at this; omega)]
    rw [Nat.mod_eq_of_lt (show e.fileOffset + e.delta a < 2 ^ 32 by omega), Nat.mod_eq_of_lt hend,
      Nat.mod_eq_of_lt hwindow]
    split_ifs <;> omega
  | execve header offset_lt size_lt inFile =>
    unfold userMemStart at hlow
    by_cases ho : e.Open a
    · -- the end of the read has wrapped
      have hword := ho.1
      have hlate := ho.2
      rw [if_pos ho, Nat.mod_eq_of_lt hword, if_pos]
      unfold frameSize at *
      omega
    · rw [if_neg ho]
      have hearly := not_and.mp ho
      unfold frameSize at *
      rcases Nat.lt_or_ge (e.fileOffset + e.delta a) (2 ^ 32) with hword | hword
      · -- no sum wraps
        have hends := not_or.mp (hearly hword)
        rw [Nat.mod_eq_of_lt hword, Nat.mod_eq_of_lt (Nat.lt_of_not_le hends.1),
          Nat.mod_eq_of_lt (Nat.lt_of_not_le hends.2)]
        split_ifs <;> omega
      · -- all of them wrap
        obtain ⟨q, hq⟩ := Nat.exists_eq_add_of_le' hword
        obtain ⟨w, hw⟩ := Nat.exists_eq_add_of_le' (show 2 ^ 32 ≤ e.fileOffset + e.fileSize by omega)
        have hqw : w - q = e.fileSize - e.delta a := by omega
        have hsmall : q < w ∧ q + 4096 < 2 ^ 32 ∧ w < 2 ^ 32 := by omega
        rw [hw, Nat.add_mod_right, Nat.mod_eq_of_lt hsmall.2.2] at inFile
        rw [hq, hw, Nat.add_right_comm, Nat.add_mod_right, Nat.add_mod_right, Nat.add_mod_right,
          Nat.mod_eq_of_lt hsmall.2.1, Nat.mod_eq_of_lt hsmall.2.2, Nat.mod_eq_of_lt (by omega),
            ← hqw, if_neg (by omega)]
        clear hq hw hqw hpos
        omega

theorem wrapped_lt (hb : e.Backed a) : e.fileOffset + e.delta a < 2 ^ 32 + 2 ^ 31 ∧
    (2 ^ 32 ≤ e.fileOffset + e.delta a → (e.fileOffset + e.delta a) % 2 ^ 32 < L) := by
  obtain ⟨-, hup, hdelta⟩ := hb
  unfold userMemStart at hlow
  cases hw with
  | simpleMmap aligned inside => exact ⟨by omega, fun h => by omega⟩
  | execve header offset_lt size_lt inFile => exact ⟨by omega, fun h => by omega⟩

end Counts

/-- **The page of an entry**, compared with what another one asks for. -/
theorem right_iff (hlen : ∀ i, length i < 2 ^ 32) (hstart : e.start % frameSize = 0)
    (hle : e.start ≤ a) (hstart' : e'.start % frameSize = 0) (hle' : e'.start ≤ a)
    (hlow : userMemStart ≤ e'.start) (hw : Window node length e'.file e'.fileOffset e'.fileSize) :
    Right node length fd e e' a ↔ e.Instead node length fd e' a := by
  by_cases hb : e'.Backed a
  swap
  · rw [right_of_not_backed hlen hstart hle hstart' hle' (hw.size_lt hlen) hb]
    constructor
    · intro hzero
      exact ⟨fun _ hb' => absurd hb' hb, fun hpos => by omega⟩
    · intro h
      by_contra hpos
      exact hb (h.something (by omega)).1
  obtain ⟨fd', hfile⟩ : ∃ fd', e'.file = some fd' := by
    cases hf : e'.file with
    | none =>
      rw [hf] at hw
      have := hb.1
      have := hw.2
      omega
    | some fd' => exact ⟨fd', rfl⟩
  rw [hfile] at hw
  have hL := hlen (node fd')
  have hL₀ := hlen (node fd)
  obtain ⟨hlt, hwrap⟩ := wrapped_lt hL hlow hw hb
  have hasked : e.asked (length (node fd)) a = min frameSize (min (e.fileSize - e.delta a)
    (length (node fd) - (e.fileOffset + e.delta a))) := rfl
  by_cases hhigh : e'.fileOffset + e'.delta a = 2 ^ 32 - 1
  · -- the highest position
    refine iff_of_false
      (not_right_of_highest hlen hstart hle hstart' hle' hfile hb (Passed.length_pos hw) hhigh)
      fun h => ?_
    rcases Nat.eq_zero_or_pos (e.asked (length (node fd)) a) with hzero | hpos
    · have := (h.nothing hzero hb).1
      omega
    · have := (h.something hpos).2.2.1
      omega
  have hpos : (e'.fileOffset + e'.delta a) % 2 ^ 32 < 2 ^ 32 - 1 := by omega
  rw [right_of_backed hlen hstart hle hstart' hle' hfile hb rfl hpos (count_eq hL hlow hw hb hpos)]
  have hback := hb.2.2
  constructor
  · rintro ⟨hcount, hsame⟩
    refine ⟨fun hzero _ => ?_, fun hsome => ?_⟩
    · rw [hzero] at hcount
      split_ifs at hcount with ho
      · refine ⟨by have := ho.1; omega, fun fd'' hf => ?_⟩
        obtain rfl := Option.some.inj (hfile.symm.trans hf)
        omega
      · have hin : length (node fd') ≤ (e'.fileOffset + e'.delta a) % 2 ^ 32 := by
          unfold frameSize at hcount
          omega
        refine ⟨by omega, fun fd'' hf => ?_⟩
        obtain rfl := Option.some.inj (hfile.symm.trans hf)
        omega
    · obtain ⟨hnode, hposition⟩ := hsame hsome
      rw [hnode, hposition] at hcount
      refine ⟨hb, ⟨fd', hfile, hnode⟩, hposition, fun ho => ?_, fun ho => ?_⟩
      · rw [if_pos ho] at hcount
        have := ho.1
        omega
      · rw [if_neg ho] at hcount
        exact hcount
  · intro h
    rcases Nat.eq_zero_or_pos (e.asked (length (node fd)) a) with hzero | hsome
    · obtain ⟨hword, hin⟩ := h.nothing hzero hb
      have := hin fd' hfile
      refine ⟨?_, fun hpos => by omega⟩
      split_ifs <;> omega
    · obtain ⟨-, ⟨fd'', hfile', hnode⟩, hposition, hopen, hclosed⟩ := h.something hsome
      obtain rfl := Option.some.inj (hfile.symm.trans hfile')
      refine ⟨?_, fun _ => ⟨hnode, hposition⟩⟩
      rw [hnode, hposition]
      split_ifs with ho
      · have := hopen ho
        have := ho.1
        omega
      · exact hclosed ho

theorem instead_self_iff (hfile : e.file = some fd) (hL : length (node fd) < 2 ^ 32) :
    e.Instead node length fd e a ↔ e.Exact (length (node fd)) a := by
  have hasked : e.asked (length (node fd)) a = min frameSize (min (e.fileSize - e.delta a)
    (length (node fd) - (e.fileOffset + e.delta a))) := rfl
  constructor
  · intro h hdelta
    by_cases hin : e.fileOffset + e.delta a < length (node fd)
    · obtain ⟨hb, -, -, hopen, -⟩ := h.something (by unfold frameSize at hasked; omega)
      refine ⟨fun _ => hb.2.1, fun _ => ⟨by omega, fun hmore => ?_, ?_⟩⟩
      · by_contra hc
        have := hopen ⟨by omega, .inl (by omega)⟩
        omega
      · by_contra hc
        obtain ⟨h1, h2⟩ := not_or.mp hc
        have := hopen ⟨by omega, .inr (by omega)⟩
        omega
    · refine ⟨fun hc => absurd hc hin, fun hup => ?_⟩
      have hb : e.Backed a := ⟨by omega, hup, hdelta⟩
      exact ⟨(h.nothing (by omega) hb).1, fun hmore => by omega, .inr (by omega)⟩
  · intro h
    refine ⟨fun hzero hb => ?_, fun hsome => ?_⟩
    · obtain ⟨-, hup, hdelta⟩ := hb
      refine ⟨((h hdelta).2 hup).1, fun fd' hf => ?_⟩
      obtain rfl := Option.some.inj (hfile.symm.trans hf)
      unfold frameSize at hasked
      omega
    · have hdelta : e.delta a < e.fileSize := by omega
      have hin : e.fileOffset + e.delta a < length (node fd) := by omega
      obtain ⟨hup, hexact⟩ := h hdelta
      obtain ⟨-, hmore, hbounded⟩ := hexact (hup hin)
      refine ⟨⟨by omega, hup hin, hdelta⟩, ⟨fd, hfile, rfl⟩, Nat.mod_eq_of_lt (by omega),
        fun ho => ?_, fun _ => rfl⟩
      obtain ⟨-, ho⟩ := ho
      unfold VirtualMemoryEntry.Bounded at hbounded
      omega

end Pages

/-! ### Runs -/

section Runs

variable {s : Mappings} {e e' : VirtualMemoryEntry} {node length : ℕ → ℕ} {t a k fd : ℕ}

/-- The entries are those of the callers. -/
def EntriesPassed (node length : ℕ → ℕ) (M : ℕ → Option VirtualMemoryEntry) : Prop :=
  ∀ k < keys, ∀ e, M k = some e → Window node length e.file e.fileOffset e.fileSize

theorem EntriesPassed.update {M : ℕ → Option VirtualMemoryEntry} (hM : EntriesPassed node length M)
    {v : Option VirtualMemoryEntry}
    (hv : ∀ e, v = some e → Window node length e.file e.fileOffset e.fileSize) :
    EntriesPassed node length (Function.update M k v) := by
  intro j hj e he
  by_cases hjk : j = k
  · rw [hjk, update_self] at he
    exact hv e he
  · rw [update_of_ne hjk] at he
    exact hM j hj e he

theorem Reach.passed (h : Reach (Callers node length) s) :
    ∃ A, FamilyRuns params s A ∧ ∀ t ∈ s.trees, EntriesOk (A t) ∧ EntriesPassed node length (A t) := by
  refine h.maps (I := fun M => EntriesOk M ∧ EntriesPassed node length M)
    ⟨by simp [EntriesOk], by simp [EntriesPassed]⟩
    (fun M hM => hM.1) (fun M k hM => ⟨hM.1.update (by simp), hM.2.update (by simp)⟩) ?_
  intro s A t start size a k file fileOffset fileSize hA ht hM hs hs' hcall hplace hkey
  refine ⟨hM.1.update fun e he => ?_, hM.2.update fun e he => ?_⟩
  · obtain rfl := Option.some.inj he
    exact (place_inUser hA ht hM.1 hs hs' hplace).1.ok hkey file fileOffset fileSize
  · obtain rfl := Option.some.inj he
    exact hcall

theorem Reach.lookupFloor_iff {C : Mappings → MappingOp → Prop} (h : Reach C s) (ht : t ∈ s.trees)
    (ha : a < 2 ^ 32) : lookupFloor s t a = some e ↔ Last (Present (entries s t)) a e := by
  obtain ⟨A, hA, hM⟩ := h.family
  have hpresent : Present (entries s t) = Present (A t) := funext fun e => propext <|
    exists_congr fun k => and_congr_right fun hk => by rw [entries_eq hA ht hk]
  rw [hpresent]
  exact MemoryMapping.lookupFloor_iff hA ht (hM t ht) ha

theorem supplies_iff_right (hOk : e'.Ok k) (hle : e'.start ≤ a) (hfloor : lookupFloor s t a = some e') :
    Supplies node length s t fd e a ↔ e'.Covers a ∧ Right node length fd e e' a := by
  unfold Supplies checkAddress
  rw [hfloor]
  dsimp only
  rw [Nat.mod_eq_of_lt hOk.lt, if_pos rfl]
  by_cases hlt : a < e'.start + e'.size
  · rw [if_pos hlt]
    exact and_congr_left fun _ => iff_of_true rfl ⟨hle, hlt⟩
  · rw [if_neg hlt]
    exact iff_of_false (fun h => absurd h.1 (by decide)) fun h => hlt h.1.2

/-- **Demand paging.**  For an entry with a file, of any mapping that is reached by calls of the two
callers, and every address of the entry: if the entry is the last one that does not start above the
address, as it always is if the entries are disjoint, the page is the one it asks for exactly if 32
bits are enough; if there is another such entry, the page is right exactly if that one reaches the
address and shows the same there. -/
theorem supplies_iff (hlen : ∀ i, length i < 2 ^ 32) (h : Reach (Callers node length) s) (ht : t ∈ s.trees)
    (hk : k < keys) (he : entries s t k = some e) (hfile : e.file = some fd) (ha : e.Covers a) :
    (Apart (entries s t) → Last (Present (entries s t)) a e) ∧ (∃ e', Last (Present (entries s t)) a e') ∧
      ∀ e', Last (Present (entries s t)) a e' →
        (e' = e → (Supplies node length s t fd e a ↔ e.Exact (length (node fd)) a)) ∧
        (e' ≠ e → (Supplies node length s t fd e a ↔ e'.Covers a ∧ e.Instead node length fd e' a)) := by
  obtain ⟨A, hA, hI⟩ := h.passed
  obtain ⟨hM, hpassed⟩ := hI t ht
  have hentries : ∀ k < keys, entries s t k = A t k := fun k hk => entries_eq hA ht hk
  have hek : A t k = some e := (hentries k hk).symm.trans he
  have hOk := hM k hk e hek
  have hword : a < 2 ^ 32 := ha.2.trans hOk.lt
  simp only [← h.lookupFloor_iff ht hword]
  refine ⟨fun hd => ?_, ?_, fun e' hfloor => ?_⟩
  · have hdA : Apart (A t) := fun j hj j' hj' hne x x' hx hx' =>
      hd j hj j' hj' hne x x' ((hentries j hj).trans hx) ((hentries j' hj').trans hx')
    obtain ⟨e', he', hcov⟩ :=
      (checkAddress_iff hA ht hM true).mp ((checkAddress_mapped hA ht hM hdA hword true).mpr
      ⟨k, hk, e, hek, ha⟩)
    obtain ⟨k', hk', hek', -⟩ := lookupFloor_some hA ht hM he'
    by_cases hkk : k = k'
    · subst hkk
      rw [he', ← hek', hek]
    · exact absurd ⟨ha, hcov⟩ (hdA k hk k' hk' hkk e e' hek hek' a)
  · cases hf : lookupFloor s t a with
    | none =>
      have := lookupFloor_eq_none hA ht hM hword hf hk hek
      exact absurd ha.1 (by omega)
    | some e' => exact ⟨e', rfl⟩
  · obtain ⟨k', hk', hek', hle', -⟩ := lookupFloor_some hA ht hM hfloor
    have hOk' := hM k' hk' e' hek'
    rw [supplies_iff_right hOk' hle' hfloor,
      right_iff hlen hOk.start_aligned ha.1 hOk'.start_aligned hle' hOk'.lower
      (hpassed k' hk' e' hek')]
    refine ⟨?_, fun _ => Iff.rfl⟩
    rintro rfl
    rw [instead_self_iff hfile (hlen _)]
    exact and_iff_right ha

/-- The middle page of a file of three pages, and then the whole file around it. -/
def mappedTwice : Mappings :=
  (MappingOp.map 0 0x80000000 0x3000 (some 7) 0 0x3000).exec
    ((MappingOp.map 0 0x80001000 0x1000 (some 7) 0x1000 0x3000).exec emptyMapping)

theorem reach_mappedTwice : Reach (Callers id fun _ => 0x3000) mappedTwice :=
  (Reach.start.step (.map 0 0x80001000 0x1000 (some 7) 0x1000 0x3000) ⟨by decide, by decide, by decide⟩
    (Passed.simpleMmap (by decide) (by decide))).step (.map 0 0x80000000 0x3000 (some 7) 0 0x3000)
    ⟨by decide, by decide, by decide⟩ (Passed.simpleMmap (by decide) (by decide))

/-- The entry of the whole file has its first page, and its second one from the entry inside it. -/
theorem supplies_mapped_twice :
    Supplies id (fun _ => 0x3000) mappedTwice 0 7 ⟨0x80000000, 0x3000, some 7, 0, 0x3000⟩ 0x80000000 ∧
      Supplies id (fun _ => 0x3000) mappedTwice 0 7 ⟨0x80000000, 0x3000, some 7, 0, 0x3000⟩ 0x80001000 := by
  have houter : entries mappedTwice 0 0 = some ⟨0x80000000, 0x3000, some 7, 0, 0x3000⟩ := by decide
  have hlast : ∀ a e, a < 2 ^ 32 → lookupFloor mappedTwice 0 a = some e →
      Last (Present (entries mappedTwice 0)) a e :=
    fun a e ha => (reach_mappedTwice.lookupFloor_iff (by decide) ha).mp
  constructor
  · refine (((supplies_iff (fun _ => by decide) reach_mappedTwice (by decide) (by decide) houter rfl
      ⟨by decide, by decide⟩).2.2 _ (hlast _ _ (by decide) (by decide))).1 rfl).mpr fun _ => ?_
    exact ⟨fun _ => by decide, fun _ => ⟨by decide, fun _ => by decide, .inl (by decide)⟩⟩
  · refine (((supplies_iff (fun _ => by decide) reach_mappedTwice (by decide) (by decide) houter rfl
      ⟨by decide, by decide⟩).2.2 ⟨0x80001000, 0x1000, some 7, 0x1000,
        0x3000⟩ (hlast _ _ (by decide) (by decide))).2
      (by decide)).mpr ⟨⟨by decide, by decide⟩, ?_, fun _ => ?_⟩
    · exact fun h => absurd h (by decide)
    · exact ⟨by decide, ⟨7, rfl, rfl⟩, by decide, fun ho => absurd ho (by decide), fun _ => by decide⟩

/-- A page of a file at the upper end of user memory. -/
def highPage (fileSize : ℕ) : Mappings := (map emptyMapping 0 0xEFFFF000 0x1000 (some 7) 0 fileSize).1

/-- The first page of a file of 0x10001001 bytes there: the sum of start and length leaves the
address space by one byte, and the page is empty. -/
theorem high_page_of_large_file_empty :
    Passed 0x10001001 0 0x10001001 ∧
      (map emptyMapping 0 0xEFFFF000 0x1000 (some 7) 0 0x10001001).2 = .ok 0xEFFFF000 ∧
      checkAddress (highPage 0x10001001) 0 0xEFFFF000 true = ⟨true, none⟩ ∧
      ¬ Supplies id (fun _ => 0x10001001) (highPage 0x10001001) 0 7
        ⟨0xEFFFF000, 0x1000, some 7, 0, 0x10001001⟩ 0xEFFFF000 := by
  have hcheck : checkAddress (highPage 0x10001001) 0 0xEFFFF000 true = ⟨true, none⟩ := by decide
  refine ⟨Passed.simpleMmap (by decide) (by decide), by decide, hcheck, fun h => ?_⟩
  obtain ⟨frame, hpage, -, hbytes⟩ := h.2 Unit (ramFiles (fun _ => by decide) (fun _ _ => 1#8) 0)
  rw [hcheck] at hpage
  obtain rfl := Except.ok.inj hpage
  exact absurd (hbytes 0 (by decide)) (by decide)

end Runs

end GheithOS.MemoryMapping
