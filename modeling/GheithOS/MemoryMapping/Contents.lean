import GheithOS.Files.Cursor
import GheithOS.MemoryMapping.Disjoint

/-!
# GheithOS.MemoryMapping.Contents — the page that `check_address` supplies

For an address in an entry with a file, `check_address` fills a new frame by one call of
`FileDescriptor::read` with a position.  All sums are words, so the end of the read may lie in front
of its start; then the read goes on to the end of the file, also beyond the frame.  `page_of_backed`
says what is stored, and how far.
-/

namespace GheithOS.MemoryMapping

open Lib Files

variable {σ : Type}

/-- `FileDescriptor::read` with a position; the highest one stands for the offset of the
descriptor. -/
def readAt (file : BlockIO σ) (size position : Word) (d : Descriptor σ) :
    Except Halt ((Word × List Byte) × Descriptor σ) :=
  if position = 0xFFFFFFFF#32 then Files.read file size d
  else
    let size := kMin (position + size) (length file) - position
    match file.readAll position.toNat size.toNat d.disk with
    | .ok ((_, buffer), disk) => .ok ((size, buffer), { d with disk := disk })
    | .error e => .error e

/-- A frame that was filled: its bytes, and where the stores end.  Those behind the end of the frame
are in the frames that follow it. -/
structure Filled where
  byte : ℕ → Byte
  stored : ℕ

/-- The page of a fault: a new frame, and in it what was read, if there was a read. -/
def page (file : ℕ → BlockIO σ) (d : ℕ → Descriptor σ) : Option FileRead → Except Halt Filled
  | none => .ok ⟨fun _ => 0#8, 0⟩
  | some r =>
    match r.file with
    -- a null pointer
    | none => .error .assertion
    | some fd =>
      match readAt (file fd) (BitVec.ofNat 32 r.length) (BitVec.ofNat 32 r.offset) (d fd) with
      | .ok ((_, buffer), _) =>
        .ok ⟨fun x => if r.memoryOffset ≤ x then buffer.getD (x - r.memoryOffset) 0#8 else 0#8,
          r.memoryOffset + buffer.length⟩
      | .error e => .error e

namespace VirtualMemoryEntry

/-- The distance of the page of an address from the start of the entry. -/
def delta (e : VirtualMemoryEntry) (a : ℕ) : ℕ := a / frameSize * frameSize - e.start

/-- The page of the address is filled from the file. -/
def Backed (e : VirtualMemoryEntry) (a : ℕ) : Prop :=
  0 < e.fileSize ∧ e.start + e.fileSize ≤ 2 ^ 32 ∧ e.delta a < e.fileSize

instance (e : VirtualMemoryEntry) (a : ℕ) : Decidable (e.Backed a) :=
  inferInstanceAs (Decidable (_ ∧ _ ∧ _))

/-- The end of the window is a position of 32 bits, or the file ends in the page: a read whose end
has wrapped goes on to the end of the file. -/
def Bounded (length : ℕ) (e : VirtualMemoryEntry) (a : ℕ) : Prop :=
  e.fileOffset + e.fileSize < 2 ^ 32 ∨ length ≤ e.fileOffset + e.delta a + frameSize

/-- `file_read_end`. -/
def readEnd (e : VirtualMemoryEntry) (a : ℕ) : ℕ :=
  min ((e.fileOffset + e.delta a + frameSize) % 2 ^ 32) ((e.fileOffset + e.fileSize) % 2 ^ 32)

end VirtualMemoryEntry

section Page

variable {e : VirtualMemoryEntry} {a : ℕ}

theorem page_start (hstart : e.start % frameSize = 0) (hle : e.start ≤ a) :
    e.start ≤ a / frameSize * frameSize := by
  unfold frameSize at *
  omega

theorem fileContents_of_not_backed (hstart : e.start % frameSize = 0) (hle : e.start ≤ a)
    (hf : e.fileSize < 2 ^ 32) (h : ¬ e.Backed a) : fileContents e a = none := by
  have hpage := page_start hstart hle
  unfold fileContents
  dsimp only
  rw [if_neg]
  unfold VirtualMemoryEntry.Backed VirtualMemoryEntry.delta at h
  unfold frameSize at *
  omega

theorem fileContents_of_backed (hstart : e.start % frameSize = 0) (hle : e.start ≤ a) (h : e.Backed a) :
    fileContents e a = some ⟨e.file, 0,
      (e.readEnd a + 2 ^ 32 - (e.fileOffset + e.delta a) % 2 ^ 32) % 2 ^ 32,
        (e.fileOffset + e.delta a) % 2 ^ 32⟩ := by
  have hpage := page_start hstart hle
  have hback : e.fileSize > 0 ∧ a / frameSize * frameSize ≥ e.start / frameSize * frameSize ∧
      a / frameSize * frameSize ≤ (e.start + e.fileSize + 2 ^ 32 - 1) % 2 ^ 32 / frameSize * frameSize := by
    unfold VirtualMemoryEntry.Backed VirtualMemoryEntry.delta at h
    unfold frameSize at *
    omega
  have hread : (e.fileOffset + (a / frameSize * frameSize + 2 ^ 32 - e.start)) % 2 ^ 32 =
      (e.fileOffset + e.delta a) % 2 ^ 32 := by
    unfold VirtualMemoryEntry.delta
    omega
  unfold fileContents
  dsimp only
  have hnot : ¬ a / frameSize * frameSize < e.start := by omega
  rw [if_pos hback]
  simp only [if_neg hnot, hread, Nat.sub_zero, Nat.mod_add_mod]
  have hend : (if (e.fileOffset + e.delta a + frameSize) % 2 ^ 32 > (e.fileOffset + e.fileSize) % 2 ^ 32
      then (e.fileOffset + e.fileSize) % 2 ^ 32 else
        (e.fileOffset + e.delta a + frameSize) % 2 ^ 32) = e.readEnd a := by
    unfold VirtualMemoryEntry.readEnd
    split_ifs <;> omega
  rw [hend]

section Reads

variable {file : BlockIO σ} {I : σ → Prop} {content : ℕ → Byte} {d : Descriptor σ}

/-- The bytes of `read_all` from any offset: behind the end there are none. -/
theorem readAll_window (H : Serves file I content) (hI : I d.disk) (offset n : ℕ) :
    ∃ r disk, file.readAll offset n d.disk =
      .ok ((r, window content offset (min n (file.sizeInBytes - offset))), disk) := by
  rcases Nat.lt_or_ge file.sizeInBytes offset with hlt | hle
  · have hnone : window content offset (min n (file.sizeInBytes - offset)) = [] := by
      rw [Nat.sub_eq_zero_of_le hlt.le, Nat.min_zero]
      rfl
    rw [hnone]
    by_cases hn : n = 0
    · subst hn
      exact ⟨_, _, rfl⟩
    · exact ⟨_, _, readAll_of_lt hlt hn d.disk⟩
  · obtain ⟨⟨r, buffer⟩, disk, hr, heq, -⟩ := (H.readAll hI n hle).returns (by simp)
    obtain ⟨-, rfl⟩ := Prod.mk.inj heq
    exact ⟨r, disk, hr⟩

/-- A read from a position to an end, given by its length as a word: if the end lies in front of the
position, the read goes on to the end of the file. -/
theorem readAt_spec (H : Serves file I content) (hI : I d.disk) {position stop : ℕ}
    (hpos : position < 2 ^ 32 - 1) (hstop : stop < 2 ^ 32) :
    ∃ n d', readAt file (BitVec.ofNat 32 ((stop + 2 ^ 32 - position) % 2 ^ 32))
      (BitVec.ofNat 32 position) d =
      .ok ((n, window content position
        ((if stop < position then file.sizeInBytes else min stop file.sizeInBytes) - position)), d') := by
  have hsize := file.size_lt
  have hpos32 : (BitVec.ofNat 32 position).toNat = position := by
    rw [BitVec.toNat_ofNat]
    omega
  have hword : BitVec.ofNat 32 position ≠ 0xFFFFFFFF#32 := by
    intro h
    have := congrArg BitVec.toNat h
    rw [hpos32] at this
    simp at this
    omega
  have hlen : (kMin (BitVec.ofNat 32 position + BitVec.ofNat 32 ((stop + 2 ^ 32 - position) % 2 ^ 32))
      (length file) - BitVec.ofNat 32 position).toNat =
        (min stop file.sizeInBytes + 2 ^ 32 - position) % 2 ^ 32 := by
    rw [BitVec.toNat_sub, toNat_kMin, toNat_length, BitVec.toNat_add, hpos32, BitVec.toNat_ofNat]
    omega
  unfold readAt
  rw [if_neg hword]
  dsimp only
  obtain ⟨r, disk, hr⟩ :=
    readAll_window H hI position ((min stop file.sizeInBytes + 2 ^ 32 - position) % 2 ^ 32)
  rw [hlen, hpos32, hr]
  have hcount : min ((min stop file.sizeInBytes + 2 ^ 32 - position) % 2 ^ 32)
      (file.sizeInBytes - position) =
      (if stop < position then file.sizeInBytes else min stop file.sizeInBytes) - position := by
    split_ifs <;> omega
  exact ⟨_, _, by rw [hcount]⟩

end Reads

section Pages

variable {f : ℕ → BlockIO σ} {d : ℕ → Descriptor σ} {fd : ℕ}

theorem page_of_read {size offset : ℕ} {n : Word} {buffer : List Byte} {d' : Descriptor σ}
    (hr : readAt (f fd) (BitVec.ofNat 32 size) (BitVec.ofNat 32 offset) (d fd) = .ok ((n, buffer), d')) :
    ∃ frame, page f d (some ⟨some fd, 0, size, offset⟩) = .ok frame ∧ frame.stored = buffer.length ∧
      ∀ x, frame.byte x = buffer.getD x 0#8 := by
  have hpage : page f d (some ⟨some fd, 0, size, offset⟩) =
      .ok ⟨fun x => if 0 ≤ x then buffer.getD (x - 0) 0#8 else 0#8, 0 + buffer.length⟩ := by
    unfold page
    dsimp only
    rw [hr]
  refine ⟨_, hpage, Nat.zero_add _, fun x => ?_⟩
  dsimp only
  rw [if_pos (Nat.zero_le _), Nat.sub_zero]

theorem page_of_backed {I : σ → Prop} {content : ℕ → Byte} (H : Serves (f fd) I content)
    (hI : I (d fd).disk) (hfile : e.file = some fd) (hstart : e.start % frameSize = 0)
    (hle : e.start ≤ a) (hb : e.Backed a) {position count : ℕ}
    (hp : (e.fileOffset + e.delta a) % 2 ^ 32 = position) (hpos : position < 2 ^ 32 - 1)
   
    (hcount : (if e.readEnd a < position then (f fd).sizeInBytes
      else min (e.readEnd a) (f fd).sizeInBytes) - position = count) :
    ∃ frame, page f d (fileContents e a) = .ok frame ∧ frame.stored = count ∧
      ∀ x, frame.byte x = if x < count then content (position + x) else 0#8 := by
  have hend : e.readEnd a < 2 ^ 32 := by
    unfold VirtualMemoryEntry.readEnd
    omega
  obtain ⟨n, d', hr⟩ := readAt_spec H hI hpos hend
  rw [hcount] at hr
  obtain ⟨frame, hpage, hstored, hbytes⟩ := page_of_read hr
  refine ⟨frame, ?_, ?_, fun x => ?_⟩
  · rw [fileContents_of_backed hstart hle hb, hp, hfile]
    exact hpage
  · rw [hstored, length_window]
  · rw [hbytes, getD_window]

end Pages

end Page

end GheithOS.MemoryMapping
