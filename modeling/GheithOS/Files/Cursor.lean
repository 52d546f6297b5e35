import GheithOS.Files.BlockIO

/-!
# GheithOS.Files.Cursor — descriptors on files

`FileDescriptor::read` without a position, and `lseek`, on a descriptor of type `File`.  The offset
and the sizes are words of 32 bits and wrap as in the source; the file is any `BlockIO` that serves
its bytes.

The purpose of the two calls is the cursor of POSIX: one natural number, which `Cursor.step` moves.
`results_eq_iff` says for which sequences of calls the code is the cursor.
-/

namespace GheithOS.Files

open Lib

/-- `K::min`. -/
def kMin (a rest : Word) : Word := if a < rest then a else rest

def seekSet : ℤ := 0
def seekCur : ℤ := 1
def seekEnd : ℤ := 2
def eInval : Word := 22#32

variable {σ : Type}

/-- A descriptor of type `File`, with the state of the file system beside it. -/
structure Descriptor (σ : Type) where
  offset : Word
  disk : σ

/-- `size_in_bytes` of the file. -/
def length (file : BlockIO σ) : Word := BitVec.ofNat 32 file.sizeInBytes

/-- `FileDescriptor::read` without a position: the result and the bytes stored.  One descriptor, one
call at a time: the exchange succeeds in the first round. -/
def read (file : BlockIO σ) (size : Word) (d : Descriptor σ) :
    Except Halt ((Word × List Byte) × Descriptor σ) :=
  let fileSize := length file
  let loadedOffset := d.offset
  let updatedSize := kMin (loadedOffset + size) fileSize - loadedOffset
  let position := loadedOffset
  let size := kMin (position + updatedSize) fileSize - position
  match file.readAll position.toNat size.toNat d.disk with
  | .ok ((_, buffer), disk) => .ok ((size, buffer), ⟨loadedOffset + updatedSize, disk⟩)
  | .error e => .error e

/-- The `switch` of `lseek`: `new_offset`, unless `whence` is none of the three. -/
def seekTarget (current length offset whence : Word) : Option Word :=
  if whence.toInt = seekSet then some offset
  else if whence.toInt = seekCur then some (current + offset)
  else if whence.toInt = seekEnd then some (length + offset)
  else none

/-- `lseek` on a descriptor that supports offsets. -/
def lseek (file : BlockIO σ) (offset whence : Word) (d : Descriptor σ) : Word × Descriptor σ :=
  match seekTarget d.offset (length file) offset whence with
  | none => (-eInval, d)
  | some newOffset =>
    if newOffset.toInt < 0 then (-eInval, d) else (newOffset, { d with offset := newOffset })

/-! ### Calls and what the caller sees -/

inductive Call where
  | read (n : Word)
  | lseek (offset whence : Word)
  deriving DecidableEq

inductive Result where
  | count (c : ℕ) (stored : List Byte)
  | sought (position : ℕ)
  | negative
  deriving DecidableEq

def step (file : BlockIO σ) : Call → Descriptor σ → Except Halt (Result × Descriptor σ)
  | .read n, d =>
    match read file n d with
    | .ok ((c, stored), d) => .ok (.count c.toNat stored, d)
    | .error e => .error e
  | .lseek offset whence, d =>
    let (ret, d) := lseek file offset whence d
    .ok (if ret.toInt < 0 then .negative else .sought ret.toNat, d)

/-- The results of a sequence of calls. -/
def results (file : BlockIO σ) : List Call → Descriptor σ → Except Halt (List Result)
  | [], _ => .ok []
  | c :: cs, d =>
    match step file c d with
    | .ok (r, d) => (results file cs d).map (r :: ·)
    | .error e => .error e

/-! ### The cursor -/

namespace Cursor

/-- Where `lseek` with this whence counts from. -/
def base (len : ℕ) (whence : Word) (p : ℕ) : Option ℕ :=
  if whence.toInt = seekSet then some 0
  else if whence.toInt = seekCur then some p
  else if whence.toInt = seekEnd then some len
  else none

def step (len : ℕ) (content : ℕ → Byte) : Call → ℕ → Result × ℕ
  | .read n, p =>
    let c := min n.toNat (len - p)
    (.count c (window content p c), p + c)
  | .lseek offset whence, p =>
    match base len whence p with
    | none => (.negative, p)
    | some b =>
      let sum := (b : ℤ) + offset.toInt
      if 0 ≤ sum ∧ sum < 2 ^ 31 then (.sought sum.toNat, sum.toNat) else (.negative, p)

def results (len : ℕ) (content : ℕ → Byte) : List Call → ℕ → List Result
  | [], _ => []
  | c :: cs, p => (step len content c p).1 :: results len content cs (step len content c p).2

/-- The calls on which 32 bits are enough: a read from a position inside the file or at its end,
with no wrap of `p + n`; a seek whose sum does not wrap. -/
def Fits (len : ℕ) : Call → ℕ → Prop
  | .read n, p => p ≤ len ∧ p + n.toNat < 2 ^ 32
  | .lseek offset whence, p => ∀ b, base len whence p = some b → (b : ℤ) + offset.toInt < 2 ^ 32

/-- Every call fits, at the position that the cursor has then. -/
def AllFit (len : ℕ) (content : ℕ → Byte) : List Call → ℕ → Prop
  | [], _ => True
  | c :: cs, p => Fits len c p ∧ AllFit len content cs (step len content c p).2

end Cursor

/-! ### Words -/

theorem toNat_kMin (a b : Word) : (kMin a b).toNat = min a.toNat b.toNat := by
  unfold kMin
  split
  · next h =>
    rw [BitVec.lt_def] at h
    omega
  · next h =>
    rw [BitVec.lt_def] at h
    omega

@[simp] theorem toNat_length (file : BlockIO σ) : (length file).toNat = file.sizeInBytes :=
  Nat.mod_eq_of_lt file.size_lt

theorem kMin_again (p n len : Word) : kMin (p + (kMin (p + n) len - p)) len = kMin (p + n) len := by
  have h : p + (kMin (p + n) len - p) = kMin (p + n) len := by
    rw [BitVec.add_comm, BitVec.sub_add_cancel]
  rw [h]
  apply BitVec.eq_of_toNat_eq
  rw [toNat_kMin, toNat_kMin]
  omega

/-- The size is the number of bytes to the end, or what was asked for, exactly if the read fits. -/
theorem size_eq_iff (p n len : Word) :
    (kMin (p + n) len - p).toNat = min n.toNat (len.toNat - p.toNat) ↔
      p.toNat ≤ len.toNat ∧ p.toNat + n.toNat < 2 ^ 32 := by
  have hp := p.isLt
  have hn := n.isLt
  have hl := len.isLt
  rw [BitVec.toNat_sub, toNat_kMin, BitVec.toNat_add]
  omega

theorem new_offset_eq {p n len : Word} (h1 : p.toNat ≤ len.toNat) (h2 : p.toNat + n.toNat < 2 ^ 32) :
    (p + (kMin (p + n) len - p)).toNat = p.toNat + min n.toNat (len.toNat - p.toNat) := by
  rw [BitVec.add_comm, BitVec.sub_add_cancel, toNat_kMin, BitVec.toNat_add]
  omega

theorem sum_cases (b offset : Word) :
    (b.toNat + offset.toInt < 2 ^ 32 →
      ((b + offset).toInt < 0 ↔ ¬(0 ≤ b.toNat + offset.toInt ∧ b.toNat + offset.toInt < 2 ^ 31)) ∧
      (0 ≤ (b + offset).toInt → (b + offset).toNat = b.toNat + offset.toInt)) ∧
    (2 ^ 32 ≤ b.toNat + offset.toInt → 0 ≤ (b + offset).toInt) := by
  have hb := b.isLt
  have ho := offset.isLt
  rw [BitVec.toInt_eq_toNat_cond, BitVec.toInt_eq_toNat_cond, BitVec.toNat_add]
  omega

/-! ### One call -/

variable {file : BlockIO σ} {I : σ → Prop} {content : ℕ → Byte}

section Step

variable {d : Descriptor σ} {c : Call}

theorem read_eq (file : BlockIO σ) (n : Word) (d : Descriptor σ) :
    read file n d =
      match file.readAll d.offset.toNat (kMin (d.offset + n) (length file) - d.offset).toNat d.disk with
      | .ok ((_, buffer), disk) => .ok ((kMin (d.offset + n) (length file) - d.offset, buffer),
          ⟨d.offset + (kMin (d.offset + n) (length file) - d.offset), disk⟩)
      | .error e => .error e := by
  unfold read
  dsimp only
  rw [kMin_again]

variable {p : ℕ} {whence : Word}

theorem base_word {b : ℕ} (hp : d.offset.toNat = p)
    (h : Cursor.base file.sizeInBytes whence p = some b) (offset : Word) :
    ∃ w : Word, w.toNat = b ∧ lseek file offset whence d =
      if (w + offset).toInt < 0 then (-eInval, d) else (w + offset, { d with offset := w + offset }) := by
  unfold Cursor.base at h
  unfold lseek seekTarget
  split_ifs at h with h0 h1 h2
  · refine ⟨0#32, Option.some.inj h, ?_⟩
    rw [if_pos h0, BitVec.zero_add]
  · refine ⟨d.offset, hp.trans (Option.some.inj h), ?_⟩
    rw [if_neg h0, if_pos h1]
  · refine ⟨length file, (toNat_length file).trans (Option.some.inj h), ?_⟩
    rw [if_neg h0, if_neg h1, if_pos h2]

theorem lseek_of_base_none (h : Cursor.base file.sizeInBytes whence p = none) (offset : Word) :
    lseek file offset whence d = (-eInval, d) := by
  unfold Cursor.base at h
  unfold lseek seekTarget
  split_ifs at h with h0 h1 h2
  rw [if_neg h0, if_neg h1, if_neg h2]

theorem step_of_fits (H : Serves file I content) (hI : I d.disk)
    (hf : Cursor.Fits file.sizeInBytes c d.offset.toNat) :
    ∃ d', step file c d = .ok ((Cursor.step file.sizeInBytes content c d.offset.toNat).1, d') ∧
      d'.offset.toNat = (Cursor.step file.sizeInBytes content c d.offset.toNat).2 ∧ I d'.disk := by
  cases c with
  | read n =>
    obtain ⟨hp, hn⟩ := hf
    rw [← toNat_length] at hp
    have hsize := (size_eq_iff d.offset n (length file)).mpr ⟨hp, hn⟩
    obtain ⟨⟨r, buffer⟩, disk, hr, heq, hI'⟩ :=
      (H.readAll hI (kMin (d.offset + n) (length file) - d.offset).toNat
        (by simpa using hp)).returns (by simp)
    obtain ⟨-, rfl⟩ := Prod.mk.inj heq
    refine ⟨⟨d.offset + (kMin (d.offset + n) (length file) - d.offset), disk⟩, ?_, ?_, hI'⟩
    · rw [step, read_eq, hr]
      dsimp only [Cursor.step]
      rw [hsize, toNat_length, Nat.min_assoc, Nat.min_self]
    · dsimp only [Cursor.step]
      rw [new_offset_eq hp hn, toNat_length]
  | lseek offset whence =>
    simp only [step, Cursor.step]
    match hb : Cursor.base file.sizeInBytes whence d.offset.toNat with
    | none =>
      rw [lseek_of_base_none hb]
      exact ⟨d, rfl, rfl, hI⟩
    | some b =>
      obtain ⟨w, rfl, hw⟩ := base_word rfl hb offset
      have hs := (sum_cases w offset).1 (hf _ hb)
      rw [hw]
      dsimp only
      by_cases hneg : (w + offset).toInt < 0
      · rw [if_pos hneg, if_neg (hs.1.mp hneg)]
        exact ⟨d, rfl, rfl, hI⟩
      · have hin := not_not.mp fun h => hneg (hs.1.mpr h)
        have hsum := hs.2 (by omega)
        rw [if_neg hneg, if_pos hin]
        refine ⟨{ d with offset := w + offset }, ?_, ?_, hI⟩
        · rw [if_neg hneg, ← hsum, Int.toNat_natCast]
        · rw [← hsum, Int.toNat_natCast]

theorem step_of_not_fits (hf : ¬Cursor.Fits file.sizeInBytes c d.offset.toNat) (d' : Descriptor σ) :
    step file c d ≠ .ok ((Cursor.step file.sizeInBytes content c d.offset.toNat).1, d') := by
  intro h
  cases c with
  | read n =>
    rw [step, read_eq] at h
    match hr : file.readAll d.offset.toNat (kMin (d.offset + n) (length file) - d.offset).toNat d.disk with
    | .error e =>
      rw [hr] at h
      cases h
    | .ok ((r, buffer), disk) =>
      rw [hr] at h
      have hc := (Result.count.inj (Prod.mk.inj (Except.ok.inj h)).1).1
      have hfit := (size_eq_iff d.offset n (length file)).mp (by rw [hc, toNat_length])
      exact hf (by simpa [Cursor.Fits] using hfit)
  | lseek offset whence =>
    simp only [Cursor.Fits, not_forall] at hf
    obtain ⟨b, hb, hlt⟩ := hf
    obtain ⟨w, rfl, hw⟩ := base_word rfl hb offset
    have hpos := (sum_cases w offset).2 (by omega)
    have hneg : ¬(w + offset).toInt < 0 := by omega
    have hout : ¬(0 ≤ (w.toNat : ℤ) + offset.toInt ∧ (w.toNat : ℤ) + offset.toInt < 2 ^ 31) := by omega
    simp only [step, Cursor.step, hw, hb, if_neg hneg, if_neg hout] at h
    cases h

end Step

/-! ### Sequences of calls -/

/-- **Descriptors and the cursor.**  From any offset, the results of a sequence of reads and seeks
are those of the cursor exactly if every call fits at the position of the cursor. -/
theorem results_eq_iff (file : BlockIO σ) (I : σ → Prop) (content : ℕ → Byte)
    (H : Serves file I content) (d : Descriptor σ) (hI : I d.disk) (calls : List Call) :
    results file calls d = .ok (Cursor.results file.sizeInBytes content calls d.offset.toNat) ↔
      Cursor.AllFit file.sizeInBytes content calls d.offset.toNat := by
  induction calls generalizing d with
  | nil => exact iff_of_true rfl trivial
  | cons c cs ih =>
    unfold results Cursor.results Cursor.AllFit
    by_cases hf : Cursor.Fits file.sizeInBytes c d.offset.toNat
    · obtain ⟨d', hs, ho, hI'⟩ := step_of_fits H hI hf
      rw [hs, and_iff_right hf, ← ho, ← ih d' hI']
      dsimp only
      cases results file cs d' with
      | error e => exact iff_of_false (by simp [Except.map]) (by simp)
      | ok rs => simp [Except.map]
    · refine iff_of_false (fun h => ?_) (fun h => hf h.1)
      match hs : step file c d with
      | .error e =>
        rw [hs] at h
        cases h
      | .ok (r, d') =>
        rw [hs] at h
        dsimp only at h
        match hrs : results file cs d' with
        | .error e =>
          rw [hrs] at h
          cases h
        | .ok rs =>
          rw [hrs] at h
          obtain ⟨rfl, -⟩ := List.cons.inj (Except.ok.inj h)
          exact step_of_not_fits hf d' hs

/-- A file of ten zero bytes. -/
def tenZeros : BlockIO Unit := ramFile (fun _ => 0#8) 10 (by decide)

theorem serves_tenZeros : Serves tenZeros (fun _ => True) (fun _ => 0#8) := serves_ramFile _ _ _

/-- A read, a seek to the end and a read of nothing are those of the cursor. -/
theorem results_eq_iff_tenZeros :
    results tenZeros [.read 4#32, .lseek 0#32 2#32, .read 1#32] ⟨0#32, ()⟩ =
      .ok (Cursor.results 10 (fun _ => 0#8) [.read 4#32, .lseek 0#32 2#32, .read 1#32] 0) := by
  refine (results_eq_iff tenZeros (fun _ => True) (fun _ => 0#8) serves_tenZeros
    ⟨0#32, ()⟩ trivial _).mpr ?_
  refine ⟨⟨by decide, by decide⟩, fun b hb => ?_, ⟨by decide, by decide⟩, trivial⟩
  obtain rfl := Option.some.inj hb.symm
  decide

/-- **Behind the end** a read returns the difference modulo 2^32. -/
theorem read_behind_the_end :
    results tenZeros [.lseek 11#32 0#32, .read 1#32] ⟨0#32, ()⟩ = .ok [.sought 11, .count 4294967295 []] ∧
      Cursor.results 10 (fun _ => 0#8) [.lseek 11#32 0#32, .read 1#32] 0 = [.sought 11, .count 0 []] := by
  refine ⟨?_, rfl⟩
  have hseek : step tenZeros (.lseek 11#32 0#32) ⟨0#32, ()⟩ = .ok (.sought 11, ⟨11#32, ()⟩) := rfl
  have hstep : step tenZeros (.read 1#32) ⟨11#32, ()⟩ = .ok (.count 4294967295 [], ⟨10#32, ()⟩) := by
    rw [step, read_eq, readAll_of_lt (by decide) (by decide)]
    rfl
  rw [results, hseek]
  dsimp only
  rw [results, hstep]
  rfl

end GheithOS.Files
