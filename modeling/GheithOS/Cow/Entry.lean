import GheithOS.Word

/-!
# GheithOS.Cow.Entry — page-directory and page-table entries as 32-bit words

The word-level vocabulary that `cow.cc` and `vmm.cc` share: the present and read/write flags, the
page-number mask, and the page number `*entry / FRAME_SIZE`.  `tgt` and `isRw` are all that the
copy-on-write accounting looks at in an entry, so each word operation the source performs
(`entry & ~FLAG_RW`, `entry | FLAG_RW`, `frame | flags`) gets the two lemmas that say what it does
to them; nothing later opens a word.
-/

namespace GheithOS.Cow

/-! ### Constants of `cow.cc` / `vmm.cc` -/

/-- `PhysMem::FRAME_SIZE`. -/
def frameSize : ℕ := 4096

/-- Number of frames of a 32-bit physical address space. -/
def frameLimit : ℕ := 1048576

def flagPr : Word := 1#32 <<< 0
def flagRw : Word := 1#32 <<< 1
def flagUs : Word := 1#32 <<< 2
def flagGl : Word := 1#32 <<< 8

def pgNumMask : Word := 0xFFFFFFFF#32 / 4096#32 * 4096#32
def flagsMask : Word := ~~~pgNumMask

/-! ### Reading an entry -/

/-- `*entry & FLAG_PR`. -/
def isPresent (e : Word) : Bool := e &&& flagPr != 0

/-- `(*entry & FLAG_RW) > 0`. -/
def isRw (e : Word) : Bool := e &&& flagRw != 0

/-- `*entry / PhysMem::FRAME_SIZE`, the page number. -/
def pageNumber (e : Word) : ℕ := (e / 4096#32).toNat

/-- The frame a present entry targets. -/
def tgt (e : Word) : Option ℕ := if isPresent e then some (pageNumber e) else none

/-- The address of frame `f`. -/
def frameAddr (f : ℕ) : Word := BitVec.ofNat 32 (f * frameSize)

/-! ### Bits: flags are single bits, page numbers distribute over the word operations -/

variable {m : Word} {f : ℕ}

section Bits

theorem isPresent_eq (e : Word) : isPresent e = e.getLsbD 0 := by
  have h : flagPr = BitVec.twoPow 32 0 := by decide
  rw [isPresent, h, BitVec.and_twoPow]
  cases e.getLsbD 0 <;> decide

theorem isRw_eq (e : Word) : isRw e = e.getLsbD 1 := by
  have h : flagRw = BitVec.twoPow 32 1 := by decide
  rw [isRw, h, BitVec.and_twoPow]
  cases e.getLsbD 1 <;> decide

theorem pageNumber_eq_shift (e : Word) : pageNumber e = e.toNat >>> 12 := by
  rw [pageNumber, BitVec.toNat_udiv, Nat.shiftRight_eq_div_pow]
  rfl

theorem pageNumber_lt (e : Word) : pageNumber e < frameLimit := by
  have h := e.isLt
  rw [pageNumber_eq_shift, Nat.shiftRight_eq_div_pow]
  unfold frameLimit
  omega

theorem pageNumber_or (a b : Word) : pageNumber (a ||| b) = pageNumber a ||| pageNumber b := by
  simp only [pageNumber_eq_shift, BitVec.toNat_or, Nat.shiftRight_or_distrib]

theorem pageNumber_and (a b : Word) : pageNumber (a &&& b) = pageNumber a &&& pageNumber b := by
  simp only [pageNumber_eq_shift, BitVec.toNat_and, Nat.shiftRight_and_distrib]

/-- A mask that keeps all of the page-number bits keeps the page number. -/
theorem pageNumber_and_of_full (hm : pageNumber m = 2 ^ 20 - 1) (e : Word) :
    pageNumber (e &&& m) = pageNumber e := by
  rw [pageNumber_and, hm]
  exact Nat.and_two_pow_sub_one_of_lt_two_pow (pageNumber_lt e)

theorem pageNumber_or_flags (hm : pageNumber m = 0) (e : Word) :
    pageNumber (e ||| m) = pageNumber e := by
  rw [pageNumber_or, hm, Nat.or_zero]

theorem pageNumber_flagsMask_and (e : Word) : pageNumber (e &&& flagsMask) = 0 := by
  rw [pageNumber_and, show pageNumber flagsMask = 0 by decide, Nat.and_zero]

theorem frameAddr_toNat (hf : f < frameLimit) : (frameAddr f).toNat = f * 4096 := by
  unfold frameLimit at hf
  rw [frameAddr, BitVec.toNat_ofNat, frameSize]
  exact Nat.mod_eq_of_lt (by omega)

@[simp] theorem pageNumber_frameAddr (hf : f < frameLimit) : pageNumber (frameAddr f) = f := by
  rw [pageNumber_eq_shift, frameAddr_toNat hf, Nat.shiftRight_eq_div_pow]
  omega

/-- The low twelve bits of a frame address are clear. -/
theorem frameAddr_getLsbD {i : ℕ} (hf : f < frameLimit) (hi : i < 12) :
    (frameAddr f).getLsbD i = false := by
  rw [BitVec.getLsbD, frameAddr_toNat hf, show 4096 = 2 ^ 12 by rfl, Nat.testBit_mul_two_pow]
  simp [show ¬ 12 ≤ i by omega]

end Bits

/-! ### What the source's word operations do to `tgt` and `isRw` -/

section Ops

@[simp] theorem tgt_zero : tgt 0#32 = none := by decide

@[simp] theorem isRw_zero : isRw 0#32 = false := by decide

theorem tgt_eq_some {e : Word} : tgt e = some f ↔ isPresent e = true ∧ pageNumber e = f := by
  unfold tgt
  split <;> simp_all

theorem tgt_eq_none {e : Word} : tgt e = none ↔ isPresent e = false := by
  unfold tgt
  split <;> simp_all

/-- `*entry & ~FLAG_RW` keeps the target. -/
@[simp] theorem tgt_clearRw (e : Word) : tgt (e &&& ~~~flagRw) = tgt e := by
  unfold tgt
  rw [pageNumber_and_of_full (by decide), isPresent_eq, isPresent_eq, BitVec.getLsbD_and,
    show (~~~flagRw).getLsbD 0 = true by decide, Bool.and_true]

@[simp] theorem isRw_clearRw (e : Word) : isRw (e &&& ~~~flagRw) = false := by
  rw [isRw_eq, BitVec.getLsbD_and, show (~~~flagRw).getLsbD 1 = false by decide, Bool.and_false]

/-- `*entry | FLAG_RW` keeps the target. -/
@[simp] theorem tgt_setRw (e : Word) : tgt (e ||| flagRw) = tgt e := by
  unfold tgt
  rw [pageNumber_or_flags (by decide), isPresent_eq, isPresent_eq, BitVec.getLsbD_or,
    show flagRw.getLsbD 0 = false by decide, Bool.or_false]

@[simp] theorem isRw_setRw (e : Word) : isRw (e ||| flagRw) = true := by
  rw [isRw_eq, BitVec.getLsbD_or, show flagRw.getLsbD 1 = true by decide, Bool.or_true]

/-- `new_frame | (*entry & FLAGS_MASK)`: the flags of `e` on another frame. -/
theorem tgt_reframe {e : Word} (hf : f < frameLimit) (he : isPresent e = true) :
    tgt (frameAddr f ||| (e &&& flagsMask)) = some f := by
  rw [tgt_eq_some, pageNumber_or, pageNumber_frameAddr hf, pageNumber_flagsMask_and, Nat.or_zero]
  refine ⟨?_, rfl⟩
  rw [isPresent_eq] at he ⊢
  rw [BitVec.getLsbD_or, BitVec.getLsbD_and, he, show flagsMask.getLsbD 0 = true by decide,
    Bool.and_true, Bool.or_true]

/-- `frame | flags` for a flag word: it targets the frame when `FLAG_PR` is among the flags. -/
theorem tgt_frame_flags (hf : f < frameLimit) (hm : pageNumber m = 0) (hp : isPresent m = true) :
    tgt (frameAddr f ||| m) = some f := by
  rw [tgt_eq_some, pageNumber_or_flags hm, pageNumber_frameAddr hf]
  refine ⟨?_, rfl⟩
  rw [isPresent_eq] at hp ⊢
  rw [BitVec.getLsbD_or, hp, Bool.or_true]

theorem isRw_frame_flags (hf : f < frameLimit) : isRw (frameAddr f ||| m) = isRw m := by
  rw [isRw_eq, isRw_eq, BitVec.getLsbD_or, frameAddr_getLsbD hf (by omega), Bool.false_or]

theorem and_pgNumMask (e : Word) : e &&& pgNumMask = frameAddr (pageNumber e) := by
  apply BitVec.eq_of_toNat_eq
  rw [frameAddr_toNat (pageNumber_lt e), BitVec.toNat_and, pageNumber_eq_shift]
  apply Nat.eq_of_testBit_eq
  intro i
  rw [Nat.testBit_and, show 4096 = 2 ^ 12 by rfl, Nat.testBit_mul_two_pow, Nat.testBit_shiftRight]
  by_cases hi : 32 ≤ i
  · have hhigh : e.toNat.testBit i = false :=
      Nat.testBit_lt_two_pow (Nat.lt_of_lt_of_le e.isLt (Nat.pow_le_pow_right (by omega) hi))
    simp [hhigh, show 12 + (i - 12) = i by omega]
  · have hbit : ∀ j < 32, pgNumMask.toNat.testBit j = decide (12 ≤ j) := by decide
    rw [hbit i (by omega)]
    by_cases h12 : 12 ≤ i
    · simp [h12, show 12 + (i - 12) = i by omega]
    · simp [h12]

end Ops

end GheithOS.Cow
