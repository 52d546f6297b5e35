import Mathlib.Algebra.Group.Int.Defs
import GheithOS.Lib.Prog
import GheithOS.Lib.Window
import GheithOS.Word

/-!
# GheithOS.Files.BlockIO — `block_io.cc`

A `BlockIO` gives its bytes block by block; `read` cuts one piece out of one block and `readAll`
puts pieces together.  The lengths and offsets are those of the source's `uint32_t`; no sum of the
two functions passes the size of the device, so none of them wraps.

`Serves io I content` says what a block device is for: in the states of `I`, every block in front of
the end holds the bytes of `content`.  From it `readAll_spec`, for every offset and every length.
-/

namespace GheithOS.Files

open Lib

/-- The class `BlockIO`: its block size and its virtual functions. -/
structure BlockIO (σ : Type) where
  blockSize : ℕ
  sizeInBytes : ℕ
  readBlock : ℕ → Prog Halt σ (List Byte)
  blockSize_pos : 0 < blockSize
  size_lt : sizeInBytes < 2 ^ 32

variable {σ : Type}

/-- `read`: the result and the bytes that are put into the buffer. -/
def BlockIO.read (io : BlockIO σ) (offset desiredN : ℕ) : Prog Halt σ (ℤ × List Byte) := do
  let sz := io.sizeInBytes
  if sz < offset then return (-1, [])
  if offset = sz then return (0, [])
  let n := min desiredN (sz - offset)
  let blockNumber := offset / io.blockSize
  let offsetInBlock := offset % io.blockSize
  let actualN := min (io.blockSize - offsetInBlock) n
  assert (actualN ≤ n)
  assert (offset + actualN ≤ sz)
  if actualN = io.blockSize then
    assert (offsetInBlock = 0)
    let buffer ← io.readBlock blockNumber
    return (actualN, buffer)
  else
    assert (offsetInBlock + actualN ≤ io.blockSize)
    let temp ← io.readBlock blockNumber
    return (actualN, (temp.drop offsetInBlock).take actualN)

/-- The loop of `read_all`.  A round that goes on has read a byte, so that `n` rounds are enough. -/
def BlockIO.readAllLoop (io : BlockIO σ) : ℕ → ℕ → ℕ → ℤ → List Byte → Prog Halt σ (ℤ × List Byte)
  | 0, _, _, totalCount, buffer => return (totalCount, buffer)
  | rounds + 1, offset, n, totalCount, buffer =>
    if n = 0 then return (totalCount, buffer)
    else do
      let (cnt, piece) ← io.read offset n
      if cnt < 0 then return (cnt, buffer)
      else if cnt = 0 then return (totalCount, buffer)
      else readAllLoop io rounds (offset + cnt.toNat) (n - cnt.toNat) (totalCount + cnt) (buffer ++ piece)

def BlockIO.readAll (io : BlockIO σ) (offset n : ℕ) : Prog Halt σ (ℤ × List Byte) :=
  io.readAllLoop n offset n 0 []

/-! ### What the functions do -/

/-- In every state of `I` the blocks hold the bytes of `content`, and reading one leads to a state
of `I`. -/
def Serves (io : BlockIO σ) (I : σ → Prop) (content : ℕ → Byte) : Prop :=
  ∀ b s, I s → b * io.blockSize < io.sizeInBytes →
    Ends (fun _ => False) (io.readBlock b) s fun bytes s' =>
      bytes = window content (b * io.blockSize) io.blockSize ∧ I s'

variable {io : BlockIO σ} {I : σ → Prop} {content : ℕ → Byte} {s : σ}

theorem Serves.read (H : Serves io I content) (hI : I s) {offset n : ℕ} (ho : offset < io.sizeInBytes) :
    Ends (fun _ => False) (io.read offset n) s fun r s' =>
      r = (((min (io.blockSize - offset % io.blockSize) (min n (io.sizeInBytes - offset)) : ℕ) : ℤ),
        window content offset (min (io.blockSize - offset % io.blockSize)
          (min n (io.sizeInBytes - offset)))) ∧ I s' := by
  have hpos := io.blockSize_pos
  have hmod := Nat.mod_lt offset hpos
  have hdiv := Nat.div_add_mod' offset io.blockSize
  have hb : offset / io.blockSize * io.blockSize < io.sizeInBytes := by omega
  unfold BlockIO.read
  rw [if_neg (by omega), if_neg (by omega)]
  set actualN := min (io.blockSize - offset % io.blockSize) (min n (io.sizeInBytes - offset)) with ha
  refine ends_bind (ends_assert (by omega) (ends_bind (ends_assert (by omega) ?_)))
  split
  · next hw =>
    have h0 : offset % io.blockSize = 0 := by omega
    refine ends_bind (ends_assert h0 (ends_bind ((H _ s hI hb).mono fun bytes s' h => ends_pure ?_)))
    refine ⟨?_, h.2⟩
    rw [h.1, ha, hw, show offset / io.blockSize * io.blockSize = offset by omega]
  · refine ends_bind
      (ends_assert (by omega) (ends_bind ((H _ s hI hb).mono fun bytes s' h => ends_pure ?_)))
    refine ⟨?_, h.2⟩
    rw [h.1, drop_window, hdiv, take_window _ _ (by omega)]

/-- **The loop**: with `n` bytes to read and rounds for them, it appends what there is. -/
theorem Serves.readAllLoop (H : Serves io I content) :
    ∀ (rounds : ℕ) {offset n : ℕ} {totalCount : ℤ} {buffer : List Byte} {s : σ}, I s → n ≤ rounds →
      offset ≤ io.sizeInBytes →
      Ends (fun _ => False) (io.readAllLoop rounds offset n totalCount buffer) s fun r s' =>
        r = (totalCount + (min n (io.sizeInBytes - offset) : ℕ),
          buffer ++ window content offset (min n (io.sizeInBytes - offset))) ∧ I s'
  | 0, offset, n, totalCount, buffer, s, hI, hn, ho => by
    obtain rfl : n = 0 := by omega
    exact ends_pure ⟨by simp, hI⟩
  | rounds + 1, offset, n, totalCount, buffer, s, hI, hn, ho => by
    unfold BlockIO.readAllLoop
    by_cases h0 : n = 0
    · subst h0
      rw [if_pos rfl]
      exact ends_pure ⟨by simp, hI⟩
    rw [if_neg h0]
    rcases ho.lt_or_eq with hlt | heq
    · refine ends_bind ((H.read hI hlt).mono fun r s' h => ?_)
      obtain ⟨rfl, hI'⟩ := h
      have hpos := io.blockSize_pos
      have hmod := Nat.mod_lt offset hpos
      set k := min (io.blockSize - offset % io.blockSize) (min n (io.sizeInBytes - offset)) with hk
      have hk0 : 0 < k := by omega
      have hrest : k + min (n - k) (io.sizeInBytes - (offset + k)) =
          min n (io.sizeInBytes - offset) := by omega
      simp only [Int.toNat_natCast]
      rw [if_neg (by omega), if_neg (by omega)]
      refine (Serves.readAllLoop H rounds hI' (by omega) (by omega)).mono fun r s'' h => ⟨?_, h.2⟩
      rw [h.1, List.append_assoc, window_append, hrest, ← hrest]
      push_cast
      rw [Int.add_assoc]
    · have hend : io.read offset n s = .ok ((0, []), s) := by
        unfold BlockIO.read
        rw [if_neg (by omega), if_pos heq]
        rfl
      refine ends_bind (ends_of_eq hend ?_)
      exact ends_pure ⟨by simp [heq], hI⟩

/-- **`read_all`**: as many bytes as were asked for, or as there are. -/
theorem Serves.readAll (H : Serves io I content) (hI : I s) {offset : ℕ} (n : ℕ)
    (ho : offset ≤ io.sizeInBytes) :
    Ends (fun _ => False) (io.readAll offset n) s fun r s' =>
      r = (((min n (io.sizeInBytes - offset) : ℕ) : ℤ),
        window content offset (min n (io.sizeInBytes - offset))) ∧
        I s' := by
  refine (H.readAllLoop n hI le_rfl ho).mono fun r s' h => ⟨?_, h.2⟩
  rw [h.1, Int.zero_add, List.nil_append]

theorem readAll_of_lt {offset n : ℕ} (ho : io.sizeInBytes < offset) (hn : n ≠ 0) (s : σ) :
    io.readAll offset n s = .ok ((-1, []), s) := by
  obtain ⟨m, rfl⟩ := Nat.exists_eq_succ_of_ne_zero hn
  have hend : io.read offset (m + 1) s = .ok ((-1, []), s) := by
    unfold BlockIO.read
    rw [if_pos ho]
    rfl
  unfold BlockIO.readAll BlockIO.readAllLoop
  rw [if_neg hn, bind_of_eq hend]
  rfl

/-- A file in memory. -/
def ramFile (content : ℕ → Byte) (size : ℕ) (hsize : size < 2 ^ 32) : BlockIO Unit where
  blockSize := 1024
  sizeInBytes := size
  readBlock := fun b => return window content (b * 1024) 1024
  blockSize_pos := by decide
  size_lt := hsize

theorem serves_ramFile (content : ℕ → Byte) (size : ℕ) (hsize : size < 2 ^ 32) :
    Serves (ramFile content size hsize) (fun _ => True) content := fun _ _ _ _ => ends_pure ⟨rfl, trivial⟩

end GheithOS.Files
