import GheithOS.Files.Cursor

/-!
# GheithOS.Files.Assembly — `block_io.cc` on words and on the caller's buffer

`BlockIO.read` and `BlockIO.readAll` count with natural numbers and return what they read as a list.
Here the two functions are as the machine runs them: the offsets and lengths are words of 32 bits,
whose sums and differences wrap, and the bytes go to memory, whole blocks directly and parts of a
block by way of a temporary.  `carried` is not part of the machine: it records whether a sum or a
difference has wrapped.

For a device that serves its bytes `readAll_exact` says everything a call does: it returns, no
assertion fails, nothing wraps, the buffer holds the bytes of the device, and no other byte of the
memory has changed.
-/

namespace GheithOS.Files.Assembly

open Lib Files

variable {σ : Type}

/-- The device's own state and the memory. -/
structure Machine (σ : Type) where
  disk : σ
  memory : ℕ → Byte
  carried : Bool

/-- The memory after bytes have been written at `buffer`. -/
def put (memory : ℕ → Byte) (buffer : ℕ) (bytes : List Byte) : ℕ → Byte := fun a =>
  if buffer ≤ a ∧ a < buffer + bytes.length then bytes.getD (a - buffer) 0#8 else memory a

/-- `a + b`. -/
def sum (a b : Word) : Prog Halt (Machine σ) Word := fun s =>
  .ok (a + b, { s with carried := s.carried || decide (2 ^ 32 ≤ a.toNat + b.toNat) })

/-- `a - b`. -/
def difference (a b : Word) : Prog Halt (Machine σ) Word := fun s =>
  .ok (a - b, { s with carried := s.carried || decide (a.toNat < b.toNat) })

/-- `read_block` into a temporary. -/
def readTemp (io : BlockIO σ) (blockNumber : Word) : Prog Halt (Machine σ) (List Byte) := fun s =>
  match io.readBlock blockNumber.toNat s.disk with
  | .ok (bytes, disk) => .ok (bytes, { s with disk := disk })
  | .error e => .error e

def memcpy (buffer : ℕ) (bytes : List Byte) : Prog Halt (Machine σ) Unit := fun s =>
  .ok ((), { s with memory := put s.memory buffer bytes })

def blockSize (io : BlockIO σ) : Word := BitVec.ofNat 32 io.blockSize

/-- `BlockIO::read`. -/
def read (io : BlockIO σ) (offset desiredN : Word) (buffer : ℕ) : Prog Halt (Machine σ) ℤ := do
  let sz := length io
  if sz < offset then return -1
  if offset = sz then return 0
  let n := kMin desiredN (← difference sz offset)
  let blockNumber := offset / blockSize io
  let offsetInBlock := offset % blockSize io
  let actualN := kMin (← difference (blockSize io) offsetInBlock) n
  assert (actualN ≤ n)
  assert ((← sum offset actualN) ≤ sz)
  if actualN = blockSize io then
    assert (offsetInBlock = 0#32)
    memcpy buffer (← readTemp io blockNumber)
    return actualN.toNat
  else
    assert ((← sum offsetInBlock actualN) ≤ blockSize io)
    let temp ← readTemp io blockNumber
    memcpy buffer ((temp.drop offsetInBlock.toNat).take actualN.toNat)
    return actualN.toNat

/-- `BlockIO::read_all`, in at most so many rounds; `none` if they are not enough. -/
def readAll (io : BlockIO σ) : ℕ → Word → Word → ℕ → ℤ → Prog Halt (Machine σ) (Option ℤ)
  | 0, _, _, _, _ => return none
  | rounds + 1, offset, n, buffer, totalCount =>
    if n = 0#32 then return some totalCount
    else do
      let cnt ← read io offset n buffer
      if cnt < 0 then return some cnt
      else if cnt = 0 then return some totalCount
      else
        let offset ← sum offset (BitVec.ofInt 32 cnt)
        let n ← difference n (BitVec.ofInt 32 cnt)
        readAll io rounds offset n (buffer + cnt.toNat) (totalCount + cnt)

/-! ### Memory -/

theorem put_window (memory : ℕ → Byte) (buffer : ℕ) (content : ℕ → Byte) (offset n a : ℕ) :
    put memory buffer (window content offset n) a =
      if buffer ≤ a ∧ a < buffer + n then content (offset + (a - buffer)) else memory a := by
  unfold put
  rw [length_window, getD_window]
  split_ifs with h h'
  · rfl
  · omega
  · rfl

theorem put_put_window (memory : ℕ → Byte) (buffer : ℕ) (content : ℕ → Byte) (offset k n : ℕ) :
    put (put memory buffer (window content offset k)) (buffer + k) (window content (offset + k) n) =
      put memory buffer (window content offset (k + n)) := by
  funext a
  rw [put_window, put_window, put_window]
  split_ifs <;> first | omega | rfl | (congr 1; omega)

@[simp] theorem put_nil (memory : ℕ → Byte) (buffer : ℕ) : put memory buffer [] = memory := by
  funext a
  rw [put, if_neg (by rw [List.length_nil]; omega)]

/-! ### Words -/

section Spec

variable {io : BlockIO σ} {I : σ → Prop} {content : ℕ → Byte} {s : Machine σ} {E : Halt → Prop}

variable {a b : Word} {Q : Word → Machine σ → Prop}

theorem ends_sum (h : a.toNat + b.toNat < 2 ^ 32) (hQ : Q (a + b) s) : Ends E (sum a b) s Q := by
  have hsum : sum a b s = .ok (a + b, s) := by
    unfold sum
    rw [decide_eq_false (by omega), Bool.or_false]
  exact ends_of_eq hsum hQ

theorem ends_difference (h : b.toNat ≤ a.toNat) (hQ : Q (a - b) s) :
    Ends E (difference a b) s Q := by
  have hdiff : difference a b s = .ok (a - b, s) := by
    unfold difference
    rw [decide_eq_false (by omega), Bool.or_false]
  exact ends_of_eq hdiff hQ

theorem ends_readTemp (H : Serves io I content) (hI : I s.disk) {blockNumber : Word}
    (hb : blockNumber.toNat * io.blockSize < io.sizeInBytes) {Q : List Byte → Machine σ → Prop}
    (hQ : ∀ disk, I disk →
      Q (window content (blockNumber.toNat * io.blockSize) io.blockSize) { s with disk := disk }) :
    Ends (fun _ => False) (readTemp io blockNumber) s Q := by
  obtain ⟨bytes, disk, hread, rfl, hI'⟩ := (H _ _ hI hb).returns fun _ h => h.elim
  have hrun : readTemp io blockNumber s =
      .ok (window content (blockNumber.toNat * io.blockSize) io.blockSize, { s with disk := disk }) := by
    unfold readTemp
    rw [hread]
  exact ends_of_eq hrun (hQ disk hI')

theorem toNat_blockSize (hblock : io.blockSize < 2 ^ 32) : (blockSize io).toNat = io.blockSize :=
  Nat.mod_eq_of_lt hblock

/-- The length of a piece. -/
def piece (io : BlockIO σ) (offset n : ℕ) : ℕ :=
  min (io.blockSize - offset % io.blockSize) (min n (io.sizeInBytes - offset))

/-- **One piece**, in front of the end. -/
theorem read_ends (H : Serves io I content) (hblock : io.blockSize < 2 ^ 32) (hI : I s.disk)
    {offset : Word} (ho : offset.toNat < io.sizeInBytes) (n : Word) (buffer : ℕ) :
    Ends (fun _ => False) (read io offset n buffer) s fun cnt s' =>
      cnt = piece io offset.toNat n.toNat ∧ I s'.disk ∧ s'.carried = s.carried ∧
        s'.memory = put s.memory buffer (window content offset.toNat (piece io offset.toNat n.toNat)) := by
  have hpos := io.blockSize_pos
  have hmod := Nat.mod_lt offset.toNat hpos
  have hdiv := Nat.div_add_mod' offset.toNat io.blockSize
  have hsize := io.size_lt
  have hlen := toNat_length io
  have hbs := toNat_blockSize hblock
  have hin : (offset % blockSize io).toNat = offset.toNat % io.blockSize := by rw [BitVec.toNat_umod, hbs]
  have hnumber : (offset / blockSize io).toNat =
      offset.toNat / io.blockSize := by rw [BitVec.toNat_udiv, hbs]
  have hb : (offset / blockSize io).toNat * io.blockSize < io.sizeInBytes := by
    rw [hnumber]
    omega
  have hrest : (length io - offset).toNat = io.sizeInBytes - offset.toNat := by
    rw [BitVec.toNat_sub_of_le (by rw [BitVec.le_def]; omega), hlen]
  have hfront : (blockSize io - offset % blockSize io).toNat =
      io.blockSize - offset.toNat % io.blockSize := by
    rw [BitVec.toNat_sub_of_le (by rw [BitVec.le_def]; omega), hbs, hin]
  have hne : offset ≠ length io := fun h => by rw [h] at ho; omega
  unfold read
  rw [if_neg (by rw [BitVec.lt_def]; omega), if_neg hne]
  refine ends_bind (ends_difference (by omega) (ends_bind (ends_difference (by omega) ?_)))
  have hactual : (kMin (blockSize io - offset % blockSize io) (kMin n (length io - offset))).toNat =
      piece io offset.toNat n.toNat := by
    rw [toNat_kMin, toNat_kMin, hrest, hfront]
    rfl
  have hle : (kMin (blockSize io - offset % blockSize io) (kMin n (length io - offset))).toNat ≤
      (kMin n (length io - offset)).toNat := by
    rw [toNat_kMin _ (kMin n (length io - offset))]
    exact Nat.min_le_right _ _
  generalize hk : kMin (blockSize io - offset % blockSize io) (kMin n (length io - offset)) =
      actualN at hactual hle ⊢
  have hpiece : piece io offset.toNat n.toNat ≤ io.sizeInBytes - offset.toNat :=
    (Nat.min_le_right _ _).trans (Nat.min_le_right _ _)
  have hpiece' : piece io offset.toNat n.toNat ≤ io.blockSize - offset.toNat % io.blockSize :=
    Nat.min_le_left _ _
  refine ends_bind (ends_assert (by rw [BitVec.le_def]; exact hle) (ends_bind (ends_sum (by omega) ?_)))
  refine ends_bind (ends_assert ?_ ?_)
  · rw [BitVec.le_def, BitVec.toNat_add_of_lt (by omega)]
    omega
  split
  · next hwhole =>
    have hk' : piece io offset.toNat n.toNat = io.blockSize := by rw [← hactual, hwhole, hbs]
    have hzero : offset % blockSize io = 0#32 := by
      apply BitVec.eq_of_toNat_eq
      rw [hin]
      change _ = 0
      omega
    refine ends_bind (ends_assert hzero (ends_bind (ends_readTemp H hI hb fun disk hI' => ?_)))
    refine ends_bind (ends_of_eq rfl (ends_pure ⟨by rw [hactual], hI', rfl, ?_⟩))
    dsimp only
    rw [hk', hnumber, show offset.toNat / io.blockSize * io.blockSize = offset.toNat by omega]
  · refine ends_bind (ends_sum (by omega) (ends_bind (ends_assert ?_ ?_)))
    · rw [BitVec.le_def, BitVec.toNat_add_of_lt (by omega)]
      omega
    refine ends_bind (ends_readTemp H hI hb fun disk hI' => ?_)
    refine ends_bind (ends_of_eq rfl (ends_pure ⟨by rw [hactual], hI', rfl, ?_⟩))
    dsimp only
    rw [hactual, hnumber, hin, drop_window, hdiv, take_window _ _ hpiece']

theorem read_at_end (n : Word) (buffer : ℕ) : read io (length io) n buffer s = .ok (0, s) := by
  unfold read
  rw [if_neg (by rw [BitVec.lt_def]; omega), if_pos rfl]
  rfl

theorem read_behind {offset : Word} (ho : io.sizeInBytes < offset.toNat) (n : Word) (buffer : ℕ) :
    read io offset n buffer s = .ok (-1, s) := by
  unfold read
  rw [if_pos (by rw [BitVec.lt_def, toNat_length]; exact ho)]
  rfl

theorem piece_pos {offset n : ℕ} (ho : offset < io.sizeInBytes) (hn : 0 < n) : 0 < piece io offset n := by
  have hmod := Nat.mod_lt offset io.blockSize_pos
  unfold piece
  omega

theorem piece_add {offset : ℕ} (n : ℕ) (ho : offset < io.sizeInBytes) :
    piece io offset n + min (n - piece io offset n) (io.sizeInBytes - (offset + piece io offset n)) =
      min n (io.sizeInBytes - offset) := by
  unfold piece
  omega

/-- **The loop**: from an offset that is not behind the end, with more rounds than bytes to read. -/
theorem readAll_ends (H : Serves io I content) (hblock : io.blockSize < 2 ^ 32) {rounds : ℕ}
    {offset n : Word} (hI : I s.disk) (hrounds : n.toNat < rounds)
    (ho : offset.toNat ≤ io.sizeInBytes) (buffer : ℕ) (totalCount : ℤ) :
    Ends (fun _ => False) (readAll io rounds offset n buffer totalCount) s fun r s' =>
      r = some (totalCount + (min n.toNat (io.sizeInBytes - offset.toNat) : ℕ)) ∧ I s'.disk ∧
        s'.carried = s.carried ∧ s'.memory =
          put s.memory buffer
            (window content offset.toNat (min n.toNat (io.sizeInBytes - offset.toNat))) := by
  induction rounds generalizing offset n buffer totalCount s with
  | zero => omega
  | succ rounds ih =>
    unfold readAll
    by_cases h0 : n = 0#32
    · subst h0
      rw [if_pos rfl]
      exact ends_pure ⟨by simp, hI, rfl, by simp⟩
    have hn : 0 < n.toNat := Nat.pos_of_ne_zero fun h => h0 (BitVec.eq_of_toNat_eq h)
    rw [if_neg h0]
    rcases ho.lt_or_eq with hlt | heq
    · refine ends_bind ((read_ends H hblock hI hlt n buffer).mono ?_)
      rintro _ s₁ ⟨rfl, hI₁, hcarried, hmemory⟩
      have hpos := piece_pos hlt hn
      have hadd := piece_add n.toNat hlt
      have hsize := io.size_lt
      generalize piece io offset.toNat n.toNat = k at hpos hadd hmemory ⊢
      have hk : (BitVec.ofInt 32 (k : ℤ)).toNat = k := by
        rw [BitVec.ofInt_natCast]
        exact Nat.mod_eq_of_lt (by omega)
      rw [if_neg (by omega), if_neg (by omega)]
      refine ends_bind (ends_sum (by omega) (ends_bind (ends_difference (by omega) ?_)))
      have hoffset : (offset + BitVec.ofInt 32 (k : ℤ)).toNat = offset.toNat + k := by
        rw [BitVec.toNat_add_of_lt (by omega), hk]
      have hleft : (n - BitVec.ofInt 32 (k : ℤ)).toNat = n.toNat - k := by
        rw [BitVec.toNat_sub_of_le (by rw [BitVec.le_def]; omega), hk]
      refine (ih hI₁ (by omega) (by omega) _ _).mono ?_
      rintro _ s₂ ⟨rfl, hI₂, hcarried₂, hmemory₂⟩
      rw [hoffset, hleft] at hmemory₂ ⊢
      refine ⟨?_, hI₂, hcarried₂.trans hcarried, ?_⟩
      · rw [← hadd]
        push_cast
        rw [Int.add_assoc]
      · rw [hmemory₂, hmemory, Int.toNat_natCast, put_put_window, hadd]
    · obtain rfl : offset = length io := BitVec.eq_of_toNat_eq (by rw [heq, toNat_length])
      refine ends_bind (ends_of_eq (read_at_end n buffer) ?_)
      exact ends_pure ⟨by simp, hI, rfl, by simp⟩

end Spec

/-- **Block reads assemble exactly.**  For every device that serves its bytes, every offset and
every `n > 0`, the call returns, with no failed assertion and no sum or difference that wraps.
Behind the end of the device it returns `-1` and writes nothing; otherwise it returns
`c = min n (sz - offset)`, the bytes `buffer[0..c-1]` are those of the device from `offset` on, and
all others are as before. -/
theorem readAll_exact {io : BlockIO σ} {I : σ → Prop} {content : ℕ → Byte} (H : Serves io I content)
    (hblock : io.blockSize < 2 ^ 32) (s : Machine σ) (hI : I s.disk) (offset n : Word)
    (hn : n ≠ 0#32) (buffer : ℕ) (rounds : ℕ) (hrounds : n.toNat < rounds) :
    ∃ r s', readAll io rounds offset n buffer 0 s = .ok (some r, s') ∧ I s'.disk ∧ s'.carried = s.carried ∧
      (io.sizeInBytes < offset.toNat → r = -1 ∧ s'.memory = s.memory) ∧
      (offset.toNat ≤ io.sizeInBytes → r = (min n.toNat (io.sizeInBytes - offset.toNat) : ℕ) ∧
        ∀ a, s'.memory a =
          if buffer ≤ a ∧ a < buffer + min n.toNat (io.sizeInBytes - offset.toNat)
          then content (offset.toNat + (a - buffer)) else s.memory a) := by
  by_cases ho : offset.toNat ≤ io.sizeInBytes
  · obtain ⟨_, s', hs', rfl, hI', hcarried, hmemory⟩ :=
      (readAll_ends H hblock hI hrounds ho buffer 0).returns fun _ h => h.elim
    refine ⟨_, s', hs', hI', hcarried, fun h => absurd ho (Nat.not_le.mpr h),
      fun _ => ⟨Int.zero_add _, fun a => ?_⟩⟩
    rw [hmemory, put_window]
  · obtain ⟨rounds, rfl⟩ := Nat.exists_eq_succ_of_ne_zero (Nat.ne_of_gt (Nat.zero_lt_of_lt hrounds))
    refine ⟨-1, s, ?_, hI, rfl, fun _ => ⟨rfl, rfl⟩, fun h => absurd h ho⟩
    unfold readAll
    rw [if_neg hn, bind_of_eq (read_behind (Nat.lt_of_not_le ho) n buffer)]
    rfl

/-- Twenty bytes are asked for at offset 3 of a file of ten: seven are written. -/
theorem readAll_exact_tenZeros : ∃ s',
    readAll tenZeros 21 3#32 20#32 100 0 ⟨(), fun _ => 1#8, false⟩ = .ok (some 7, s') ∧
      s'.carried = false ∧ s'.memory 99 = 1#8 ∧ s'.memory 106 = 0#8 ∧ s'.memory 107 = 1#8 := by
  obtain ⟨r, s', hs', -, hcarried, -, hread⟩ := readAll_exact serves_tenZeros (by decide)
    ⟨(), fun _ => 1#8, false⟩ trivial 3#32 20#32 (by decide) 100 21 (by decide)
  obtain ⟨rfl, hmemory⟩ := hread (by decide)
  exact ⟨s', hs', hcarried, hmemory 99, hmemory 106, hmemory 107⟩

end GheithOS.Files.Assembly
