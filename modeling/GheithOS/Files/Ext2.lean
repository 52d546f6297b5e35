import GheithOS.Files.Cache
import Mathlib.Tactic.Ring
import Mathlib.Tactic.Linarith

/-!
# GheithOS.Files.Ext2 — the block tree of `ext2.cc`

The blocks of a file: twelve pointers in the inode and three trees of depth one, two and three.
`recurseRadixTree` and `getDataBlock` walk them with `uint32_t` arithmetic that may wrap, and read
every pointer from the disk; `Format` is what the file system lays down, in natural numbers.

`serves_node`: if the block numbers on the paths of a file fit, its node serves the bytes that the
format assigns.
-/

namespace GheithOS.Files

open Lib

/-- Arithmetic of `uint32_t`. -/
def u32 (n : ℕ) : ℕ := n % 2 ^ 32

/-- The four bytes of a `uint32_t` in memory. -/
def littleEndian : List Byte → ℕ
  | [] => 0
  | b :: bs => b.toNat + 256 * littleEndian bs

/-- The bytes of a number in memory. -/
def bytesOf (n value : ℕ) : List Byte := (List.range n).map fun i => BitVec.ofNat 8 (value / 256 ^ i)

variable {σ : Type}

/-- `read` of a `uint32_t`. -/
def readUint32 (io : BlockIO σ) (offset : ℕ) : Prog Halt σ ℕ := do
  let (cnt, bytes) ← io.readAll offset 4
  assert (cnt = 4)
  return littleEndian bytes

def directCutoff : ℕ := 12
def maxIndirection : ℕ := 3

/-- What `Node` keeps of an inode, with the block size of the file system. -/
structure Inode where
  blockSize : ℕ
  size : ℕ
  blockPointers : ℕ → ℕ
  blockSize_pos : 0 < blockSize
  size_lt : size < 2 ^ 32

def getBlockOffset (blockSize blockNumber : ℕ) : ℕ := u32 (blockNumber * blockSize)

/-- The loop that computes `pointers_per_block` to the power `depth`. -/
def treeCounter (pointersPerBlock : ℕ) : ℕ → ℕ
  | 0 => 1
  | depth + 1 => u32 (treeCounter pointersPerBlock depth * pointersPerBlock)

def recurseRadixTree (io : BlockIO σ) (blockSize : ℕ) : ℕ → ℕ → ℕ → Prog Halt σ ℕ
  | block, start, depth =>
    if start = 0 then return 0
    else do
      let counter := treeCounter (blockSize / 4) depth
      let result ← readUint32 io (u32 (getBlockOffset blockSize start + u32 (block / counter * 4)))
      match depth with
      | 0 => return result
      | depth + 1 => recurseRadixTree io blockSize (block % counter) result depth

/-- The loop of `get_data_block`, with the rounds that are left. -/
def getDataBlockLoop (io : BlockIO σ) (node : Inode) : ℕ → ℕ → ℕ → ℕ → Prog Halt σ ℕ
  | 0, _, _, _ => return 0
  | rounds + 1, index, block, counter =>
    if block < counter then
        recurseRadixTree io node.blockSize block (node.blockPointers (index + directCutoff)) index
    else getDataBlockLoop io node rounds (index + 1) (block - counter)
        (u32 (counter * (node.blockSize / 4)))

def getDataBlock (io : BlockIO σ) (node : Inode) (block : ℕ) : Prog Halt σ ℕ :=
  if block < directCutoff then return node.blockPointers block
  else getDataBlockLoop io node maxIndirection 0 (block - directCutoff) (node.blockSize / 4)

def nodeReadBlock (io : BlockIO σ) (node : Inode) (number : ℕ) : Prog Halt σ (List Byte) := do
  let realNumber ← getDataBlock io node number
  if realNumber ≠ 0 then
    let (_, buffer) ← io.readAll (getBlockOffset node.blockSize realNumber) node.blockSize
    return buffer
  else return List.replicate node.blockSize 0#8

/-- A node is a `BlockIO`. -/
def nodeBlocks (io : BlockIO σ) (node : Inode) : BlockIO σ where
  blockSize := node.blockSize
  sizeInBytes := node.size
  readBlock := nodeReadBlock io node
  blockSize_pos := node.blockSize_pos
  size_lt := node.size_lt

/-! ### The format -/

namespace Format

variable (disk : ℕ → Byte) (blockSize : ℕ)

/-- The `i`-th pointer of an indirect block; a pointer of a block that is not there is 0. -/
def pointer (b i : ℕ) : ℕ := if b = 0 then 0 else littleEndian (window disk (b * blockSize + 4 * i) 4)

/-- The pointers that lead to the `f`-th block of a file; the last of them is the number of the
block. -/
def path (blockPointers : ℕ → ℕ) (f : ℕ) : List ℕ :=
  let p := blockSize / 4
  if f < 12 then [blockPointers f]
  else if f - 12 < p then
    let b := blockPointers 12
    [b, pointer disk blockSize b (f - 12)]
  else if f - 12 - p < p ^ 2 then
    let i := f - 12 - p
    let b := blockPointers 13
    let c := pointer disk blockSize b (i / p)
    [b, c, pointer disk blockSize c (i % p)]
  else
    let i := f - 12 - p - p ^ 2
    let b := blockPointers 14
    let c := pointer disk blockSize b (i / p ^ 2)
    let d := pointer disk blockSize c (i / p % p)
    [b, c, d, pointer disk blockSize d (i % p)]

def block (blockPointers : ℕ → ℕ) (f : ℕ) : ℕ := (path disk blockSize blockPointers f).getLastD 0

/-- The byte of a file at an offset. -/
def byte (blockPointers : ℕ → ℕ) (o : ℕ) : Byte :=
  let b := block disk blockSize blockPointers (o / blockSize)
  if b = 0 then 0#8 else disk (b * blockSize + o % blockSize)

end Format

/-- The block numbers on the paths of the file fit into the disk. -/
def Fits (disk : ℕ → Byte) (node : Inode) : Prop :=
  ∀ f, f * node.blockSize < node.size → ∀ b ∈ Format.path disk node.blockSize node.blockPointers f,
    (b + 1) * node.blockSize < 2 ^ 32

/-! ### Walking a tree -/

variable {p : ℕ}

section Walk

variable {io : BlockIO σ} {I : σ → Prop} {disk : ℕ → Byte} {s : σ} {bs : ℕ}

theorem u32_of_lt {n : ℕ} (h : n < 2 ^ 32) : u32 n = n := Nat.mod_eq_of_lt h

theorem readPointer (H : Serves io I disk) (hsize : io.sizeInBytes = 2 ^ 32 - 1) (hI : I s)
    {b i : ℕ} (hb : (b + 1) * bs < 2 ^ 32) (h0 : b ≠ 0) (hi : i < bs / 4) :
    Ends (fun _ => False) (readUint32 io (u32 (getBlockOffset bs b + u32 (i * 4)))) s fun r s' =>
      r = Format.pointer disk bs b i ∧ I s' := by
  have hexp : (b + 1) * bs = b * bs + bs := by rw [Nat.add_mul, Nat.one_mul]
  have hoff : u32 (getBlockOffset bs b + u32 (i * 4)) = b * bs + 4 * i := by
    unfold getBlockOffset
    rw [u32_of_lt (n := b * bs) (by omega), u32_of_lt (n := i * 4) (by omega), u32_of_lt (by omega)]
    omega
  rw [hoff]
  refine ends_bind ((H.readAll hI 4 (by omega)).mono fun r s' h => ?_)
  obtain ⟨rfl, hI'⟩ := h
  have hmin : min 4 (io.sizeInBytes - (b * bs + 4 * i)) = 4 := by omega
  refine ends_bind (ends_assert ?_ (ends_pure ⟨?_, hI'⟩))
  · rw [hmin]
    rfl
  · rw [hmin, Format.pointer, if_neg h0]

theorem treeCounter_eq (hp : 0 < p) : ∀ d, p ^ d < 2 ^ 32 → treeCounter p d = p ^ d
  | 0, _ => rfl
  | d + 1, h => by
    have hle : p ^ d ≤ p ^ (d + 1) := Nat.pow_le_pow_right hp (Nat.le_succ d)
    rw [treeCounter, treeCounter_eq hp d (by omega), ← Nat.pow_succ, u32_of_lt h]

variable (disk bs) in
/-- The pointer that a tree of the given depth has for block `i`. -/
def leaf : ℕ → ℕ → ℕ → ℕ
  | 0, b, i => Format.pointer disk bs b i
  | d + 1, b, i => leaf d (Format.pointer disk bs b (i / (bs / 4) ^ (d + 1))) (i % (bs / 4) ^ (d + 1))

variable (disk bs) in
/-- The indirect blocks on the way to it fit. -/
def LeafFits : ℕ → ℕ → ℕ → Prop
  | 0, b, _ => (b + 1) * bs < 2 ^ 32
  | d + 1, b, i => (b + 1) * bs < 2 ^ 32 ∧
      LeafFits d (Format.pointer disk bs b (i / (bs / 4) ^ (d + 1))) (i % (bs / 4) ^ (d + 1))

theorem leaf_zero (d : ℕ) : ∀ i, leaf disk bs d 0 i = 0 := by
  induction d with
  | zero => exact fun i => rfl
  | succ d ih => exact fun i => ih _

/-- **A tree is walked** to the pointer of the block. -/
theorem recurseRadixTree_spec (H : Serves io I disk) (hsize : io.sizeInBytes = 2 ^ 32 - 1) (hbs : 4 ≤ bs) :
    ∀ (depth : ℕ) {block start : ℕ} {s : σ}, I s → block < (bs / 4) ^ (depth + 1) →
      (bs / 4) ^ depth < 2 ^ 32 →
      LeafFits disk bs depth start block →
      Ends (fun _ => False) (recurseRadixTree io bs block start depth) s fun r s' =>
        r = leaf disk bs depth start block ∧ I s'
  | 0, block, start, s, hI, hlt, _, hfit => by
    unfold recurseRadixTree
    by_cases h0 : start = 0
    · rw [if_pos h0, h0, leaf_zero]
      exact ends_pure ⟨rfl, hI⟩
    · rw [if_neg h0]
      dsimp only
      rw [treeCounter, Nat.div_one]
      refine ends_bind ((readPointer H hsize hI hfit h0 (by simpa using hlt)).mono fun r s' h => ?_)
      exact ends_pure h
  | d + 1, block, start, s, hI, hlt, hcounter, hfit => by
    have hp : 0 < bs / 4 := by omega
    have hle : (bs / 4) ^ d ≤ (bs / 4) ^ (d + 1) := Nat.pow_le_pow_right hp (Nat.le_succ d)
    unfold recurseRadixTree
    by_cases h0 : start = 0
    · rw [if_pos h0, h0, leaf_zero]
      exact ends_pure ⟨rfl, hI⟩
    · rw [if_neg h0]
      dsimp only
      rw [treeCounter_eq hp _ hcounter]
      have hi : block / (bs / 4) ^ (d + 1) < bs / 4 := Nat.div_lt_of_lt_mul (by rwa [← Nat.pow_succ])
      refine ends_bind ((readPointer H hsize hI hfit.1 h0 hi).mono fun r s' h => ?_)
      obtain ⟨rfl, hI'⟩ := h
      exact recurseRadixTree_spec H hsize hbs d hI' (Nat.mod_lt _ (Nat.pow_pos hp)) (by omega) hfit.2

end Walk

/-! ### Files -/

section Node

variable {io : BlockIO σ} {I : σ → Prop} {disk : ℕ → Byte} {s : σ} {node : Inode} {k : ℕ}

/-- The numbers of a file of less than 2^32 bytes: `p` pointers in a block, and file block `f`. -/
structure Numbers (node : Inode) (p f : ℕ) : Prop where
  four : node.blockSize = 4 * p
  many : 256 ≤ p
  inside : f * p < 2 ^ 30

variable {f : ℕ}

theorem numbers (hbs : node.blockSize = 1024 * 2 ^ k) (hf : f * node.blockSize < node.size) :
    Numbers node (node.blockSize / 4) f := by
  have hk : 0 < 2 ^ k := Nat.two_pow_pos k
  have hfour : node.blockSize = 4 * (node.blockSize / 4) := by omega
  refine ⟨hfour, by omega, ?_⟩
  have hlt := node.size_lt
  have hexp : f * (4 * (node.blockSize / 4)) = 4 * (f * (node.blockSize / 4)) := by ring
  rw [hfour] at hf
  omega

theorem Numbers.square (h : Numbers node p f) (hf : p ≤ f) : p ^ 2 < 2 ^ 30 := by
  rw [Nat.pow_two]
  exact lt_of_le_of_lt (Nat.mul_le_mul_right p hf) h.inside

theorem Numbers.cube (h : Numbers node p f) (hf : p ^ 2 ≤ f) : p ^ 2 * p < 2 ^ 30 :=
  lt_of_le_of_lt (Nat.mul_le_mul_right p hf) h.inside

theorem Numbers.lt_cube (h : Numbers node p f) : f < p ^ 2 * p := by
  by_contra hge
  have h1 : p ^ 2 * p * p ≤ f * p := Nat.mul_le_mul_right p (Nat.le_of_not_lt hge)
  have h2 : 256 ^ 2 * 256 * 256 ≤ p ^ 2 * p * p := by
    have := h.many
    gcongr
  have h3 := h.inside
  omega

/-- **`get_data_block`** finds the block that the format assigns; the products of the loop do not
wrap as long as they are used. -/
theorem getDataBlock_spec (H : Serves io I disk) (hsize : io.sizeInBytes = 2 ^ 32 - 1)
    (hbs : node.blockSize = 1024 * 2 ^ k) (hfits : Fits disk node) (hI : I s)
    (hf : f * node.blockSize < node.size) :
    Ends (fun _ => False) (getDataBlock io node f) s fun r s' =>
      r = Format.block disk node.blockSize node.blockPointers f ∧ I s' := by
  have hn := numbers hbs hf
  have hpath := hfits f hf
  have hbs0 : 4 ≤ node.blockSize := by
    have := hn.four
    have := hn.many
    omega
  unfold getDataBlock Format.block
  unfold Format.path at hpath ⊢
  dsimp only at hpath ⊢
  generalize hp : node.blockSize / 4 = p at *
  by_cases h12 : f < directCutoff
  · rw [if_pos h12, if_pos (show f < 12 from h12)]
    exact ends_pure ⟨rfl, hI⟩
  rw [if_neg (show ¬f < 12 from h12)] at hpath ⊢
  rw [if_neg h12, maxIndirection, getDataBlockLoop]
  by_cases h1 : f - 12 < p
  · rw [if_pos h1] at hpath ⊢
    rw [if_pos (show f - directCutoff < p from h1)]
    refine recurseRadixTree_spec H hsize hbs0 0 hI (by rwa [hp, Nat.pow_one]) (by simp) ?_
    exact hpath _ List.mem_cons_self
  rw [if_neg h1] at hpath ⊢
  have hsq := hn.square (by omega)
  rw [if_neg (show ¬f - directCutoff < p from h1), hp, ← Nat.pow_two, u32_of_lt (by omega),
    getDataBlockLoop]
  by_cases h2 : f - 12 - p < p ^ 2
  · rw [if_pos h2] at hpath ⊢
    rw [if_pos (show f - directCutoff - p < p ^ 2 from h2)]
    refine (recurseRadixTree_spec H hsize hbs0 1 hI (by rwa [hp])
      (by rw [hp, Nat.pow_one]; nlinarith) ?_).mono
      fun r s' h => ⟨h.1.trans ?_, h.2⟩
    · rw [LeafFits, LeafFits, hp, Nat.zero_add, Nat.pow_one]
      exact ⟨hpath _ List.mem_cons_self, hpath _ (by simp [directCutoff])⟩
    · rw [leaf, leaf, hp, Nat.zero_add, Nat.pow_one]
      rfl
  rw [if_neg h2] at hpath ⊢
  have hcb := hn.cube (by omega)
  have hlt : f - directCutoff - p - p ^ 2 < p ^ 2 * p := by
    have := hn.lt_cube
    omega
  rw [if_neg (show ¬f - directCutoff - p < p ^ 2 from h2), hp, u32_of_lt (by omega),
    getDataBlockLoop, if_pos hlt]
  refine (recurseRadixTree_spec H hsize hbs0 2 hI (by rwa [hp, Nat.pow_succ]) (by rw [hp]; omega) ?_).mono
    fun r s' h => ⟨h.1.trans ?_, h.2⟩
  · rw [LeafFits, LeafFits, LeafFits, hp, Nat.zero_add, Nat.pow_one,
      show 1 + 1 = 2 from rfl, Nat.pow_two, Nat.mod_mul_right_div_self, ← Nat.pow_two]
    exact ⟨hpath _ List.mem_cons_self, hpath _ (by simp [directCutoff]), hpath _ (by simp [directCutoff])⟩
  · rw [leaf, leaf, leaf, hp, Nat.zero_add, Nat.pow_one, show 1 + 1 = 2 from rfl, Nat.pow_two,
      Nat.mod_mul_right_div_self, Nat.mod_mul_right_mod, ← Nat.pow_two]
    rfl

theorem Format.block_mem {bs : ℕ} {blockPointers : ℕ → ℕ} (f : ℕ) :
    Format.block disk bs blockPointers f ∈ Format.path disk bs blockPointers f := by
  unfold Format.block Format.path
  dsimp only
  split_ifs <;> simp

/-- **A node serves its file.** -/
theorem serves_node (H : Serves io I disk) (hsize : io.sizeInBytes = 2 ^ 32 - 1)
    (hbs : node.blockSize = 1024 * 2 ^ k) (hfits : Fits disk node) :
    Serves (nodeBlocks io node) I (Format.byte disk node.blockSize node.blockPointers) := by
  intro f s hI hf
  change f * node.blockSize < node.size at hf
  have hpos := node.blockSize_pos
  refine ends_bind ((getDataBlock_spec H hsize hbs hfits hI hf).mono fun b s' h => ?_)
  obtain ⟨rfl, hI'⟩ := h
  set b := Format.block disk node.blockSize node.blockPointers f with hb
  -- the bytes of the block in the words of the format
  have hbyte : ∀ j < node.blockSize,
      Format.byte disk node.blockSize node.blockPointers (f * node.blockSize + j) =
      if b = 0 then 0#8 else disk (b * node.blockSize + j) := fun j hj => by
    unfold Format.byte
    dsimp only
    rw [Nat.mul_comm f, Nat.mul_add_div hpos, Nat.div_eq_of_lt hj, Nat.add_zero, Nat.mul_add_mod,
      Nat.mod_eq_of_lt hj]
  by_cases h0 : b ≠ 0
  · rw [if_pos h0]
    have hfit := hfits f hf b (Format.block_mem f)
    have hexp : (b + 1) * node.blockSize = b * node.blockSize + node.blockSize := by ring
    have hoff : getBlockOffset node.blockSize b = b * node.blockSize := u32_of_lt (by omega)
    rw [hoff]
    refine ends_bind ((H.readAll hI' node.blockSize (by omega)).mono fun r s'' h => ?_)
    obtain ⟨rfl, hI''⟩ := h
    refine ends_pure ⟨?_, hI''⟩
    rw [show min node.blockSize (io.sizeInBytes - b * node.blockSize) = node.blockSize by omega]
    exact window_congr fun j hj => ((hbyte j hj).trans (if_neg h0)).symm
  · rw [if_neg h0]
    refine ends_pure ⟨?_, hI'⟩
    refine Eq.symm (List.eq_replicate_iff.mpr ⟨length_window _ _ _, fun x hx => ?_⟩)
    obtain ⟨j, hj, rfl⟩ := mem_window.mp hx
    exact (hbyte j hj).trans (if_pos (not_not.mp h0))

end Node

/-- **Files follow the block tree.**  For every disk, every inode whose block numbers fit and every
cache whose entries are right, `read_all` of the node through the cache returns the number of bytes
up to the end of the file, or as many as were asked for, and every byte is the one that the format
assigns; the cache stays right. -/
theorem file_contents (disk : ℕ → Byte) (node : Inode) (k : ℕ) (hbs : node.blockSize = 1024 * 2 ^ k)
    (hfits : Fits disk node) (cache : Cache) (hcache : cache.Right disk 512) (o n : ℕ)
    (ho : o ≤ node.size) :
    ∃ bytes cache', (nodeBlocks (cached (ide disk)) node).readAll o n (cache, ()) =
        .ok (((min n (node.size - o) : ℕ), bytes), (cache', ())) ∧ cache'.Right disk 512 ∧
      bytes.length = min n (node.size - o) ∧
      ∀ j < min n (node.size - o),
        bytes[j]? = some (Format.byte disk node.blockSize node.blockPointers (o + j)) := by
  have H := serves_node (serves_ide disk).cached rfl hbs hfits
  obtain ⟨⟨r, bytes⟩, ⟨cache', _⟩, hrun, heq, hI⟩ :=
    (H.readAll (s := (cache, ())) ⟨hcache, trivial⟩ n ho).returns (fun _ h => h.elim)
  obtain ⟨rfl, rfl⟩ := Prod.mk.inj heq
  exact ⟨_, cache', hrun, hI.1, length_window _ _ _, fun j hj => getElem_window _ _ _ hj⟩

/-- A disk with a block of ones, an indirect block whose first pointer is 3, and a block of
sevens. -/
def treeDisk (a : ℕ) : Byte :=
  if a < 1024 then 0#8 else if a < 2048 then 1#8 else if a = 2048 then 3#8 else if a < 3072
    then 0#8 else 7#8

/-- A file with its first block and its thirteenth, the first one that is reached through the
indirect block. -/
def treeInode : Inode :=
  ⟨1024, 12298, fun i => if i = 0 then 1 else if i = 12 then 2 else 0, Nat.succ_pos _, by decide⟩

theorem fits_treeInode : Fits treeDisk treeInode := by
  intro f hf
  have hlt : f < 13 := by
    change f * 1024 < 12298 at hf
    omega
  have hall : ∀ f < 13, ∀ b ∈ Format.path treeDisk 1024 treeInode.blockPointers f,
      (b + 1) * 1024 < 2 ^ 32 := by decide
  exact hall f hlt

/-- The whole file is read: its first block, the eleven that are missing, and what there is of its
last block. -/
theorem file_contents_tree : ∃ bytes cache',
    (nodeBlocks (cached (ide treeDisk)) treeInode).readAll 0 20000 (.init, ()) =
      .ok ((12298, bytes), (cache', ())) ∧ bytes.length = 12298 ∧
      bytes[1023]? = some 1#8 ∧ bytes[1024]? = some 0#8 ∧ bytes[12288]? = some 7#8 := by
  obtain ⟨bytes, cache', hrun, -, hlen, hbytes⟩ :=
    file_contents treeDisk treeInode 0 rfl fits_treeInode .init
    (cache_right_init _ _) 0 20000 (by decide)
  exact ⟨bytes, cache', hrun, hlen, hbytes 1023 (by decide), hbytes 1024 (by decide),
    hbytes 12288 (by decide)⟩

end GheithOS.Files
