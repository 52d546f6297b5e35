import GheithOS.Exec.Elf

/-!
# GheithOS.Files.Mount — the constructor of `Ext2`

`Ext2::Ext2` reads the superblock and then, sector by sector, the table of the group descriptors; of
each descriptor it keeps the first block of the group's inodes.  `get_inode_offset` finds an inode
from these.

The loop takes the inode block of every group at byte 8 of the sector in its buffer, which is the
descriptor of the first group of the sector (`mount_ends`).  `getInodeOffset_eq_iff` says which
inodes are found where the format has them.
-/

namespace GheithOS.Files

open Lib Exec Syscall

variable {σ : Type}

def rootInode : ℕ := 2
def superblockOffset : ℕ := 1024
def sbInodeCountOffset : ℕ := 0
def sbBlockSizeOffset : ℕ := 24
def sbInodesPerGroupOffset : ℕ := 40
def sbInodeSizeOffset : ℕ := 88
def blockGroupDescriptorSize : ℕ := 32
def bgInodeBlockOffset : ℕ := 8

/-- What `Ext2` keeps of the superblock and the descriptors. -/
structure Ext2 where
  nBlockGroups : ℕ
  nInodesPerBlockGroup : ℕ
  blockSize : ℕ
  inodeSize : ℕ
  groupInodeStartBlocks : List ℕ
  blockSize_pos : 0 < blockSize

/-- The sector at `offset`, read into the buffer. -/
def refill (io : BlockIO σ) (offset : ℕ) (buffer : List Byte) : Prog Halt σ (List Byte) := do
  let (_, bytes) ← io.read offset io.blockSize
  return bytes ++ buffer.drop bytes.length

/-- The loop over the groups, with the position in the table, the buffer, and the blocks found so
far. -/
def descriptorLoop (io : BlockIO σ) (bgdtStart : ℕ) : List ℕ → ℕ → List Byte → List ℕ → Prog Halt σ (List ℕ)
  | [], _, _, blocks => return blocks
  | i :: is, processed, buffer, blocks => do
    let bgdOffset := u32 (i * blockGroupDescriptorSize)
    let buffer ← if processed % io.blockSize = 0 then refill io (u32 (bgdtStart + bgdOffset)) buffer
        else pure buffer
    let position := u32 (u32 (bgdOffset + 2 ^ 32 - processed) + bgInodeBlockOffset)
    descriptorLoop io bgdtStart is (u32 (processed + blockGroupDescriptorSize)) buffer
      (blocks ++ [field buffer position 4])

/-- The constructor after the superblock.  A division by zero stops the kernel. -/
def readDescriptors (io : BlockIO σ) (nInodes nInodesPerBlockGroup blockSize inodeSize : ℕ) :
    Prog Halt σ Ext2 :=
  if h : 0 < nInodesPerBlockGroup ∧ 0 < blockSize then do
    let nBlockGroups := u32 (nInodes + nInodesPerBlockGroup + (2 ^ 32 - 1)) / nInodesPerBlockGroup
    let bgdtStart := getBlockOffset blockSize (1024 / blockSize + 1)
    let blocks ← descriptorLoop io bgdtStart (List.range nBlockGroups) 0
        (List.replicate io.blockSize 0#8) []
    return ⟨nBlockGroups, nInodesPerBlockGroup, blockSize, inodeSize, blocks, h.2⟩
  else throw .assertion

/-- `Ext2::Ext2`, up to the root. -/
def mount (io : BlockIO σ) : Prog Halt σ Ext2 := do
  let buffer ← readThing io superblockOffset (sbInodeSizeOffset + 2)
  readDescriptors io (field buffer sbInodeCountOffset 4) (field buffer sbInodesPerGroupOffset 4)
    (u32 (1024 <<< field buffer sbBlockSizeOffset 4)) (field buffer sbInodeSizeOffset 2)

/-- `get_inode_offset`; `none` if the group is outside of the array. -/
def Ext2.getInodeOffset (fs : Ext2) (inodeNumber : ℕ) : Option ℕ :=
  let index := u32 (inodeNumber + (2 ^ 32 - 1))
  let blockGroup := index / fs.nInodesPerBlockGroup
  fs.groupInodeStartBlocks[blockGroup]?.map fun blockGroupOffset =>
    let localIndex := index - blockGroup * fs.nInodesPerBlockGroup
    u32 (u32 (blockGroupOffset * fs.blockSize) + u32 (localIndex * fs.inodeSize))

def nodeTypeOffset : ℕ := 0
def nodeSizeOffset : ℕ := 4
def nodeLinkCountOffset : ℕ := 26
def nodeBlockArrOffset : ℕ := 40

/-- What `Node` keeps of an inode. -/
structure Node where
  number : ℕ
  type : ℕ
  linkCount : ℕ
  inode : Inode

/-- The node in the bytes of an inode. -/
def Node.ofBytes (fs : Ext2) (number : ℕ) (data : List Byte) : Node where
  number := number
  type := field data nodeTypeOffset 2 >>> 12
  linkCount := field data nodeLinkCountOffset 2
  inode := ⟨fs.blockSize, field data nodeSizeOffset 4, fun i => field data (nodeBlockArrOffset + 4 * i) 4,
    fs.blockSize_pos, field_lt data nodeSizeOffset⟩

/-- `get_node`; the model stops at a group outside of the array. -/
def getNode (io : BlockIO σ) (fs : Ext2) (number : ℕ) : Prog Halt σ (Option Node) :=
  if number = 0 then return none
  else match fs.getInodeOffset number with
    | none => throw .assertion
    | some offset => do
      let data ← readThing io offset (nodeBlockArrOffset + 60)
      return some (Node.ofBytes fs number data)

/-- `Ext2::Ext2`: the file system and its root. -/
def construct (io : BlockIO σ) : Prog Halt σ (Ext2 × Option Node) := do
  let fs ← mount io
  let root ← getNode io fs rootInode
  return (fs, root)

/-! ### The format -/

namespace Format

variable (disk : ℕ → Byte)

/-- The number in `n` bytes of the superblock. -/
def superblock (position n : ℕ) : ℕ := littleEndian (window disk (superblockOffset + position) n)

def inodeCount : ℕ := superblock disk sbInodeCountOffset 4
def inodesPerGroup : ℕ := superblock disk sbInodesPerGroupOffset 4
def inodeSize : ℕ := superblock disk sbInodeSizeOffset 2
def fsBlockSize : ℕ := 1024 * 2 ^ superblock disk sbBlockSizeOffset 4

/-- The table of the descriptors starts in the block after the superblock. -/
def descriptorTable : ℕ := (superblockOffset / fsBlockSize disk + 1) * fsBlockSize disk

/-- The number of groups. -/
def groupCount : ℕ := (inodeCount disk + inodesPerGroup disk - 1) / inodesPerGroup disk

/-- The first block of the inodes of a group. -/
def inodeTable (g : ℕ) : ℕ :=
  littleEndian (window disk (descriptorTable disk + blockGroupDescriptorSize * g + bgInodeBlockOffset) 4)

/-- The group of an inode, and where the inode is. -/
def groupOf (i : ℕ) : ℕ := (i - 1) / inodesPerGroup disk

def inodeOffset (i : ℕ) : ℕ :=
  inodeTable disk (groupOf disk i) * fsBlockSize disk + (i - 1) % inodesPerGroup disk * inodeSize disk

end Format

/-- All byte offsets of the file system are below 2^32. -/
structure Format.InRange (disk : ℕ → Byte) : Prop where
  group_pos : 1 ≤ inodesPerGroup disk
  block_lt : fsBlockSize disk < 2 ^ 32
  table_le : descriptorTable disk + blockGroupDescriptorSize * groupCount disk ≤ 2 ^ 32
  inode_lt : ∀ i, 1 ≤ i → i ≤ inodeCount disk → inodeOffset disk i < 2 ^ 32

/-! ### Reading the descriptors -/

theorem field_window (disk : ℕ → Byte) (offset : ℕ) {size position n : ℕ} (h : position + n ≤ size) :
    field (window disk offset size) position n = littleEndian (window disk (offset + position) n) := by
  unfold field
  rw [drop_window, take_window _ _ (by omega)]

section Mount

open Format

variable {io : BlockIO σ} {I : σ → Prop} {disk : ℕ → Byte} {s : σ}

theorem refill_ends (H : Serves io I disk) (hbs : io.blockSize = 512)
    (hsize : io.sizeInBytes = 2 ^ 32 - 1) (hI : I s) {offset : ℕ} (halign : offset % 512 = 0)
    (ho : offset < 2 ^ 32) (buffer : List Byte) :
    Ends (fun _ => False) (refill io offset buffer) s fun buffer' s' =>
      (∀ position n, position + n ≤ 500 →
        field buffer' position n = littleEndian (window disk (offset + position) n)) ∧
        I s' := by
  refine ends_bind ((H.read hI (by omega)).mono ?_)
  rintro _ s' ⟨rfl, hI'⟩
  refine ends_pure ⟨fun position n h => ?_, hI'⟩
  have hk : 500 ≤ min (io.blockSize - offset % io.blockSize)
      (min io.blockSize (io.sizeInBytes - offset)) := by
    rw [hbs, hsize, halign]
    omega
  rw [← field_window disk offset (Nat.le_trans h hk)]
  unfold field
  rw [List.drop_append_of_le_length (by rw [length_window]; omega),
    List.take_append_of_le_length (by rw [List.length_drop, length_window]; omega)]

/-- **The loop** gives every group the inode block of the first group of its sector. -/
theorem descriptorLoop_ends (H : Serves io I disk) (hbs : io.blockSize = 512)
    (hsize : io.sizeInBytes = 2 ^ 32 - 1) (halign : descriptorTable disk % 512 = 0) {m a : ℕ}
    (hrange : descriptorTable disk + blockGroupDescriptorSize * (a + m) ≤ 2 ^ 32) (hI : I s)
    (buffer : List Byte)
    (hbuffer : a % 16 ≠ 0 → field buffer bgInodeBlockOffset 4 = inodeTable disk (16 * (a / 16)))
    (blocks : List ℕ) :
    Ends (fun _ => False)
      (descriptorLoop io (descriptorTable disk) (List.range' a m)
        (u32 (blockGroupDescriptorSize * a)) buffer blocks) s
      fun r s' => r = blocks ++ (List.range' a m).map
        (fun g => inodeTable disk (16 * (g / 16))) ∧ I s' := by
  induction m generalizing a s buffer blocks with
  | zero => exact ends_pure ⟨by simp, hI⟩
  | succ m ih =>
    have hd : blockGroupDescriptorSize = 32 := rfl
    rw [hd] at hrange
    have hoffset : u32 (a * blockGroupDescriptorSize) = 32 * a := by
      rw [hd, u32_of_lt (by omega), Nat.mul_comm]
    have hprocessed : u32 (blockGroupDescriptorSize * a) = 32 * a := u32_of_lt (by rw [hd]; omega)
    have hposition : u32 (u32 (32 * a + 2 ^ 32 - 32 * a) + bgInodeBlockOffset) = bgInodeBlockOffset := by
      rw [Nat.add_sub_cancel_left]
      rfl
    have hnext : u32 (32 * a + blockGroupDescriptorSize) = u32 (blockGroupDescriptorSize * (a + 1)) := by
      rw [hd, Nat.mul_add, Nat.mul_one]
    rw [List.range'_succ, List.map_cons]
    unfold descriptorLoop
    dsimp only
    rw [hoffset, hprocessed, hposition, hnext, hbs]
    -- with the right sector in the buffer the rest of the loop goes on
    have htail : ∀ buffer' s', field buffer' bgInodeBlockOffset 4 = inodeTable disk (16 * (a / 16)) ∧ I s' →
        Ends (fun _ => False) (descriptorLoop io (descriptorTable disk) (List.range' (a + 1) m)
          (u32 (blockGroupDescriptorSize * (a + 1))) buffer'
            (blocks ++ [field buffer' bgInodeBlockOffset 4])) s'
          fun r s' => r = blocks ++ inodeTable disk (16 * (a / 16)) ::
            (List.range' (a + 1) m).map (fun g => inodeTable disk (16 * (g / 16))) ∧ I s' := by
      rintro buffer' s' ⟨hfield, hI'⟩
      refine (ih (by rw [hd]; omega) hI' buffer' ?_ _).mono fun r s'' h => ⟨?_, h.2⟩
      · intro hmod
        rw [hfield, show a / 16 = (a + 1) / 16 by omega]
      · rw [h.1, hfield, List.append_assoc, List.singleton_append]
    split_ifs with hsector
    · refine ends_bind ((refill_ends H hbs hsize hI ?_ ?_ buffer).mono fun buffer' s' h =>
        htail buffer' s' ⟨?_, h.2⟩)
      · rw [u32_of_lt (by omega)]
        omega
      · exact Nat.mod_lt _ (by decide)
      · rw [h.1 _ _ (by decide), u32_of_lt (by omega), show 16 * (a / 16) = a by omega]
        rfl
    · exact htail buffer s ⟨hbuffer (by omega), hI⟩

variable (disk) in
/-- The number of groups that the constructor computes: the sum may wrap. -/
def countedGroups : ℕ := u32 (inodeCount disk + inodesPerGroup disk + (2 ^ 32 - 1)) / inodesPerGroup disk

variable (disk) in
/-- What the constructor makes of a disk. -/
def mounted : Ext2 where
  nBlockGroups := countedGroups disk
  nInodesPerBlockGroup := inodesPerGroup disk
  blockSize := fsBlockSize disk
  inodeSize := inodeSize disk
  groupInodeStartBlocks := (List.range (countedGroups disk)).map fun g => inodeTable disk (16 * (g / 16))
  blockSize_pos := Nat.mul_pos (by decide) (Nat.two_pow_pos _)

theorem countedGroups_le (h : 1 ≤ inodesPerGroup disk) : countedGroups disk ≤ groupCount disk := by
  unfold countedGroups groupCount u32
  exact Nat.div_le_div_right (by omega)

theorem superblock_lt (disk : ℕ → Byte) (position : ℕ) : superblock disk position 4 < 2 ^ 32 := by
  have h := littleEndian_lt (window disk (superblockOffset + position) 4)
  rwa [length_window] at h

theorem descriptorTable_align (disk : ℕ → Byte) : descriptorTable disk % 512 = 0 := by
  unfold descriptorTable fsBlockSize
  generalize superblockOffset / _ = q
  rw [show (q + 1) * (1024 * 2 ^ superblock disk sbBlockSizeOffset 4) =
    512 * ((q + 1) * (2 * 2 ^ superblock disk sbBlockSizeOffset 4)) by ring]
  exact Nat.mul_mod_right _ _

theorem descriptorTable_lt (h : fsBlockSize disk < 2 ^ 32) : descriptorTable disk < 2 ^ 32 := by
  have hpos := Nat.two_pow_pos (superblock disk sbBlockSizeOffset 4)
  have hbs : fsBlockSize disk = 1024 * 2 ^ superblock disk sbBlockSizeOffset 4 := rfl
  unfold descriptorTable superblockOffset
  rcases Nat.lt_or_ge 1024 (fsBlockSize disk) with hlt | hle
  · rw [Nat.div_eq_of_lt hlt, Nat.zero_add, Nat.one_mul]
    exact h
  · rw [show fsBlockSize disk = 1024 by omega]
    decide

/-- **The constructor**, up to the root. -/
theorem mount_ends (H : Serves io I disk) (hbs : io.blockSize = 512)
    (hsize : io.sizeInBytes = 2 ^ 32 - 1) (hI : I s) (hrange : InRange disk) :
    Ends (fun _ => False) (mount io) s fun fs s' => fs = mounted disk ∧ I s' := by
  obtain ⟨s₁, hread, hI₁⟩ :=
    readThing_of_le H hI (show superblockOffset + (sbInodeSizeOffset + 2) ≤ io.sizeInBytes by
    rw [hsize]
    decide)
  have hcount : field (window disk superblockOffset (sbInodeSizeOffset + 2)) sbInodeCountOffset 4 =
      inodeCount disk :=
    field_window _ _ (by decide)
  have hgroup : field (window disk superblockOffset (sbInodeSizeOffset + 2)) sbInodesPerGroupOffset 4 =
      inodesPerGroup disk := field_window _ _ (by decide)
  have hinode : field (window disk superblockOffset (sbInodeSizeOffset + 2)) sbInodeSizeOffset 2 =
      inodeSize disk :=
    field_window _ _ (by decide)
  have hblock : u32 (1024 <<< field (window disk superblockOffset (sbInodeSizeOffset + 2))
      sbBlockSizeOffset 4) =
      fsBlockSize disk := by
    rw [field_window _ _ (by decide), Nat.shiftLeft_eq]
    exact u32_of_lt hrange.block_lt
  have hle := countedGroups_le hrange.group_pos
  have hstart : getBlockOffset (fsBlockSize disk) (1024 / fsBlockSize disk + 1) = descriptorTable disk :=
    u32_of_lt (descriptorTable_lt hrange.block_lt)
  have hgroups : u32 (inodeCount disk + inodesPerGroup disk + (2 ^ 32 - 1)) / inodesPerGroup disk =
      countedGroups disk := rfl
  unfold mount
  refine ends_bind (ends_of_eq hread ?_)
  rw [hcount, hgroup, hinode, hblock, readDescriptors,
    dif_pos ⟨hrange.group_pos, (mounted disk).blockSize_pos⟩]
  dsimp only
  rw [hstart, hgroups]
  have hend : descriptorTable disk + blockGroupDescriptorSize * (0 + countedGroups disk) ≤ 2 ^ 32 := by
    rw [Nat.zero_add]
    exact (Nat.add_le_add_left (Nat.mul_le_mul_left _ hle) _).trans hrange.table_le
  have hloop := descriptorLoop_ends H hbs hsize (descriptorTable_align disk) hend hI₁
    (List.replicate io.blockSize 0#8) (fun h => absurd rfl h) []
  rw [← List.range_eq_range', Nat.mul_zero, show u32 0 = 0 from rfl] at hloop
  refine ends_bind (hloop.mono ?_)
  rintro _ s₂ ⟨rfl, hI₂⟩
  refine ends_pure ⟨?_, hI₂⟩
  unfold mounted
  rw [List.nil_append]

theorem construct_fs (H : Serves io I disk) (hbs : io.blockSize = 512)
    (hsize : io.sizeInBytes = 2 ^ 32 - 1) (hI : I s) (hrange : InRange disk) {fs : Ext2}
    {root : Option Node} {s' : σ} (h : construct io s = .ok ((fs, root), s')) :
    fs = mounted disk := by
  have hends : Ends (fun _ => True) (construct io) s fun r _ => r.1 = mounted disk := by
    refine ends_bind (((mount_ends H hbs hsize hI hrange).weaken fun _ h => h.elim).mono ?_)
    rintro _ s₁ ⟨rfl, -⟩
    exact ends_bind ((ends_any _ s₁).mono fun root s₂ _ => ends_pure rfl)
  exact hends.ok h

theorem construct_returns (H : Serves io I disk) (hbs : io.blockSize = 512)
    (hsize : io.sizeInBytes = 2 ^ 32 - 1) (hI : I s) (hrange : InRange disk) {offset : ℕ}
    (hroot : (mounted disk).getInodeOffset rootInode = some offset)
    (ho : offset + (nodeBlockArrOffset + 60) ≤ io.sizeInBytes) :
    ∃ root s', construct io s = .ok ((mounted disk, root), s') := by
  obtain ⟨_, s₁, hmount, rfl, hI₁⟩ := (mount_ends H hbs hsize hI hrange).returns fun _ h => h.elim
  obtain ⟨s₂, hread, -⟩ := readThing_of_le H hI₁ ho
  refine ⟨some (Node.ofBytes (mounted disk) rootInode
    (window disk offset (nodeBlockArrOffset + 60))), s₂, ?_⟩
  have hnode : getNode io (mounted disk) rootInode s₁ =
      .ok (some (Node.ofBytes (mounted disk) rootInode
        (window disk offset (nodeBlockArrOffset + 60))), s₂) := by
    unfold getNode
    rw [if_neg (by decide), hroot]
    dsimp only
    rw [bind_of_eq hread]
    rfl
  unfold construct
  rw [bind_of_eq hmount, bind_of_eq hnode]
  rfl

theorem Format.InRange.first_lt (hrange : InRange disk) {i : ℕ} (h1 : 1 ≤ i) (hi : i ≤ inodeCount disk) :
    inodeTable disk (16 * (groupOf disk i / 16)) * fsBlockSize disk < 2 ^ 32 := by
  have hpos := hrange.group_pos
  have hle : 16 * (groupOf disk i / 16) * inodesPerGroup disk ≤ i - 1 :=
    (Nat.mul_le_mul_right _ (Nat.mul_div_le _ _)).trans (Nat.div_mul_le_self _ _)
  have hlt := hrange.inode_lt (16 * (groupOf disk i / 16) * inodesPerGroup disk + 1) (by omega) (by omega)
  have hgroup : groupOf disk (16 * (groupOf disk i / 16) * inodesPerGroup disk + 1) =
      16 * (groupOf disk i / 16) := by
    unfold groupOf
    rw [Nat.add_sub_cancel, Nat.mul_div_cancel _ hpos]
  unfold inodeOffset at hlt
  rw [hgroup] at hlt
  omega

theorem mounted_getInodeOffset {i : ℕ} (h1 : 1 ≤ i) (hi : i ≤ inodeCount disk) :
    (mounted disk).getInodeOffset i =
      if groupOf disk i < countedGroups disk then
        some (u32 (u32 (inodeTable disk (16 * (groupOf disk i / 16)) * fsBlockSize disk) +
          u32 ((i - 1) % inodesPerGroup disk * inodeSize disk)))
      else none := by
  have hcount : inodeCount disk < 2 ^ 32 := superblock_lt disk _
  have hindex : u32 (i + (2 ^ 32 - 1)) = i - 1 := by
    unfold u32
    omega
  have hlocal : i - 1 - groupOf disk i * inodesPerGroup disk = (i - 1) % inodesPerGroup disk := by
    have := Nat.div_add_mod' (i - 1) (inodesPerGroup disk)
    unfold groupOf
    omega
  unfold Ext2.getInodeOffset
  dsimp only
  rw [hindex]
  change ((List.range (countedGroups disk)).map fun g =>
      inodeTable disk (16 * (g / 16)))[groupOf disk i]?.map
    (fun b => u32 (u32 (b * fsBlockSize disk) + u32
      ((i - 1 - groupOf disk i * inodesPerGroup disk) * inodeSize disk))) = _
  rw [hlocal, List.getElem?_map]
  split_ifs with hg
  · rw [List.getElem?_range hg]
    rfl
  · rw [List.getElem?_eq_none (by simpa using hg)]
    rfl

end Mount

open Format in
/-- **Where inodes are found.**  After the constructor has run, `get_inode_offset` finds an inode
where the format has it if and only if its group is one of those counted and the descriptor of the
first group of the sector names the same block. -/
theorem getInodeOffset_eq_iff (disk : ℕ → Byte) (hrange : InRange disk) {fs : Ext2}
    {root : Option Node} {s' : Cache × Unit}
    (h : construct (cached (ide disk)) (.init, ()) = .ok ((fs, root), s')) {i : ℕ} (h1 : 1 ≤ i)
    (hi : i ≤ inodeCount disk) :
    fs.getInodeOffset i = some (inodeOffset disk i) ↔
      groupOf disk i < u32 (inodeCount disk + inodesPerGroup disk + (2 ^ 32 - 1)) / inodesPerGroup disk ∧
        inodeTable disk (16 * (groupOf disk i / 16)) = inodeTable disk (groupOf disk i) := by
  obtain rfl := construct_fs (serves_ide disk).cached rfl rfl ⟨cache_right_init _ _, trivial⟩ hrange h
  have hfirst := hrange.first_lt h1 hi
  have hoffset := hrange.inode_lt i h1 hi
  have hpos := (mounted disk).blockSize_pos
  change _ ↔ groupOf disk i < countedGroups disk ∧ _
  rw [mounted_getInodeOffset h1 hi]
  unfold inodeOffset at hoffset ⊢
  split_ifs with hg
  · rw [and_iff_right hg, u32_of_lt hfirst, Option.some.injEq]
    generalize (i - 1) % inodesPerGroup disk * inodeSize disk = x at hoffset ⊢
    rw [u32_of_lt (n := x) (by omega)]
    constructor
    · intro heq
      unfold u32 at heq
      exact Nat.eq_of_mul_eq_mul_right hpos (show _ * fsBlockSize disk = _ * fsBlockSize disk by omega)
    · intro heq
      rw [heq, u32_of_lt hoffset]
  · simp [hg]

/-! ### A file system of two groups -/

section TwoGroups

open Format

/-- Sixteen inodes of 128 bytes in two groups, whose inodes begin in block 5 and in block 50. -/
def twoGroups (a : ℕ) : Byte :=
  if a = 1024 then 16#8 else if a = 1064 then 8#8 else if a = 1112 then 128#8
  else if a = 2056 then 5#8 else if a = 2088 then 50#8 else 0#8

theorem inRange_twoGroups : InRange twoGroups := by
  have hinodes : ∀ i < 17, 1 ≤ i → inodeOffset twoGroups i < 2 ^ 32 := by decide
  refine ⟨by decide, by decide, by decide, fun i h1 hi => hinodes i ?_ h1⟩
  have hcount : inodeCount twoGroups = 16 := by decide
  omega

theorem construct_twoGroups :
    ∃ fs root s', construct (cached (ide twoGroups)) (.init, ()) = .ok ((fs, root), s') := by
  have hoffset : (mounted twoGroups).getInodeOffset rootInode = some 5248 := by decide
  obtain ⟨root, s', h⟩ := construct_returns (s := (Cache.init, ())) (serves_ide twoGroups).cached rfl rfl
    ⟨cache_right_init _ _, trivial⟩ inRange_twoGroups hoffset (by decide)
  exact ⟨_, root, s', h⟩

/-- The inodes of the first group are found. -/
theorem getInodeOffset_twoGroups : ∃ fs root s',
    construct (cached (ide twoGroups)) (.init, ()) = .ok ((fs, root), s') ∧
      fs.getInodeOffset 3 = some (inodeOffset twoGroups 3) := by
  obtain ⟨fs, root, s', h⟩ := construct_twoGroups
  exact ⟨fs, root, s', h, (getInodeOffset_eq_iff twoGroups inRange_twoGroups h (by decide) (by decide)).mpr
    ⟨by decide, by decide⟩⟩

/-- The first inode of the second group is looked for in block 5 and not in block 50. -/
theorem second_group_not_found : ∃ fs root s',
    construct (cached (ide twoGroups)) (.init, ()) = .ok ((fs, root), s') ∧
      fs.getInodeOffset 9 = some (5 * 1024) ∧ inodeOffset twoGroups 9 = 50 * 1024 := by
  obtain ⟨fs, root, s', h⟩ := construct_twoGroups
  obtain rfl := construct_fs (serves_ide twoGroups).cached rfl rfl
    ⟨cache_right_init _ _, trivial⟩ inRange_twoGroups h
  exact ⟨_, root, s', h, by decide, by decide⟩

end TwoGroups

end GheithOS.Files
