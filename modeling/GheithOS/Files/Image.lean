import GheithOS.Files.Mount
import GheithOS.Files.Path

/-!
# GheithOS.Files.Image — the file system of a disk

`imageFs` is the file system that `find_fs_node` sees when the disk is an ext2 image and `Ext2` has
been constructed: its nodes are read from the disk by `get_node`.  If the inodes that the
directories name lie on the disk, the block trees of directories and links fit, and the directories
are well-formed, it is `Mounted` (`mounted_image`), so that the results on paths hold for it.
-/

namespace GheithOS.Files

open Lib Exec

variable {σ : Type}

/-- A node with its functions. -/
def Node.toFs (io : BlockIO σ) (node : Node) : FsNode σ where
  number := node.number
  type := node.type
  blockPointers := (List.range 15).flatMap fun i => bytesOf 4 (node.inode.blockPointers i)
  io := nodeBlocks io node.inode

def imageFs (io : BlockIO σ) (fs : Ext2) (root : Node) : Fs σ where
  root := root.toFs io
  getNode x := do
    let node ← lift (getNode io fs x)
    return node.map (Node.toFs io)

section Image

variable {io : BlockIO σ} {I : σ → Prop} {disk : ℕ → Byte} {fs : Ext2} {s : σ}

variable (disk fs) in
/-- The node with a number, as its bytes on the disk have it; a number without an inode is a node of
no type. -/
def imageNode (io : BlockIO σ) (x : ℕ) : FsNode σ :=
  match fs.getInodeOffset x with
  | some offset => (Node.ofBytes fs x (window disk offset (nodeBlockArrOffset + 60))).toFs io
  | none => ⟨x, 0, [], io⟩

theorem imageNode_number (x : ℕ) : (imageNode disk fs io x).number = x := by
  unfold imageNode
  cases fs.getInodeOffset x with
  | none => rfl
  | some offset => rfl

theorem imageNode_of_some {x offset : ℕ} (h : fs.getInodeOffset x = some offset) :
    imageNode disk fs io x =
      (Node.ofBytes fs x (window disk offset (nodeBlockArrOffset + 60))).toFs io := by
  unfold imageNode
  rw [h]

theorem getNode_image (H : Serves io I disk) (hI : I s) {x offset : ℕ} (hx : x ≠ 0)
    (hoffset : fs.getInodeOffset x = some offset)
    (ho : offset + (nodeBlockArrOffset + 60) ≤ io.sizeInBytes) (root : Node) :
    Ends (fun _ => False) ((imageFs io fs root).getNode x) s fun r s' => r =
      some (imageNode disk fs io x) ∧ I s' := by
  obtain ⟨s₁, hread, hI₁⟩ := readThing_of_le H hI ho
  have hnode : lift (getNode io fs x) s =
      .ok (some (Node.ofBytes fs x (window disk offset (nodeBlockArrOffset + 60))), s₁) := by
    unfold lift getNode
    rw [if_neg hx, hoffset]
    dsimp only
    rw [bind_of_eq hread]
    rfl
  refine ends_bind (ends_of_eq hnode (ends_pure ⟨?_, hI₁⟩))
  rw [imageNode_of_some hoffset]
  rfl

variable (disk fs) in
/-- The bytes of the file with a number. -/
def imageContent (x : ℕ) : ℕ → Byte :=
  match fs.getInodeOffset x with
  | some offset => Format.byte disk fs.blockSize
      (Node.ofBytes fs x (window disk offset (nodeBlockArrOffset + 60))).inode.blockPointers
  | none => fun _ => 0#8

theorem serves_image (H : Serves io I disk) (hsize : io.sizeInBytes = 2 ^ 32 - 1) {k x offset : ℕ}
    (hbs : fs.blockSize = 1024 * 2 ^ k) (hoffset : fs.getInodeOffset x = some offset)
    (hfits : Fits disk (Node.ofBytes fs x (window disk offset (nodeBlockArrOffset + 60))).inode) :
    Serves (imageNode disk fs io x).io I (imageContent disk fs x) := by
  unfold imageContent
  rw [imageNode_of_some hoffset, hoffset]
  exact serves_node H hsize hbs hfits

theorem exists_offset {x : ℕ}
    (h : (imageNode disk fs io x).isDir = true ∨ (imageNode disk fs io x).isSymlink = true) :
    ∃ offset, fs.getInodeOffset x = some offset := by
  unfold imageNode at h
  cases hoffset : fs.getInodeOffset x with
  | some offset => exact ⟨offset, rfl⟩
  | none =>
    rw [hoffset] at h
    rcases h with h | h
    · cases h
    · cases h

theorem getNode_ends (H : Serves io I disk) (hI : I s) {x : ℕ} (hx : x ≠ 0) :
    Ends (fun _ => True) (getNode io fs x) s fun r _ => r.map (Node.toFs io) =
      some (imageNode disk fs io x) := by
  unfold getNode
  rw [if_neg hx]
  cases hoffset : fs.getInodeOffset x with
  | none => exact ends_throw trivial
  | some offset =>
    refine ends_bind ((readThing_ends H hI (by decide)).mono ?_)
    rintro _ s' ⟨rfl, -⟩
    refine ends_pure ?_
    rw [imageNode_of_some hoffset]
    rfl

/-- The root that the constructor has read. -/
theorem construct_root (H : Serves io I disk) (hbs : io.blockSize = 512)
    (hsize : io.sizeInBytes = 2 ^ 32 - 1) (hI : I s) (hrange : Format.InRange disk)
    {root : Option Node} {s' : σ} (h : construct io s = .ok ((fs, root), s')) :
    root.map (Node.toFs io) = some (imageNode disk fs io rootInode) := by
  have hends : Ends (fun _ => True) (construct io) s fun r _ =>
      r.2.map (Node.toFs io) = some (imageNode disk r.1 io rootInode) := by
    refine ends_bind (((mount_ends H hbs hsize hI hrange).weaken fun _ h => h.elim).mono ?_)
    rintro _ s₁ ⟨rfl, hI₁⟩
    exact ends_bind ((getNode_ends H hI₁ (by decide)).mono fun root s₂ h => ends_pure h)
  exact hends.ok h

end Image

/-- The inodes that directories name lie on the disk, block trees fit, and the directories are tiled
by records. -/
structure ImageWellFormed (io : BlockIO σ) (disk : ℕ → Byte) (fs : Ext2)
    (records : ℕ → ℕ → List Entry) : Prop where
  named : ∀ d name x, (imageNode disk fs io d).isDir = true →
    childOf (imageNode disk fs io) records d name = some x →
      ∃ offset, fs.getInodeOffset x = some offset ∧ offset + (nodeBlockArrOffset + 60) ≤ io.sizeInBytes
  fits : ∀ x offset, fs.getInodeOffset x = some offset →
    (imageNode disk fs io x).isDir = true ∨ (imageNode disk fs io x).isSymlink = true →
      Fits disk (Node.ofBytes fs x (window disk offset (nodeBlockArrOffset + 60))).inode
  wellFormed : ∀ x, (imageNode disk fs io x).isDir = true →
    WellFormed (imageNode disk fs io x).io (imageContent disk fs x) (records x)
  link_lt : ∀ x, (imageNode disk fs io x).isSymlink = true →
    (imageNode disk fs io x).io.sizeInBytes + 1 < 2 ^ 32

/-- **An ext2 image is a file system of well-formed directories.** -/
theorem mounted_image {io : BlockIO σ} {I : σ → Prop} {disk : ℕ → Byte} (H : Serves io I disk)
    (hbs : io.blockSize = 512) (hsize : io.sizeInBytes = 2 ^ 32 - 1) (hrange : Format.InRange disk)
    {s s' : σ} (hI : I s) {fs : Ext2} {root : Node}
    (hconstruct : construct io s = .ok ((fs, some root), s')) {records : ℕ → ℕ → List Entry}
    (W : ImageWellFormed io disk fs records) :
    Mounted (imageFs io fs root) I (imageNode disk fs io) (imageContent disk fs) records rootInode where
  root_eq := Option.some_inj.mp (construct_root H hbs hsize hI hrange hconstruct)
  number_eq := imageNode_number
  getNode_zero _ := rfl
  getNode d name x s hd hx hI := by
    obtain ⟨offset, hoffset, ho⟩ := W.named d name x hd hx
    exact getNode_image H hI (childOf_ne_zero hx) hoffset ho root
  serves x hx := by
    have hfs : fs.blockSize = 1024 * 2 ^ Format.superblock disk sbBlockSizeOffset 4 := by
      rw [construct_fs H hbs hsize hI hrange hconstruct]
      rfl
    obtain ⟨offset, hoffset⟩ := exists_offset hx
    exact serves_image H hsize hfs hoffset (W.fits x offset hoffset hx)
  wellFormed := W.wellFormed
  link_lt := W.link_lt

end GheithOS.Files
