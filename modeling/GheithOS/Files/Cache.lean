import GheithOS.Files.BlockIO

/-!
# GheithOS.Files.Cache — `ide.h` and `cache.cc`

The disk gives its bytes in sectors of 512.  `CachedBlockIO` keeps 32 blocks of the device under it,
each at its number modulo 32.  Its cache is right if every entry that names a block holds the bytes
of that block; an entry that names none has the number 0xFFFFFFFF, which no block of a device of
less than 2^32 bytes has.  A cached device serves what the device serves (`Serves.cached`).
-/

namespace GheithOS.Files

open Lib

variable {τ : Type}

/-- `Ide`: a disk with the given bytes.  Its size is a constant of the source. -/
def ide (disk : ℕ → Byte) : BlockIO Unit where
  blockSize := 512
  sizeInBytes := 2 ^ 32 - 1
  readBlock sector := return window disk (sector * 512) 512
  blockSize_pos := by decide
  size_lt := by decide

theorem serves_ide (disk : ℕ → Byte) : Serves (ide disk) (fun _ => True) disk :=
  fun _ _ _ _ => ends_pure ⟨rfl, trivial⟩

def cacheSize : ℕ := 32
def noBlock : ℕ := 0xFFFFFFFF

/-- The entries of the cache: the number of the block and its bytes. -/
structure Cache where
  block : ℕ → ℕ
  data : ℕ → List Byte

def Cache.init : Cache := ⟨fun _ => noBlock, fun _ => []⟩

/-- A call of the device under the cache. -/
def below {α : Type} (m : Prog Halt τ α) : Prog Halt (Cache × τ) α := fun (c, t) =>
  match m t with
  | .ok (a, t) => .ok (a, (c, t))
  | .error e => .error e

def cachedReadBlock (device : BlockIO τ) (blockNumber : ℕ) : Prog Halt (Cache × τ) (List Byte) := do
  let index := blockNumber % cacheSize
  let (c, _) ← get
  if c.block index = blockNumber then return c.data index
  else
    let buffer ← below (device.readBlock blockNumber)
    modify fun (c, t) =>
      (⟨Function.update c.block index blockNumber, Function.update c.data index buffer⟩, t)
    return buffer

/-- `CachedBlockIO`. -/
def cached (device : BlockIO τ) : BlockIO (Cache × τ) where
  blockSize := device.blockSize
  sizeInBytes := device.sizeInBytes
  readBlock := cachedReadBlock device
  blockSize_pos := device.blockSize_pos
  size_lt := device.size_lt

/-- Every entry that names a block holds its bytes. -/
def Cache.Right (content : ℕ → Byte) (blockSize : ℕ) (c : Cache) : Prop :=
  ∀ i, c.block i ≠ noBlock → c.data i = window content (c.block i * blockSize) blockSize

theorem cache_right_init (content : ℕ → Byte) (blockSize : ℕ) : Cache.init.Right content blockSize :=
  fun _ h => absurd rfl h

theorem Cache.Right.update {content : ℕ → Byte} {blockSize b i : ℕ} {c : Cache}
    (h : c.Right content blockSize) :
    (Cache.mk (Function.update c.block i b)
      (Function.update c.data i (window content (b * blockSize) blockSize))).Right
      content blockSize := by
  intro j hj
  dsimp only at hj ⊢
  by_cases hji : j = i
  · subst hji
    rw [Function.update_self, Function.update_self]
  · rw [Function.update_of_ne hji] at hj
    rw [Function.update_of_ne hji, Function.update_of_ne hji]
    exact h j hj

theorem ends_below {α : Type} {E : Halt → Prop} {m : Prog Halt τ α} {c : Cache} {t : τ}
    {Q : α → Cache × τ → Prop} (h : Ends E m t fun a t' => Q a (c, t')) :
    Ends E (below m) (c, t) Q := by
  unfold Ends below at *
  dsimp only
  match hm : m t with
  | .ok (a, t') =>
    rw [hm] at h
    exact h
  | .error e =>
    rw [hm] at h
    exact h

/-- **The cache is transparent.** -/
theorem Serves.cached {device : BlockIO τ} {I : τ → Prop} {content : ℕ → Byte}
    (H : Serves device I content) :
    Serves (cached device) (fun (c, t) => c.Right content device.blockSize ∧ I t) content := by
  rintro b ⟨c, t⟩ ⟨hc, hI⟩ hb
  change b * device.blockSize < device.sizeInBytes at hb
  have hne : b ≠ noBlock := by
    rintro rfl
    have h1 := device.size_lt
    have h2 := Nat.le_mul_of_pos_right noBlock device.blockSize_pos
    have h3 : noBlock = 4294967295 := rfl
    omega
  refine ends_bind (ends_of_eq rfl ?_)
  dsimp only
  split
  · next hhit =>
    refine ends_pure ⟨?_, hc, hI⟩
    rw [hc _ (by rw [hhit]; exact hne), hhit]
    rfl
  · refine ends_bind (ends_below ((H b t hI hb).mono fun buffer t' h => ?_))
    refine ends_bind (ends_of_eq rfl (ends_pure ⟨h.1, ?_, h.2⟩))
    rw [h.1]
    exact hc.update

end GheithOS.Files
