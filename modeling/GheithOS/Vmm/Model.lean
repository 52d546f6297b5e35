import GheithOS.Cow.Entry
import GheithOS.Lib.Prog
import GheithOS.MemoryMapping.Model

/-!
# GheithOS.Vmm.Model — `physmem.cc`, `cow.cc` and `vmm.cc`

Physical memory is an array of frames of 1024 words; a frame is named by its number, a pointer into
a frame that holds entries by the frame and the index.  The kernel maps physical memory one to one,
so the code reads and writes page tables and free frames through their physical addresses.
Operations run one at a time, so the locks (`lock`, `page_locks`) are never waited for and are left
out, and so is `leak_count`, which nothing reads.  A reference count is an integer: the source's
`uint32_t` differs only by wrapping below zero, and there are fewer than `2^30` entries.
-/

namespace GheithOS.Vmm

open Cow Lib Function
open MemoryMapping (userMemStart sharedAddress)

/-! ### Constants of `kernel.h` and `vmm.cc` -/

def userMemEnd : ℕ := sharedAddress + frameSize
def userStackSize : ℕ := 1024 * 1024
def userStackStart : ℕ := sharedAddress
def userStackEnd : ℕ := userStackStart - userStackSize
def userPageDirStart : ℕ := userMemStart / frameSize / 1024
def userPageDirEnd : ℕ := sharedAddress / frameSize / 1024

/-! ### Memory -/

/-- A place in a frame of `pointers_per_frame` words. -/
abbrev Index := Fin 1024

instance neZeroIndex : NeZero 1024 := ⟨by decide⟩

/-- The words of a frame. -/
abbrev Row := Index → Word

/-- Physical memory, the reference counts, and the state of the frame allocator (`avail`, `limit` as
frame numbers). -/
structure Vm where
  mem : ℕ → Row
  refCounts : ℕ → ℤ
  firstFree : Option ℕ
  avail : ℕ
  limit : ℕ

/-- Why the kernel stops. -/
inductive Stop
  /-- `panic("no more frames")`. -/
  | noMoreFrames
  /-- `panic("kernel shouldn't page fault...")`. -/
  | kernelFault
  /-- An access through `nullptr`. -/
  | nullPointer
  deriving DecidableEq

/-- Code of the kernel. -/
abbrev Code (α : Type) := Prog Stop Vm α

/-- The frames of the static arrays `zero_frame` and `base_directory`, and the first frame that
`PhysMem` has left when `global_init` is done. -/
structure Config where
  zeroFrame : ℕ
  baseDirectory : ℕ
  pool : ℕ

/-- The state after a word is stored. -/
def Vm.setWord (s : Vm) (n : ℕ) (i : Index) (w : Word) : Vm :=
  { s with mem := update s.mem n (update (s.mem n) i w) }

/-- The state after a frame is filled. -/
def Vm.setRow (s : Vm) (n : ℕ) (row : Row) : Vm := { s with mem := update s.mem n row }

/-- The state after a reference count is changed. -/
def Vm.addCount (s : Vm) (n : ℕ) (k : ℤ) : Vm :=
  { s with refCounts := update s.refCounts n (s.refCounts n + k) }

def load (n : ℕ) (i : Index) : Code Word := fun s => .ok (s.mem n i, s)

def store (n : ℕ) (i : Index) (w : Word) : Code Unit := fun s => .ok ((), s.setWord n i w)

def loadRow (n : ℕ) : Code Row := fun s => .ok (s.mem n, s)

def storeRow (n : ℕ) (row : Row) : Code Unit := fun s => .ok ((), s.setRow n row)

/-- `ref_counts[page_number].add_fetch(k)`. -/
def addFetch (n : ℕ) (k : ℤ) : Code ℤ := fun s => .ok (s.refCounts n + k, s.addCount n k)

/-! ### `physmem.cc` -/

/-- `Frame* next` as the first word of a free frame. -/
def link : Option ℕ → Word
  | none => 0#32
  | some p => frameAddr p

def unlink (w : Word) : Option ℕ := if w = 0#32 then none else some (pageNumber w)

def allocFrame : Code ℕ := fun s =>
  match s.firstFree with
  | some p => .ok (p, ({ s with firstFree := unlink (s.mem p 0) }).setRow p fun _ => 0#32)
  | none =>
    if s.avail = s.limit then .error .noMoreFrames
    else .ok (s.avail, ({ s with avail := s.avail + 1 }).setRow s.avail fun _ => 0#32)

def deallocFrame (p : ℕ) : Code Unit := fun s =>
  .ok ((), { s.setWord p 0 (link s.firstFree) with firstFree := some p })

/-! ### `cow.cc` -/

/-- `ref(entry)`. -/
def ref (n : ℕ) (i : Index) : Code Word := do
  let e ← load n i
  if isPresent e then
    if isRw e then
      let _ ← addFetch (pageNumber e) 1
    store n i (e &&& ~~~flagRw)
    let _ ← addFetch (pageNumber e) 1
    load n i
  else return 0#32

/-- `ref(&frame, true)`. -/
def refOnly (page : ℕ) : Code Unit := do
  let _ ← addFetch page 1

/-- The loop of `copy` over a page table: `new_data[i] = ref(current_data + i)`. -/
def refTable (current new : ℕ) : Code Unit :=
  (List.finRange 1024).forM fun i => do
    let e ← ref current i
    store new i e

/-- `copy(entry, is_page_table)`. -/
def copy (n : ℕ) (i : Index) (isPageTable : Bool) : Code Unit := do
  let e ← load n i
  if isPresent e = false ∨ isRw e = true then return ()
  else
    let count ← addFetch (pageNumber e) (-1)
    if count = 0 then store n i (e ||| flagRw)
    else
      let newFrame ← allocFrame
      if isPageTable then refTable (pageNumber e) newFrame
      else
        let data ← loadRow (pageNumber e)
        storeRow newFrame data
      let e ← load n i
      store n i (frameAddr newFrame ||| (e &&& flagsMask) ||| flagRw)

/-- `unref`, with what is done to a page table before its frame goes. -/
def unrefWith (inner : ℕ → Code Unit) (n : ℕ) (i : Index) : Code Unit := do
  let e ← load n i
  if isPresent e then
    let last ← if isRw e then pure true else do
      let count ← addFetch (pageNumber e) (-1)
      pure (count = 0)
    if last then
      inner (pageNumber e)
      deallocFrame (pageNumber e)
    store n i 0#32

/-- `unref(entry, false)`. -/
def unrefData : ℕ → Index → Code Unit := unrefWith fun _ => pure ()

/-- `unref(entry, true)`. -/
def unrefTable : ℕ → Index → Code Unit :=
  unrefWith fun table => (List.finRange 1024).forM fun i => unrefData table i

/-! ### `vmm.cc`: page tables -/

/-- `page / pointers_per_frame`. -/
def dirIndex (page : ℕ) : Index := Fin.ofNat 1024 (page / 1024)

/-- `page % pointers_per_frame`. -/
def tableIndex (page : ℕ) : Index := Fin.ofNat 1024 page

def getPageDirectoryEntry (page directory : ℕ) : Code Index := do
  copy directory (dirIndex page) true
  return dirIndex page

def getPageTable (page directory : ℕ) : Code (Option ℕ) := do
  let i ← getPageDirectoryEntry page directory
  let entry ← load directory i
  return tgt entry

def setPageTable (page pageTable : ℕ) (flags : Word) (directory : ℕ) : Code Unit := do
  let i ← getPageDirectoryEntry page directory
  store directory i (frameAddr pageTable ||| flags)

/-- The page table of a page, made if there is none. -/
def tableFor (from_ : ℕ) (flags : Word) (directory : ℕ) : Code ℕ := do
  let pageTable ← getPageTable from_ directory
  match pageTable with
  | some t => return t
  | none =>
    let t ← allocFrame
    setPageTable from_ t flags directory
    return t

def mapAddress (fromAddress : ℕ) (toAddress flags : Word) (directory : ℕ) : Code Unit := do
  let t ← tableFor (fromAddress / frameSize) flags directory
  store t (tableIndex (fromAddress / frameSize)) ((toAddress &&& pgNumMask) ||| flags)

def refZeroFrame (c : Config) : Code Unit := refOnly c.zeroFrame

/-! ### `vmm.cc`: directories -/

/-- `user_page_dir_start <= i && i < user_page_dir_end`. -/
def isUser (i : Index) : Bool := userPageDirStart ≤ i.val ∧ i.val < userPageDirEnd

/-- The indices of user memory in a directory, in order. -/
def userIndices : List Index := (List.finRange 1024).filter isUser

def newDirectory (c : Config) : Code ℕ := do
  let directory ← allocFrame
  let base ← loadRow c.baseDirectory
  storeRow directory base
  return directory

/-- The loop of `clone_directory`. -/
def cloneLoop (other newDir : ℕ) : Code Unit :=
  (List.finRange 1024).forM fun i => do
    let dirEntry ← load other i
    if isPresent dirEntry = false ∨ isUser i = false then store newDir i dirEntry
    else
      let e ← ref other i
      store newDir i e

def cloneDirectory (other : ℕ) : Code ℕ := do
  let newDir ← allocFrame
  cloneLoop other newDir
  return newDir

/-- The page table at `current_pt` and the frames it maps, copied. -/
@[irreducible] def copyTable (currentPt newPt : ℕ) : Code Unit :=
  (List.finRange 1024).forM fun j => do
    let ptEntry ← load currentPt j
    if isPresent ptEntry = false then store newPt j ptEntry
    else
      let newDataFrame ← allocFrame
      let data ← loadRow (pageNumber ptEntry)
      storeRow newDataFrame data
      store newPt j (frameAddr newDataFrame ||| (ptEntry &&& flagsMask))

/-- The loop of `clone_directory_no_cow`. -/
@[irreducible] def noCowLoop (other newDir : ℕ) : Code Unit :=
  (List.finRange 1024).forM fun i => do
    let dirEntry ← load other i
    if isPresent dirEntry = false ∨ isUser i = false then store newDir i dirEntry
    else
      let newPtFrame ← allocFrame
      copyTable (pageNumber dirEntry) newPtFrame
      store newDir i (frameAddr newPtFrame ||| (dirEntry &&& flagsMask))

def cloneDirectoryNoCow (other : ℕ) : Code ℕ := do
  let newDir ← allocFrame
  noCowLoop other newDir
  return newDir

/-- The first and the last entry of page table `pdi` that belong to the pages
`startPage .. endPage`. -/
def startPte (startPage pdi : ℕ) : ℕ := (if startPage > pdi * 1024 then startPage else pdi * 1024) % 1024
def endPte (endPage pdi : ℕ) : ℕ :=
  (if endPage < (pdi + 1) * 1024 - 1 then endPage else (pdi + 1) * 1024 - 1) % 1024

/-- The present entries of a table before `first` and after `last`. -/
def outOfRange (row : Row) (first last : ℕ) : ℕ :=
  ((List.finRange 1024).filter fun pti => ¬ (first ≤ pti.val ∧ pti.val ≤ last) ∧ isPresent (row pti)).length

/-- One round of `unmap_pages`.  `table` is read before `COW::copy` may give the directory another
table. -/
def unmapTable (startPage endPage startDir endDir directory pdi : ℕ) : Code Unit := do
  let first := startPte startPage pdi
  let last := endPte endPage pdi
  let e ← load directory (Fin.ofNat 1024 pdi)
  let table := pageNumber e
  let row ← loadRow table
  if (pdi = startDir ∨ pdi = endDir) ∧ isPresent e = true ∧ 0 < outOfRange row first last then
    copy directory (Fin.ofNat 1024 pdi) true
    ((List.finRange 1024).filter fun pti => first ≤ pti.val ∧ pti.val ≤ last).forM fun pti =>
      unrefData table pti
  else unrefTable directory (Fin.ofNat 1024 pdi)

def unmapPages (start size directory : ℕ) : Code Unit :=
  if size = 0 then pure ()
  else
    let last := (start + size - 1) % 2 ^ 32
    let startPage := start / frameSize
    let endPage := last / frameSize
    let startDir := startPage / 1024
    let endDir := endPage / 1024
    (List.range' startDir (endDir + 1 - startDir)).forM
      (unmapTable startPage endPage startDir endDir directory)

def freeDirectory (c : Config) (directory : ℕ) : Code Unit :=
  if directory = 0 ∨ directory = c.baseDirectory then pure ()
  else do
    userIndices.forM fun i => unrefTable directory i
    deallocFrame directory

/-! ### `vmm.cc`: the stack of a new process -/

/-- A byte of a frame; words are stored with the low byte first. -/
def getByte (row : Row) (offset : ℕ) : BitVec 8 :=
  (row (Fin.ofNat 1024 (offset / 4)) >>> (8 * (offset % 4))).setWidth 8

def putByte (row : Row) (offset : ℕ) (b : BitVec 8) : Row :=
  let i : Index := Fin.ofNat 1024 (offset / 4)
  let shift := 8 * (offset % 4)
  update row i ((row i &&& ~~~(0xFF#32 <<< shift)) ||| (b.setWidth 32 <<< shift))

def putWord (row : Row) (offset : ℕ) (w : Word) : Row := update row (Fin.ofNat 1024 (offset / 4)) w

/-- What `write_stack_data` is instantiated at: `char` and `uint32_t`. -/
inductive Datum
  | char (b : BitVec 8)
  | word (w : Word)

def Datum.size : Datum → ℕ
  | char _ => 1
  | word _ => 4

/-- `((T*)current_block)[offset / sizeof(T)] = data`. -/
def Datum.put (row : Row) (offset : ℕ) : Datum → Row
  | char b => putByte row offset b
  | word w => putWord row offset w

/-- `address` and `current_block` of `write_stack_data`; the block is a frame number, 0 for none. -/
structure Cursor where
  address : ℕ
  currentBlock : ℕ

/-- The frame behind an address, as `write_stack_data` looks for it, mapped if there is none. -/
def stackBlock (address directory : ℕ) : Code ℕ := do
  let page := address / frameSize
  let pageTable ← getPageTable page directory
  let currentBlock ← match pageTable with
    | none => pure 0
    | some t => do
      let e ← load t (tableIndex page)
      if isPresent e then pure (pageNumber e) else pure 0
  if currentBlock = 0 then
    let f ← allocFrame
    mapAddress address (frameAddr f) (flagPr ||| flagUs ||| flagRw) directory
    return f
  else return currentBlock

def writeStackData (directory : ℕ) (x : Datum) (at_ : Cursor) : Code Cursor := do
  let block ← if at_.currentBlock = 0 ∨ at_.address % frameSize = 0 then stackBlock at_.address directory
    else pure at_.currentBlock
  let row ← loadRow block
  storeRow block (x.put row (at_.address % frameSize))
  return ⟨(at_.address + x.size) % 2 ^ 32, block⟩

/-- The characters of a string and the null after them. -/
def writeString (directory : ℕ) : List (BitVec 8) → Cursor → Code Cursor
  | [], data => writeStackData directory (.char 0#8) data
  | b :: str, data => do
    let data ← writeStackData directory (.char b) data
    writeString directory str data

/-- A vector of strings: a pointer for each, the null pointer after them, and the strings. -/
def writeStrings (directory : ℕ) : List (List (BitVec 8)) → Cursor × Cursor → Code (Cursor × Cursor)
  | [], (pointer, data) => do
    let pointer ← writeStackData directory (.word 0#32) pointer
    return (pointer, data)
  | str :: strs, (pointer, data) => do
    let pointer ← writeStackData directory (.word (BitVec.ofNat 32 data.address)) pointer
    let data ← writeString directory str data
    writeStrings directory strs (pointer, data)

/-- The room for `argc`, `argv`, `envp` and the two vectors. -/
def pointerStackSpace (argv envp : List (List (BitVec 8))) : ℕ :=
  (4 + 4 + 4 + 4 * (argv.length + 1) + 4 * (envp.length + 1)) % 2 ^ 32

def setUpStack (directory totalLength : ℕ) (argv envp : List (List (BitVec 8))) : Code ℕ := do
  let pointerSpace := pointerStackSpace argv envp
  let stackSpaceNeeded := (pointerSpace + totalLength) % 2 ^ 32
  let stackPointer := (userStackStart + 2 ^ 32 - stackSpaceNeeded) % 2 ^ 32 / 16 * 16
  let pointer : Cursor := ⟨stackPointer, 0⟩
  let data : Cursor := ⟨(stackPointer + pointerSpace) % 2 ^ 32, 0⟩
  let pointer ← writeStackData directory (.word (BitVec.ofNat 32 argv.length)) pointer
  let pointer ← writeStackData directory (.word (BitVec.ofNat 32 (stackPointer + 12))) pointer
  let pointer ← writeStackData directory
    (.word (BitVec.ofNat 32 (stackPointer + 12 + 4 * (argv.length + 1)))) pointer
  let (pointer, data) ← writeStrings directory argv (pointer, data)
  let _ ← writeStrings directory envp (pointer, data)
  return stackPointer

/-! ### `vmm.cc`: page faults -/

/-- The answer of `check_address(address, true)`: no entry, no file contents, or a frame filled from
the file. -/
inductive Backing
  | unmapped
  | anonymous
  | file (contents : Row)

/-- How `wrapped_page_fault` ends: it returns, it raises a signal, or the process runs on in user
mode. -/
inductive FaultEnd
  | returned
  | segfault
  | rerun
  deriving DecidableEq

def wrappedPageFault (c : Config) (directory address : ℕ) (isPresent isWrite isUser : Bool)
    (backing : Backing) : Code FaultEnd :=
  if address < userMemStart ∨ address ≥ userMemEnd then
    if isUser then return .segfault else throw .kernelFault
  else if isPresent && isWrite then do
    let pageNumber := address / frameSize
    let pageTable ← getPageTable pageNumber directory
    match pageTable with
    | none => throw .nullPointer
    | some t =>
      copy t (tableIndex pageNumber) false
      return .returned
  else
    match backing with
    | .unmapped => return if isUser then .segfault else .rerun
    | .file contents => do
      let f ← allocFrame
      storeRow f contents
      mapAddress address (frameAddr f) (flagPr ||| flagRw ||| flagUs) directory
      return .returned
    | .anonymous =>
      if isWrite then do
        let f ← allocFrame
        mapAddress address (frameAddr f) (flagPr ||| flagRw ||| flagUs) directory
        return .returned
      else do
        refZeroFrame c
        mapAddress address (frameAddr c.zeroFrame) (flagPr ||| flagUs) directory
        return .returned

/-! ### User accesses: what the hardware does -/

/-- The walk of directory and table: the frame behind an address, or the fault with its present
bit. -/
def walk (s : Vm) (directory address : ℕ) (isWrite : Bool) : Except Bool ℕ :=
  let pde := s.mem directory (dirIndex (address / frameSize))
  match tgt pde with
  | none => .error false
  | some t =>
    let pte := s.mem t (tableIndex (address / frameSize))
    match tgt pte with
    | none => .error false
    | some f => if isWrite && !(isRw pde && isRw pte) then .error true else .ok f

/-- An access of a user program to one byte. -/
inductive Access
  | read
  | write (b : BitVec 8)

def Access.isWrite : Access → Bool
  | read => false
  | write _ => true

/-- What an access gives: the byte read, a byte stored, a signal, or no answer yet. -/
inductive AccessEnd
  | value (b : BitVec 8)
  | stored
  | segfault
  | faulting
  deriving DecidableEq

/-- The access to a frame that the walk has found. -/
def touch (f offset : ℕ) : Access → Code AccessEnd
  | .read => do
    let row ← loadRow f
    return .value (getByte row offset)
  | .write b => do
    let row ← loadRow f
    storeRow f (putByte row offset b)
    return .stored

/-- **A user access**: the walk; when it fails the fault handler and the access again. -/
def access (c : Config) (backing : ℕ → Backing) (directory address : ℕ) (a : Access) : ℕ → Code AccessEnd
  | 0 => return .faulting
  | fuel + 1 => do
    let s ← get
    match walk s directory address a.isWrite with
    | .ok f => touch f (address % frameSize) a
    | .error present =>
      let result ← wrappedPageFault c directory address present a.isWrite true (backing address)
      match result with
      | .returned => access c backing directory address a fuel
      | _ => return .segfault

end GheithOS.Vmm
