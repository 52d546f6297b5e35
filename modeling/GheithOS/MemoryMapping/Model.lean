import GheithOS.BitTree.Family

/-!
# GheithOS.MemoryMapping.Model — `memory_mapping.cc`

The entries of a process lie in a tree, each under the key of its start.  A mapping is one tree of a
family (`BitTree.Family`), since `fork` copies the tree and the copies share nodes.  Numbers are
`uint32_t`: sums are taken modulo `2^32`.
-/

namespace GheithOS.MemoryMapping

open BitTree

/-! ### Constants of `kernel.h` -/

def frameSize : ℕ := 4096
def userMemStart : ℕ := 0x80000000
def sharedAddress : ℕ := 0xF0000000

/-- `check_bounds` of `kernel.cc`. -/
def checkBounds (base index scale lowerBound upperBound : ℕ) : Bool :=
  let scaled := index * scale % 2 ^ 32
  if scaled / scale ≠ index then false
  else
    let finalValue := (base + scaled) % 2 ^ 32
    if finalValue < base then false else lowerBound ≤ finalValue ∧ finalValue < upperBound

/-! ### The mapping -/

structure VirtualMemoryEntry where
  start : ℕ
  size : ℕ
  /-- The open file behind `Shared<FileDescriptor>`; null for anonymous memory. -/
  file : Option ℕ
  fileOffset : ℕ
  fileSize : ℕ
  deriving DecidableEq

inductive Errno
  | EINVAL
  | ENOMEM
  deriving DecidableEq

structure UnmapResult where
  start : ℕ
  size : ℕ
  deriving DecidableEq

/-- The call `file->read(contents + memory_offset, length, _, offset)` into a new frame. -/
structure FileRead where
  file : Option ℕ
  memoryOffset : ℕ
  length : ℕ
  offset : ℕ
  deriving DecidableEq

/-- `contents` is the frame that was filled by the read, if there was one. -/
structure CheckResult where
  isMapped : Bool
  contents : Option FileRead
  deriving DecidableEq

/-- The mappings of all processes. -/
abbrev Mappings := Family VirtualMemoryEntry

abbrev params : Params := mappingParams

/-- `vme_tree.lookup_floor`, dereferenced. -/
def lookupFloor (s : Mappings) (t address : ℕ) : Option VirtualMemoryEntry :=
  (s.store.lookupFloor params t address).map s.store.item

/-- `vme_tree.lookup_ceil`, dereferenced. -/
def lookupCeil (s : Mappings) (t address : ℕ) : Option VirtualMemoryEntry :=
  (s.store.lookupCeil params t address).map s.store.item

/-- The part of a file that backs the page of an address in an entry. -/
def fileContents (entry : VirtualMemoryEntry) (address : ℕ) : Option FileRead :=
  let page := address / frameSize * frameSize
  let beginPage := entry.start / frameSize * frameSize
  let endPage := (entry.start + entry.fileSize + 2 ^ 32 - 1) % 2 ^ 32 / frameSize * frameSize
  if entry.fileSize > 0 ∧ page ≥ beginPage ∧ page ≤ endPage then
    let fileReadStart :=
      if page < entry.start then entry.fileOffset
      else (entry.fileOffset + (page + 2 ^ 32 - entry.start)) % 2 ^ 32
    let memoryOffset := if page < entry.start then entry.start - page else 0
    let fileReadEnd := (fileReadStart + frameSize - memoryOffset) % 2 ^ 32
    let fileReadEnd :=
      if fileReadEnd > (entry.fileOffset + entry.fileSize) % 2 ^ 32
        then (entry.fileOffset + entry.fileSize) % 2 ^ 32
      else fileReadEnd
    some ⟨entry.file, memoryOffset, (fileReadEnd + 2 ^ 32 - fileReadStart) % 2 ^ 32, fileReadStart⟩
  else none

def checkAddress (s : Mappings) (t address : ℕ) (getContents : Bool) : CheckResult :=
  match lookupFloor s t address with
  | none => ⟨false, none⟩
  | some entry =>
    if address < (entry.start + entry.size) % 2 ^ 32 then
      ⟨true, if getContents then fileContents entry address else none⟩
    else ⟨false, none⟩

/-- The loop of `map` for `start == 0`: the first page with room, or 0. -/
def findRoom (s : Mappings) (t size : ℕ) : ℕ → ℕ → ℕ
  | 0, _ => 0
  | fuel + 1, page =>
    if (page + size) % 2 ^ 32 > size ∧ (page + size) % 2 ^ 32 ≤ sharedAddress then
      match lookupCeil s t page with
      | none => page
      | some entry =>
        if (page + size) % 2 ^ 32 ≤ entry.start then page
        else findRoom s t size fuel ((entry.start + entry.size) % 2 ^ 32)
    else 0

/-- One round for each page of user memory, and one to see the end. -/
def findRoomFuel : ℕ := (sharedAddress - userMemStart) / frameSize + 1

/-- The checks of `map`, and the address it settles on. -/
def place (s : Mappings) (t start size : ℕ) : Except Errno ℕ :=
  if size = 0 ∨ start % frameSize ≠ 0 ∨ size % frameSize ≠ 0 then .error .EINVAL
  else if start ≠ 0 then
    if start < userMemStart ∨ checkBounds start size 1 userMemStart (sharedAddress + 1) = false
        then .error .EINVAL
    else if (checkAddress s t start false).isMapped then .error .EINVAL
    else if (checkAddress s t ((start + size + 2 ^ 32 - 1) % 2 ^ 32) false).isMapped then .error .EINVAL
    else .ok start
  else
    let start := findRoom s t size findRoomFuel userMemStart
    if start = 0 then .error .ENOMEM else .ok start

def map (s : Mappings) (t start size : ℕ) (file : Option ℕ) (fileOffset fileSize : ℕ) :
    Mappings × Except Errno ℕ :=
  match place s t start size with
  | .error e => (s, .error e)
  | .ok start =>
    let entry := (s.store.newItem ⟨start, size, file, fileOffset, fileSize⟩).2
    ((s.exec params (.newItem ⟨start, size, file, fileOffset, fileSize⟩)).exec params
      (.on t (.insert start entry)), .ok start)

/-- `delete item`. -/
def deleteEntry (s : Mappings) : Option ℕ → Mappings
  | none => s
  | some item => s.exec params (.deleteItem item)

def unmap (s : Mappings) (t address : ℕ) : Mappings × UnmapResult :=
  match lookupFloor s t address with
  | none => (s, ⟨0, 0⟩)
  | some entry =>
    if address ≥ (entry.start + entry.size) % 2 ^ 32 then (s, ⟨0, 0⟩)
    else
      let removed := (s.store.remove params t entry.start).2
      (deleteEntry (s.exec params (.on t (.remove entry.start))) removed, ⟨entry.start, entry.size⟩)

end GheithOS.MemoryMapping
