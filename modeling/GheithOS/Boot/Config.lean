import GheithOS.Files.Ext2

/-!
# GheithOS.Boot.Config — `config.cc`

What the kernel learns of its processors at boot.  Memory is physical, and a pointer plus an offset
wraps at 32 bits.  The loop over the entries of the processor table keeps, besides the
configuration, the list of the addresses it has examined.
-/

namespace GheithOS.Boot

open Lib Files

/-- The byte at an offset of a pointer. -/
def field (mem : ℕ → Byte) (p i : ℕ) : Byte := mem ((p + i) % 2 ^ 32)

/-- The `uint32_t` at an offset of some bytes. -/
def word (f : ℕ → Byte) (i : ℕ) : ℕ := littleEndian (window f i 4)

/-- A `uint32_t` as an `int32_t`. -/
def int32 (n : ℕ) : ℤ := if n % 2 ^ 32 < 2 ^ 31 then (n % 2 ^ 32 : ℕ) else (n % 2 ^ 32 : ℕ) - 2 ^ 32

structure ApicInfo where
  processorId : Byte
  apicId : Byte
  flags : ℕ
  deriving DecidableEq

def maxProcs : ℕ := 16

/-- `Config`; `apicInfo` from `MAX_PROCS` on is the memory behind the array. -/
structure Config where
  nOtherProcs : ℕ
  totalProcs : ℕ
  localAPIC : ℕ
  madtFlags : ℕ
  ioAPIC : ℕ
  apicInfo : ℕ → ApicInfo

def kConfig : Config := ⟨0, 0, 0, 0, 0, fun _ => ⟨0, 0, 0⟩⟩

/-! ### The processor table -/

def sizeofMADT : ℕ := 44

/-- The configuration, and the addresses that the loop has examined. -/
structure Scan where
  config : Config
  examined : List ℕ

/-- `n` bytes at an offset of a pointer are examined. -/
def Scan.examine (s : Scan) (p i n : ℕ) : Scan :=
  { s with examined := s.examined ++ (List.range' i n).map fun j => (p + j) % 2 ^ 32 }

/-- `config->apicInfo[config->nOtherProcs ++] = info`. -/
def Config.addApic (c : Config) (info : ApicInfo) : Config :=
  { c with apicInfo := Function.update c.apicInfo c.nOtherProcs info, nOtherProcs := c.nOtherProcs + 1 }

/-- What the loop does with the bytes of an entry. -/
def Config.record (f : ℕ → Byte) (c : Config) : Config :=
  if f 0 = 0 then if f 2 = 0 then c else c.addApic ⟨f 2, f 3, word f 4⟩
  else if f 0 = 1 then { c with ioAPIC := word f 4 }
  else c

/-- The fields of an entry that the loop examines. -/
def Scan.examineEntry (s : Scan) (mem : ℕ → Byte) (p : ℕ) : Scan :=
  if field mem p 0 = 0 then
    if field mem p 2 = 0 then (s.examine p 0 1).examine p 2 1 else (s.examine p 0 1).examine p 2 6
  else if field mem p 0 = 1 then (s.examine p 0 1).examine p 4 4
  else s.examine p 0 1

/-- The loop: it goes to the next entry, and then looks at it. -/
def entryLoop (mem : ℕ → Byte) : ℕ → ℕ → ℤ → Scan → Option Scan
  | fuel, entryPtr, bytesForEntries, s =>
    if 0 < bytesForEntries then
      match fuel with
      | 0 => none
      | fuel + 1 =>
        let len := (field mem entryPtr 1).toNat
        let s := s.examine entryPtr 1 1
        let entryPtr := (entryPtr + len) % 2 ^ 32
        let s := s.examineEntry mem entryPtr
        entryLoop mem fuel entryPtr (bytesForEntries - len)
          { s with config := s.config.record (field mem entryPtr) }
    else some s

/-- The part of `configInit` behind the search for the table. -/
def readMADT (mem : ℕ → Byte) (madt fuel : ℕ) (config : Config) : Option Scan := do
  let config := { config with localAPIC := word (field mem madt) 36, madtFlags := word (field mem madt) 40 }
  let bytesForEntries := int32 (word (field mem madt) 4 + 2 ^ 32 - sizeofMADT)
  let s ← entryLoop mem fuel ((madt + sizeofMADT) % 2 ^ 32) bytesForEntries
      ⟨{ config with nOtherProcs := 0 }, []⟩
  return { s with config := { s.config with totalProcs := s.config.nOtherProcs + 1 } }

end GheithOS.Boot
