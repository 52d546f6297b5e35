import GheithOS.Lib.Ledger
import GheithOS.Vmm.Model

/-!
# GheithOS.Vmm.Accounting — who refers to which frame

The state of the machine does not say what a frame is used for.  A `Ghost` does: whether it is free,
a directory, a page table, a frame of user data, or in the hands of the code that has just taken it,
and by how much its reference count is off.  `Sound` is the invariant of every operation of
`vmm.cc`: the free list is a list of the free frames, directories point to tables and tables to
data, and the counts balance (`Lib.Balanced`) with the present bits as references and `FLAG_RW` as
ownership.  `Even` says that no count is off, `NoLeak` that every frame taken is in use.
-/

namespace GheithOS.Vmm

open Cow Lib

/-! ### Entries as references -/

/-- The frame an entry targets, and whether the entry carries `FLAG_RW`. -/
def entryRef (w : Word) : Option (ℕ × Bool) := (tgt w).map fun f => (f, isRw w)

variable {w : Word} {f : ℕ} {b : Bool}

theorem entryRef_eq_some : entryRef w = some (f, b) ↔ tgt w = some f ∧ isRw w = b := by
  unfold entryRef
  cases tgt w <;> simp

theorem entryRef_eq_none : entryRef w = none ↔ tgt w = none := by
  unfold entryRef
  cases tgt w <;> simp

@[simp] theorem entryRef_zero : entryRef 0#32 = none := by decide

theorem entryRef_of_tgt (h : tgt w = some f) : entryRef w = some (f, isRw w) :=
  entryRef_eq_some.mpr ⟨h, rfl⟩

/-! ### The uses of frames -/

/-- What a frame is used for.  `out` is not a frame of the pool, or one that was taken and is lost;
`limbo` is held by the running code. -/
inductive Kind
  | out
  | free
  | limbo
  | dir
  | table
  | data
  deriving DecidableEq

structure Ghost where
  kind : ℕ → Kind
  /-- The free list. -/
  free : List ℕ
  /-- By how much a reference count exceeds the number of read-only entries. -/
  bias : ℕ → ℤ

/-- The reference an entry of a directory or a table is; the kernel's part of a directory is not
counted. -/
def slot (kind : ℕ → Kind) (mem : ℕ → Row) (n : ℕ) (i : Index) : Option (ℕ × Bool) :=
  if kind n = .dir ∧ isUser i = false then none else entryRef (mem n i)

/-- The frames whose entries count. -/
def holders (kind : ℕ → Kind) : Finset ℕ :=
  (Finset.range frameLimit).filter fun n => kind n = .dir ∨ kind n = .table

/-- The entries that target a frame. -/
def entries (G : Ghost) (s : Vm) (a : ℕ) : ℕ := total (holders G.kind) (slot G.kind s.mem) a

/-- The free list runs through the first words of the free frames. -/
def Chain (mem : ℕ → Row) : Option ℕ → List ℕ → Prop
  | none, [] => True
  | some p, q :: l => p = q ∧ Chain mem (unlink (mem p 0)) l
  | none, _ :: _ => False
  | some _, [] => False

/-- The frame allocator. -/
structure Pool (c : Config) (G : Ghost) (s : Vm) : Prop where
  chain : Chain s.mem s.firstFree G.free
  nodup : G.free.Nodup
  free_iff : ∀ n, n ∈ G.free ↔ G.kind n = .free
  range : ∀ n, G.kind n ≠ .out → c.pool ≤ n ∧ n < s.avail
  pool_le : c.pool ≤ s.avail
  avail_le : s.avail ≤ s.limit
  limit_le : s.limit ≤ frameLimit
  zero_lt : c.zeroFrame < c.pool
  base_lt : c.baseDirectory < c.pool

/-- Directories point to tables and tables to data. -/
structure Typed (c : Config) (G : Ghost) (s : Vm) : Prop where
  pde : ∀ {d i t}, G.kind d = .dir → isUser i = true → tgt (s.mem d i) = some t → G.kind t = .table
  pte : ∀ {t j f}, G.kind t = .table → tgt (s.mem t j) = some f → f = c.zeroFrame ∨ G.kind f = .data
  zero_ro : ∀ {t j}, G.kind t = .table → tgt (s.mem t j) = some c.zeroFrame → isRw (s.mem t j) = false
  base : ∀ i, isUser i = true → tgt (s.mem c.baseDirectory i) = none

/-- The reference counts. -/
structure Counted (c : Config) (G : Ghost) (s : Vm) : Prop where
  balanced : Balanced (holders G.kind) (slot G.kind s.mem) s.refCounts G.bias
  /-- A frame whose count is too small is targeted once, … -/
  loose : ∀ a, G.bias a < 0 → entries G s a ≤ 1
  /-- … and the table that targets it is targeted once. -/
  lone : ∀ t j a, G.kind t = .table → tgt (s.mem t j) = some a → G.bias a < 0 → entries G s t ≤ 1
  zero_bias : 1 ≤ G.bias c.zeroFrame
  clean : ∀ n, G.kind n = .free ∨ G.kind n = .limbo ∨ G.kind n = .dir ∨ s.avail ≤ n → s.refCounts n = 0

/-- **The invariant of the machine.** -/
structure Sound (c : Config) (G : Ghost) (s : Vm) : Prop extends Pool c G s, Typed c G s, Counted c G s

/-- No count of a frame that is targeted is off, but that of the zero frame, of which `z` references
are held outside the tables. -/
structure Even (c : Config) (z : ℤ) (G : Ghost) (s : Vm) : Prop where
  zero : G.bias c.zeroFrame = z
  rest : ∀ a, a ≠ c.zeroFrame → 0 < entries G s a → G.bias a = 0

/-- Every frame taken from the pool has a use, and every table and every frame of data is
targeted. -/
structure NoLeak (c : Config) (G : Ghost) (s : Vm) : Prop where
  used : ∀ n, c.pool ≤ n → n < s.avail → G.kind n ≠ .out
  targeted : ∀ n, G.kind n = .table ∨ G.kind n = .data → 0 < entries G s n

/-! ### Reading the invariant -/

section Reading

variable {c : Config} {G : Ghost} {s : Vm} {n d t f a : ℕ} {i j : Index}

theorem slot_table (h : G.kind t = .table) (j : Index) : slot G.kind s.mem t j = entryRef (s.mem t j) := by
  simp [slot, h]

theorem slot_dir (hi : isUser i = true) : slot G.kind s.mem d i = entryRef (s.mem d i) := by
  simp [slot, hi]

theorem slot_eq_some (h : slot G.kind s.mem n i = some (a, b)) :
    tgt (s.mem n i) = some a ∧ isRw (s.mem n i) = b ∧ (G.kind n = .dir → isUser i = true) := by
  unfold slot at h
  split at h
  · simp at h
  · next hc =>
    obtain ⟨h1, h2⟩ := entryRef_eq_some.mp h
    refine ⟨h1, h2, fun hd => ?_⟩
    by_contra hu
    exact hc ⟨hd, by simpa using hu⟩

theorem Pool.lt_limit (H : Pool c G s) (h : G.kind n ≠ .out) : n < frameLimit := by
  have h1 := H.range n h
  have h2 := H.avail_le
  have h3 := H.limit_le
  omega

theorem Pool.kind_zero (H : Pool c G s) : G.kind c.zeroFrame = .out := by
  by_contra h
  have h1 := H.range _ h
  have h2 := H.zero_lt
  omega

theorem Pool.kind_base (H : Pool c G s) : G.kind c.baseDirectory = .out := by
  by_contra h
  have h1 := H.range _ h
  have h2 := H.base_lt
  omega

theorem Pool.mem_holders (H : Pool c G s) : n ∈ holders G.kind ↔ G.kind n = .dir ∨ G.kind n = .table := by
  rw [holders, Finset.mem_filter, Finset.mem_range]
  refine ⟨fun h => h.2, fun h => ⟨H.lt_limit ?_, h⟩⟩
  rcases h with h | h <;> simp [h]

/-- What an entry targets is a table or data or the zero frame. -/
theorem Sound.entries_eq_zero (H : Sound c G s) (ht : G.kind a ≠ .table) (hd : G.kind a ≠ .data)
    (hz : a ≠ c.zeroFrame) : entries G s a = 0 := by
  refine total_eq_zero.mpr fun n hn i b hx => ?_
  obtain ⟨h1, -, h2⟩ := slot_eq_some hx
  rcases H.mem_holders.mp hn with hk | hk
  · exact ht (H.pde hk (h2 hk) h1)
  · rcases H.pte hk h1 with h3 | h3
    · exact hz h3
    · exact hd h3

end Reading

end GheithOS.Vmm
