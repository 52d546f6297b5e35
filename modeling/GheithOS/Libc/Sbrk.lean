import GheithOS.Exec.Load

/-!
# GheithOS.Libc.Sbrk — `sbrk` of the C library

`sbrk` rounds the increment to whole pages and maps the pages behind the break with `simple_mmap`.
The rounding uses the remainder of C, which has the sign of the increment: an increment between
`-4096` and `0` becomes a whole page, upwards.  An increment of 0 asks for a mapping of no bytes,
which the kernel refuses.  `map` looks at the first and the last byte of the pages only
(`MemoryMapping.Encloses`), so the pages may hold a mapping.

`sbrk_moves_iff` says for which calls, in every state of a process, the break moves as it should.
-/

namespace GheithOS.Libc

open BitTree MemoryMapping Exec

/-- A process as its C library sees it: the static `heap_end` of `sbrk`, and the mappings. -/
structure Process where
  heapEnd : ℕ
  mappings : Mappings

/-- A number as a word of 32 bits. -/
def word (z : ℤ) : ℕ := (z % 2 ^ 32).toNat

/-- The increment, in whole pages. -/
def roundIncr (incr : ℤ) : ℤ := if incr.tmod 4096 ≠ 0 then incr + (4096 - incr.tmod 4096) else incr

def stackLow : ℕ := 0xF0000000 - 1024 * 1024

/-- The first page behind the program, whose last address is `_end`. -/
def programEnd (endAddress : ℕ) : ℕ :=
  if endAddress % 4096 ≠ 0 then (endAddress + (4096 - endAddress % 4096)) % 2 ^ 32 else endAddress

/-- `simple_mmap` of the mapping `t`: the address, or `NULL`. -/
def simpleMmap (s : Mappings) (t address size : ℕ) (file : Option ℕ) (fileOffset fileSize : ℕ) :
    Mappings × ℕ :=
  let (s, ret) := map s t address size file fileOffset fileSize
  (s, if resultWord ret % 4096 ≠ 0 then 0 else resultWord ret)

/-- `sbrk`: the process behind the call, and what it returns. -/
def sbrk (endAddress t : ℕ) (incr : ℤ) (p : Process) : Process × ℕ :=
  let incr := roundIncr incr
  let heapEnd := if p.heapEnd = 0 then programEnd endAddress else p.heapEnd
  if word (heapEnd + incr) > stackLow then ({ p with heapEnd := heapEnd }, 2 ^ 32 - 1)
  else
    let (mappings, ret) := simpleMmap p.mappings t heapEnd (word incr) none 0 0
    if ret = 0 then (⟨heapEnd, mappings⟩, 2 ^ 32 - 1) else (⟨word (heapEnd + incr), mappings⟩, heapEnd)

/-! ### The purpose -/

section

variable (endAddress t : ℕ)

/-- The break; before the first call it is the end of the program. -/
def Process.brk (p : Process) : ℕ := if p.heapEnd = 0 then programEnd endAddress else p.heapEnd

/-- The least multiple of the page size that is not below the increment. -/
def pages (incr : ℤ) : ℤ := -(-incr / 4096) * 4096

/-- The call moves the break as it should: it fails and leaves it where it is, which a call for 0
bytes does not, or it returns the break and moves it by the pages, which, if there are any, are
new. -/
def MovesBreak (incr : ℤ) (p : Process) : Prop :=
  ((sbrk endAddress t incr p).2 = 2 ^ 32 - 1 ∧ incr ≠ 0 ∧
    (sbrk endAddress t incr p).1.brk endAddress = p.brk endAddress) ∨
  ((sbrk endAddress t incr p).2 = p.brk endAddress ∧
    ((sbrk endAddress t incr p).1.brk endAddress : ℤ) = p.brk endAddress + pages incr ∧
    (0 < pages incr →
      (∀ a, p.brk endAddress ≤ a → a < (sbrk endAddress t incr p).1.brk endAddress →
        Mapped (entries (sbrk endAddress t incr p).1.mappings t) a) ∧
      Free (entries p.mappings t) (p.brk endAddress) (pages incr).toNat))

/-- The states of a process: it starts with any mappings, as `execve` or `fork` leave them, and
calls the three functions. -/
inductive Reached : Process → Prop
  | start {s : Mappings} (h : Reach (fun _ _ => True) s) (ht : t ∈ s.trees) : Reached ⟨0, s⟩
  | sbrk {p : Process} (h : Reached p) {incr : ℤ} (hincr : |incr| ≤ 2 ^ 30) :
      Reached (sbrk endAddress t incr p).1
  | mmap {p : Process} (h : Reached p) {address size : ℕ} (haddress : address < 2 ^ 32)
      (hsize : size < 2 ^ 32)
      (file : Option ℕ) (fileOffset fileSize : ℕ) :
      Reached { p with mappings := (simpleMmap p.mappings t address size file fileOffset fileSize).1 }
  | munmap {p : Process} (h : Reached p) {address : ℕ} (haddress : address < 2 ^ 32) :
      Reached { p with mappings := (unmap p.mappings t address).1 }

end

/-! ### The rounding -/

variable {incr : ℤ}

theorem roundIncr_of_nonneg (h : 0 ≤ incr) : roundIncr incr = pages incr := by
  rw [roundIncr, pages, Int.tmod_eq_emod_of_nonneg h]
  split_ifs <;> omega

/-- Below 0 a page too much is added, unless the increment is one of whole pages. -/
theorem roundIncr_of_neg (h : incr < 0) :
    roundIncr incr = if incr % 4096 = 0 then pages incr else pages incr + 4096 := by
  obtain ⟨n, rfl⟩ : ∃ n : ℤ, incr = -n := ⟨-incr, by omega⟩
  rw [roundIncr, pages, Int.neg_tmod, Int.tmod_eq_emod_of_nonneg (by omega)]
  split_ifs <;> omega

theorem roundIncr_pos : 0 < roundIncr incr ↔ -4096 < incr ∧ incr ≠ 0 := by
  rcases lt_or_ge incr 0 with h | h
  · rw [roundIncr_of_neg h, pages]
    split_ifs <;> omega
  · rw [roundIncr_of_nonneg h, pages]
    omega

theorem word_of_nonneg {z : ℤ} (h : 0 ≤ z) (hlt : z < 2 ^ 32) : word z = z.toNat := by
  rw [word, Int.emod_eq_of_lt h hlt]

theorem programEnd_aligned {endAddress : ℕ} (h : endAddress < 2 ^ 32) :
    programEnd endAddress % frameSize = 0 ∧ programEnd endAddress < 2 ^ 32 := by
  rw [programEnd, frameSize]
  split_ifs <;> omega

/-! ### States of a process -/

variable {endAddress t : ℕ} {incr : ℤ} {p : Process}

/-- The mapping exists, and the break is a page or has not been set. -/
structure Good (t : ℕ) (p : Process) : Prop where
  reach : Reach (fun _ _ => True) p.mappings
  tree : t ∈ p.mappings.trees
  aligned : p.heapEnd % frameSize = 0
  lt : p.heapEnd < 2 ^ 32

theorem Good.brk (h : Good t p) (hend : endAddress < 2 ^ 32) :
    p.brk endAddress % frameSize = 0 ∧ p.brk endAddress < 2 ^ 32 := by
  rw [Process.brk]
  split_ifs
  · exact programEnd_aligned hend
  · exact ⟨h.aligned, h.lt⟩

theorem Good.mmap (h : Good t p) {address size : ℕ} (haddress : address < 2 ^ 32)
    (hsize : size < 2 ^ 32) (file : Option ℕ) (fileOffset fileSize : ℕ) :
    Reach (fun _ _ => True) (simpleMmap p.mappings t address size file fileOffset fileSize).1 ∧
      t ∈ (simpleMmap p.mappings t address size file fileOffset fileSize).1.trees := by
  refine ⟨h.reach.step (.map t address size file fileOffset fileSize) ⟨h.tree, haddress, hsize⟩ trivial, ?_⟩
  show t ∈ (map p.mappings t address size file fileOffset fileSize).1.trees
  obtain ⟨A, hA, hok⟩ := h.reach.family
  cases hplace : place p.mappings t address size with
  | error e =>
    rw [map, hplace]
    exact h.tree
  | ok a =>
    obtain ⟨huser, -⟩ := place_inUser hA h.tree (hok t h.tree) haddress hsize hplace
    have hlt : a < 2 ^ 32 := by
      have := huser.upper
      have := huser.pos
      unfold sharedAddress at *
      omega
    rw [(map_runs hA h.tree file fileOffset fileSize hplace (key_of_word huser.lower hlt)).2]
    exact h.tree

theorem Good.munmap (h : Good t p) {address : ℕ} (haddress : address < 2 ^ 32) :
    Good t { p with mappings := (unmap p.mappings t address).1 } := by
  refine ⟨h.reach.step (.unmap t address) ⟨h.tree, haddress⟩ trivial, ?_, h.aligned, h.lt⟩
  show t ∈ (unmap p.mappings t address).1.trees
  obtain ⟨A, hA, hok⟩ := h.reach.family
  rcases unmap_runs hA h.tree (hok t h.tree) address with ⟨heq, -⟩ | ⟨_, _, _, _, _, _, _, htrees⟩
  · rw [heq]
    exact h.tree
  · rw [htrees]
    exact h.tree

/-! ### One call -/

variable {s : Mappings}

theorem simpleMmap_error {address size : ℕ} {e : Errno} (h : place s t address size = .error e) :
    simpleMmap s t address size none 0 0 = (s, 0) := by
  rw [simpleMmap, map, h]
  cases e <;> rfl

theorem simpleMmap_ok {address size a : ℕ} (h : place s t address size = .ok a)
    (huser : InUser a size) :
    simpleMmap s t address size none 0 0 = ((map s t address size none 0 0).1, a) ∧ a ≠ 0 := by
  have hal : a % 4096 = 0 := huser.start_aligned
  have hlow := huser.lower
  refine ⟨?_, by unfold userMemStart at hlow; omega⟩
  have hret : (map s t address size none 0 0).2 = .ok a := by
    rw [map, h]
  rw [simpleMmap]
  dsimp only
  rw [hret, resultWord, if_neg (by omega)]

/-- The break stays below the stack, and the kernel takes the pages, at `a`. -/
structure Accepted (endAddress t : ℕ) (incr : ℤ) (p : Process) (a : ℕ) : Prop where
  below : word (p.brk endAddress + roundIncr incr) ≤ stackLow
  placed : place p.mappings t (p.brk endAddress) (word (roundIncr incr)) = .ok a

theorem sbrk_refused (h : ∀ a, ¬ Accepted endAddress t incr p a) :
    sbrk endAddress t incr p = ({ p with heapEnd := p.brk endAddress }, 2 ^ 32 - 1) := by
  rw [sbrk, ← Process.brk]
  dsimp only
  split_ifs with hlow hnull
  · rfl
  · cases hplace : place p.mappings t (p.brk endAddress) (word (roundIncr incr)) with
    | error e => rw [simpleMmap_error hplace]
    | ok a => exact absurd ⟨Nat.le_of_not_lt hlow, hplace⟩ (h a)
  · cases hplace : place p.mappings t (p.brk endAddress) (word (roundIncr incr)) with
    | error e =>
      rw [simpleMmap_error hplace] at hnull
      exact absurd rfl hnull
    | ok a => exact absurd ⟨Nat.le_of_not_lt hlow, hplace⟩ (h a)

/-- The break as it is left by a call that fails. -/
theorem brk_refused (endAddress : ℕ) (p : Process) :
    Process.brk endAddress { p with heapEnd := p.brk endAddress } = p.brk endAddress := by
  rw [Process.brk, Process.brk]
  split_ifs <;> simp_all

section

variable (hp : Good t p) (hend : endAddress < 2 ^ 32) (hincr : |incr| ≤ 2 ^ 30) {a : ℕ}
include hp hend hincr

theorem Accepted.pages_inUser (h : Accepted endAddress t incr p a) :
    0 < roundIncr incr ∧ word (roundIncr incr) = (roundIncr incr).toNat ∧ InUser a (roundIncr incr).toNat ∧
      (p.brk endAddress ≠ 0 → a = p.brk endAddress) ∧
      p.brk endAddress + (roundIncr incr).toNat < 2 ^ 32 := by
  obtain ⟨A, hA, hok⟩ := hp.reach.family
  have hword : word (roundIncr incr) < 2 ^ 32 := by
    rw [word]
    omega
  obtain ⟨huser, hat⟩ := place_inUser hA hp.tree (hok t hp.tree) (hp.brk hend).2 hword h.placed
  have hupper := huser.upper
  have hlower := huser.lower
  have hsize := huser.pos
  obtain ⟨hlow, hhigh⟩ := abs_le.mp hincr
  have hround : -2 ^ 30 ≤ roundIncr incr ∧ roundIncr incr ≤ 2 ^ 30 := by
    rcases lt_or_ge incr 0 with hneg | hnonneg
    · rw [roundIncr_of_neg hneg, pages]
      split_ifs <;> omega
    · rw [roundIncr_of_nonneg hnonneg, pages]
      omega
  -- a negative increment is a size that user memory does not have
  have hpos : 0 < roundIncr incr := by
    rw [word] at hupper hsize
    unfold userMemStart at hlower
    unfold sharedAddress at hupper
    omega
  have heq := word_of_nonneg (z := roundIncr incr) (by omega) (by omega)
  refine ⟨hpos, heq, heq ▸ huser, hat, ?_⟩
  unfold sharedAddress at hupper
  by_cases hzero : p.brk endAddress = 0
  · omega
  · have := hat hzero
    omega

theorem Accepted.sbrk_eq (h : Accepted endAddress t incr p a) :
    sbrk endAddress t incr p =
      (⟨p.brk endAddress + (roundIncr incr).toNat,
        (map p.mappings t (p.brk endAddress) (roundIncr incr).toNat none 0 0).1⟩, p.brk endAddress) ∧
    Process.brk endAddress (sbrk endAddress t incr p).1 = p.brk endAddress + (roundIncr incr).toNat := by
  obtain ⟨hpos, hword, huser, hat, hlt⟩ := h.pages_inUser hp hend hincr
  have hplaced := h.placed
  rw [hword] at hplaced
  obtain ⟨hmmap, ha⟩ := simpleMmap_ok hplaced huser
  have hsum : word (p.brk endAddress + roundIncr incr) = p.brk endAddress + (roundIncr incr).toNat := by
    rw [word_of_nonneg (by omega) (by omega)]
    omega
  have heq : sbrk endAddress t incr p = (⟨p.brk endAddress + (roundIncr incr).toNat,
      (map p.mappings t (p.brk endAddress) (roundIncr incr).toNat none 0 0).1⟩, p.brk endAddress) := by
    rw [sbrk, ← Process.brk]
    dsimp only
    rw [if_neg (Nat.not_lt.mpr h.below), hword, hmmap, if_neg ha, hsum]
  have hne : ¬ p.brk endAddress + (roundIncr incr).toNat = 0 := by omega
  refine ⟨heq, ?_⟩
  rw [heq]
  exact if_neg hne

/-- The state behind a call. -/
theorem Good.sbrk : Good t (sbrk endAddress t incr p).1 := by
  by_cases h : ∃ a, Accepted endAddress t incr p a
  · obtain ⟨a, h⟩ := h
    obtain ⟨-, -, huser, -, hlt⟩ := h.pages_inUser hp hend hincr
    obtain ⟨hreach, htree⟩ :=
      hp.mmap (hp.brk hend).2 (show (roundIncr incr).toNat < 2 ^ 32 by omega) none 0 0
    rw [(h.sbrk_eq hp hend hincr).1]
    refine ⟨hreach, htree, ?_, hlt⟩
    show (p.brk endAddress + (roundIncr incr).toNat) % frameSize = 0
    rw [Nat.add_mod, (hp.brk hend).1, huser.size_aligned]
    rfl
  · rw [sbrk_refused fun a ha => h ⟨a, ha⟩]
    exact ⟨hp.reach, hp.tree, (hp.brk hend).1, (hp.brk hend).2⟩

theorem Accepted.mapped_iff (h : Accepted endAddress t incr p a) :
    (∀ b, p.brk endAddress ≤ b → b < p.brk endAddress + (roundIncr incr).toNat →
      Mapped (entries (sbrk endAddress t incr p).1.mappings t) b) ↔ p.brk endAddress ≠ 0 := by
  obtain ⟨hpos, hword, huser, hat, -⟩ := h.pages_inUser hp hend hincr
  obtain ⟨A, hA, hok⟩ := hp.reach.family
  have hplaced := h.placed
  rw [hword] at hplaced
  constructor
  · intro hmapped hzero
    have hgood := hp.sbrk hend hincr
    obtain ⟨k, hk, e, he, hcovers⟩ := hmapped 0 (by omega) (by omega)
    have hlower := (hgood.reach.entriesOk hgood.tree k hk e he).lower
    have := hcovers.1
    unfold userMemStart at hlower
    omega
  · intro hzero b hle hlt
    obtain rfl := hat hzero
    have hbrk := (hp.brk hend).2
    have hkey := key_of_word huser.lower hbrk
    obtain ⟨hruns, htrees⟩ := map_runs hA hp.tree none 0 0 hplaced hkey
    have hk := (key_eq_some.mp hkey).2.2
    refine ⟨_, hk, ⟨p.brk endAddress, (roundIncr incr).toNat, none, 0, 0⟩, ?_, hle, hlt⟩
    rw [(h.sbrk_eq hp hend hincr).1]
    show entries (map p.mappings t (p.brk endAddress) (roundIncr incr).toNat none 0 0).1 t _ = _
    rw [entries_eq hruns (htrees ▸ hp.tree) hk, Function.update_self, Function.update_self]

end

theorem Reached.good (hend : endAddress < 2 ^ 32) (h : Reached endAddress t p) : Good t p := by
  induction h with
  | start h ht => exact ⟨h, ht, rfl, Nat.two_pow_pos 32⟩
  | sbrk _ hincr ih => exact ih.sbrk hend hincr
  | mmap _ haddress hsize file fileOffset fileSize ih =>
    obtain ⟨hreach, htree⟩ := ih.mmap haddress hsize file fileOffset fileSize
    exact ⟨hreach, htree, ih.aligned, ih.lt⟩
  | munmap _ haddress ih => exact ih.munmap haddress

/-- **`sbrk`.**  In every state of a process, a call moves the break as it should exactly if the
increment is not 0 and, should the kernel accept the pages, the increment is positive, the break is
not 0, and no mapping lies in the pages. -/
theorem sbrk_moves_iff (hend : endAddress < 2 ^ 32) (hp : Reached endAddress t p)
    (hincr : |incr| ≤ 2 ^ 30) :
    MovesBreak endAddress t incr p ↔ incr ≠ 0 ∧ ∀ a, Accepted endAddress t incr p a →
      0 < incr ∧ p.brk endAddress ≠ 0 ∧
      Free (entries p.mappings t) (p.brk endAddress) (pages incr).toNat := by
  have hgood := hp.good hend
  by_cases h : ∃ a, Accepted endAddress t incr p a
  · obtain ⟨a, h⟩ := h
    obtain ⟨heq, hbrk⟩ := h.sbrk_eq hgood hend hincr
    obtain ⟨hpos, -⟩ := h.pages_inUser hgood hend hincr
    have hmapped := h.mapped_iff hgood hend hincr
    have haligned : p.brk endAddress % 4096 = 0 := (hgood.brk hend).1
    have hret : (sbrk endAddress t incr p).2 = p.brk endAddress := by rw [heq]
    have hpages : roundIncr incr = pages incr ↔ 0 < incr := by
      have hrange := roundIncr_pos.mp hpos
      rcases lt_or_ge incr 0 with hneg | hnonneg
      · rw [roundIncr_of_neg hneg]
        split_ifs <;> omega
      · have := roundIncr_of_nonneg hnonneg
        omega
    rw [MovesBreak, hret, hbrk]
    constructor
    · rintro (⟨hfail, -⟩ | ⟨-, hmoved, hnew⟩)
      · omega
      · have hincr' := hpages.mp (by omega)
        have hround := hpages.mpr hincr'
        obtain ⟨hall, hfree⟩ := hnew (by omega)
        exact ⟨by omega, fun _ _ => ⟨hincr', hmapped.mp hall, hfree⟩⟩
    · rintro ⟨-, hcond⟩
      obtain ⟨hincr', hzero, hfree⟩ := hcond a h
      have hround := hpages.mpr hincr'
      exact .inr ⟨rfl, by omega, fun _ => ⟨hmapped.mpr hzero, hfree⟩⟩
  · have hnone : ∀ a, ¬ Accepted endAddress t incr p a := fun a ha => h ⟨a, ha⟩
    have haligned : p.brk endAddress % 4096 = 0 := (hgood.brk hend).1
    rw [MovesBreak, sbrk_refused hnone, brk_refused]
    constructor
    · rintro (⟨-, hne, -⟩ | ⟨hret, -⟩)
      · exact ⟨hne, fun a ha => absurd ha (hnone a)⟩
      · dsimp only at hret
        omega
    · exact fun hcond => .inl ⟨rfl, hcond.1, rfl⟩

/-- A program that ends at `0x80001000`, with no mapping behind it. -/
def fresh : Process := ⟨0, emptyMapping⟩

theorem reached_fresh : Reached 0x80001000 0 fresh := Reached.start Reach.start (by simp [emptyMapping])

theorem free_fresh (start size : ℕ) : Free (entries fresh.mappings 0) start size := by
  intro k hk e he
  have hempty : FamilyRuns params emptyMapping fun _ _ => none := FamilyRuns.start _
  have hnone : entries fresh.mappings 0 k = none := entries_eq hempty (by simp [emptyMapping]) hk
  rw [hnone] at he
  cases he

/-- Its first page of heap. -/
theorem sbrk_moves_first_page : Reached 0x80001000 0 fresh ∧ MovesBreak 0x80001000 0 1 fresh :=
  ⟨reached_fresh, (sbrk_moves_iff (by omega) reached_fresh (by decide)).mpr
    ⟨by omega, fun _ _ => ⟨by omega, by decide, free_fresh _ _⟩⟩⟩

/-- A call for 0 bytes fails, and a call for `-1` byte moves the break up by a page. -/
theorem sbrk_zero_fails : Reached 0x80001000 0 fresh ∧ (sbrk 0x80001000 0 0 fresh).2 = 2 ^ 32 - 1 ∧
    (sbrk 0x80001000 0 (-1) fresh).2 = 0x80001000 ∧
    Process.brk 0x80001000 (sbrk 0x80001000 0 (-1) fresh).1 = 0x80002000 := by
  have hrefused : ∀ a, ¬ Accepted 0x80001000 0 0 fresh a := fun a h => by
    have hplace : place fresh.mappings 0 0x80001000 0 = .error .EINVAL := by decide
    exact absurd (hplace.symm.trans h.placed) (by simp)
  have haccepted : Accepted 0x80001000 0 (-1) fresh 0x80001000 := ⟨by decide, by decide⟩
  have hgood := reached_fresh.good (by omega)
  obtain ⟨heq, hbrk⟩ := haccepted.sbrk_eq hgood (by omega) (by decide)
  refine ⟨reached_fresh, ?_, ?_, hbrk⟩
  · rw [sbrk_refused hrefused]
  · rw [heq]
    decide

end GheithOS.Libc
