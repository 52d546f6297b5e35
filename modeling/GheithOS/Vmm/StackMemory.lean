import GheithOS.Vmm.Copy
import GheithOS.Vmm.StackItems

/-!
# GheithOS.Vmm.StackMemory — the memory behind the initial stack

Reading through a directory, and what the pages of the stack are while `set_up_stack` works on a
directory fresh from `new_directory`.  `StackSpace` is what its writes keep: the page table of the
stack, once it exists, is a table of this directory alone, its pages are writable frames of their
own, and the frames that are left are enough for the pages that have none yet.  A page is added in
steps: a frame is taken (`takeData`), the directory gets a table if it has none (`newTable`), and
the page gets the frame (`putPage`).
-/

namespace GheithOS.Vmm

open Cow Lib Function
open MemoryMapping (userMemStart sharedAddress)

variable {c : Config} {G G' : Ghost} {s s' : Vm} {d t f a b R : ℕ} {i j : Index}

/-! ### Bytes and words of a frame -/

section Rows

variable (row : Row) {o o' : ℕ}

/-- The word at an offset. -/
def getWord (row : Row) (offset : ℕ) : Word := row (Fin.ofNat 1024 (offset / 4))

theorem ofNat_ne (ho : o < frameSize) (ho' : o' < frameSize) (h : o / 4 ≠ o' / 4) :
    (Fin.ofNat 1024 (o / 4) : Index) ≠ Fin.ofNat 1024 (o' / 4) := by
  unfold frameSize at ho ho'
  intro heq
  have hval := congrArg Fin.val heq
  simp only [Fin.val_ofNat] at hval
  omega

theorem getWord_putWord (w : Word) : getWord (putWord row o w) o = w := update_self _ _ _

theorem getWord_putWord_ne (w : Word) (ho : o < frameSize) (ho' : o' < frameSize) (h : o' / 4 ≠ o / 4) :
    getWord (putWord row o w) o' = getWord row o' := update_of_ne (ofNat_ne ho' ho h) _ _

theorem getWord_putByte_ne (b : BitVec 8) (ho : o < frameSize) (ho' : o' < frameSize) (h : o' / 4 ≠ o / 4) :
    getWord (putByte row o b) o' = getWord row o' := update_of_ne (ofNat_ne ho' ho h) _ _

theorem getByte_putWord_ne (w : Word) (ho : o < frameSize) (ho' : o' < frameSize)
    (h : o' / 4 ≠ o / 4) : getByte (putWord row o w) o' = getByte row o' := by
  rw [getByte, getByte, putWord, update_of_ne (ofNat_ne ho' ho h)]

theorem getLsbD_mask (n : ℕ) : (0xFF#32).getLsbD n = decide (n < 8) := by
  by_cases h : n < 32
  · interval_cases n <;> rfl
  · rw [BitVec.getLsbD_of_ge _ _ (by omega), eq_comm, decide_eq_false_iff_not]
    omega

theorem getByte_putByte (b : BitVec 8) : getByte (putByte row o b) o = b := by
  apply BitVec.eq_of_getLsbD_eq
  intro k hk
  have hbit : 8 * (o % 4) + k < 32 := by omega
  have hk32 : k < 32 := by omega
  rw [getByte, putByte, update_self]
  simp [hk, getLsbD_mask, hbit, hk32]

theorem getByte_putByte_ne (b : BitVec 8) (ho : o < frameSize) (ho' : o' < frameSize) (h : o' ≠ o) :
    getByte (putByte row o b) o' = getByte row o' := by
  by_cases hindex : o' / 4 = o / 4
  · have hshift : o' % 4 ≠ o % 4 := by omega
    apply BitVec.eq_of_getLsbD_eq
    intro k hk
    have hbit : 8 * (o' % 4) + k < 32 := by omega
    rw [getByte, getByte, putByte, hindex, update_self]
    -- the bit lies below the byte that is written, or above it
    rcases Nat.lt_or_gt_of_ne hshift with hlt | hgt
    · have hbelow : 8 * (o' % 4) + k < 8 * (o % 4) := by omega
      simp only [BitVec.getLsbD_setWidth, BitVec.getLsbD_ushiftRight, BitVec.getLsbD_or,
        BitVec.getLsbD_and, BitVec.getLsbD_not, BitVec.getLsbD_shiftLeft, getLsbD_mask]
      simp [hbit, hbelow]
    · have hnot : ¬ 8 * (o' % 4) + k < 8 * (o % 4) := by omega
      have habove : ¬ 8 * (o' % 4) + k - 8 * (o % 4) < 8 := by omega
      have hzero : b.getLsbD (8 * (o' % 4) + k - 8 * (o % 4)) = false := BitVec.getLsbD_of_ge _ _ (by omega)
      simp only [BitVec.getLsbD_setWidth, BitVec.getLsbD_ushiftRight, BitVec.getLsbD_or,
        BitVec.getLsbD_and, BitVec.getLsbD_not, BitVec.getLsbD_shiftLeft, getLsbD_mask]
      simp [hbit, hnot, habove, hzero]
  · rw [getByte, getByte, putByte, update_of_ne (ofNat_ne ho' ho hindex)]

end Rows

/-! ### Reading through a directory -/

/-- The frame that a directory has for an address. -/
def frameOf (s : Vm) (d a : ℕ) : Option ℕ :=
  (tgt (s.mem d (dirIndex (a / frameSize)))).bind fun t => tgt (s.mem t (tableIndex (a / frameSize)))

/-- A byte that is read through a directory, as the hardware walks it. -/
def readByte (s : Vm) (d a : ℕ) : Option (BitVec 8) :=
  match walk s d a false with
  | .ok f => some (getByte (s.mem f) (a % frameSize))
  | .error _ => none

/-- A word that is read at an aligned address. -/
def readWord (s : Vm) (d a : ℕ) : Option Word :=
  match walk s d a false with
  | .ok f => some (getWord (s.mem f) (a % frameSize))
  | .error _ => none

theorem walk_eq_ok : walk s d a false = .ok f ↔ frameOf s d a = some f := by
  unfold walk frameOf
  cases hd : tgt (s.mem d (dirIndex (a / frameSize))) with
  | none => simp [hd]
  | some t => cases ht : tgt (s.mem t (tableIndex (a / frameSize))) <;> simp [hd, ht]

theorem readByte_of_frame (h : frameOf s d a = some f) :
    readByte s d a = some (getByte (s.mem f) (a % frameSize)) := by
  rw [readByte, walk_eq_ok.mpr h]

theorem readWord_of_frame (h : frameOf s d a = some f) :
    readWord s d a = some (getWord (s.mem f) (a % frameSize)) := by
  rw [readWord, walk_eq_ok.mpr h]

theorem frame_of_readByte {x : BitVec 8} (h : readByte s d a = some x) : ∃ f, frameOf s d a = some f := by
  unfold readByte at h
  split at h
  · exact ⟨_, walk_eq_ok.mp ‹_›⟩
  · cases h

theorem frame_of_readWord {x : Word} (h : readWord s d a = some x) : ∃ f, frameOf s d a = some f := by
  unfold readWord at h
  split at h
  · exact ⟨_, walk_eq_ok.mp ‹_›⟩
  · cases h

/-! ### The region of the stack -/

/-- The entry of a directory for the stack. -/
def stackDir : Index := 959

def InRegion (a : ℕ) : Prop := userStackEnd ≤ a ∧ a < userStackStart

theorem InRegion.dirIndex (h : InRegion a) : dirIndex (a / frameSize) = stackDir := by
  have hend : userStackEnd = 0xEFF00000 := rfl
  have hstart : userStackStart = 0xF0000000 := rfl
  obtain ⟨hlow, hhigh⟩ := h
  have hpage : a / frameSize / 1024 = 959 := by
    unfold frameSize
    omega
  rw [Vmm.dirIndex, hpage]
  rfl

theorem InRegion.tableIndex (h : InRegion a) : 768 ≤ (tableIndex (a / frameSize)).val := by
  have hend : userStackEnd = 0xEFF00000 := rfl
  have hstart : userStackStart = 0xF0000000 := rfl
  obtain ⟨hlow, hhigh⟩ := h
  rw [Vmm.tableIndex, Fin.val_ofNat]
  unfold frameSize
  omega

/-- Pages of the stack have entries of their own. -/
theorem InRegion.page_eq (ha : InRegion a) (hb : InRegion b)
    (h : Vmm.tableIndex (a / frameSize) = Vmm.tableIndex (b / frameSize)) :
    a / frameSize = b / frameSize := by
  have hend : userStackEnd = 0xEFF00000 := rfl
  have hstart : userStackStart = 0xF0000000 := rfl
  obtain ⟨halow, hahigh⟩ := ha
  obtain ⟨hblow, hbhigh⟩ := hb
  have hval := congrArg Fin.val h
  rw [Vmm.tableIndex, Vmm.tableIndex, Fin.val_ofNat, Fin.val_ofNat] at hval
  unfold frameSize at hval ⊢
  omega

theorem stackDir_isUser : isUser stackDir = true := by decide

theorem InRegion.frameOf (h : InRegion a) :
    frameOf s d a = (tgt (s.mem d stackDir)).bind fun t =>
      tgt (s.mem t (Vmm.tableIndex (a / frameSize))) := by
  rw [Vmm.frameOf, h.dirIndex]

/-! ### The frames that are left -/

/-- The frames that `alloc_frame` can still give. -/
def framesLeft (G : Ghost) (s : Vm) : ℕ := G.free.length + (s.limit - s.avail)

theorem Chain.nil_of_none {mem : ℕ → Row} {l : List ℕ} (h : Chain mem none l) : l = [] := by
  cases l with
  | nil => rfl
  | cons _ _ => exact h.elim

/-- What `alloc_frame` gives. -/
structure Granted (c : Config) (G : Ghost) (s : Vm) (f : ℕ) (s' : Vm) : Prop where
  pool : Pool c (G.take f) s'
  kind : G.kind f = .free ∨ G.kind f = .out
  row : s'.mem f = fun _ => 0#32
  rows : ∀ n, n ≠ f → s'.mem n = s.mem n
  lt : f < frameLimit
  pool_le : c.pool ≤ f
  left : framesLeft (G.take f) s' + 1 = framesLeft G s

/-- **`alloc_frame`** gives one of the frames that are left, or there is none. -/
theorem allocFrame_left (H : Pool c G s) :
    (∃ f s', allocFrame s = .ok (f, s') ∧ Granted c G s f s') ∨
      allocFrame s = .error .noMoreFrames ∧ framesLeft G s = 0 := by
  have hle := H.avail_le
  have hlim := H.limit_le
  rcases allocFrame_cases s with ⟨f, hf, h⟩ | ⟨-, hl, h⟩ | h
  · have hmem : f ∈ G.free := H.chain.head_mem f hf
    have hkind := (H.free_iff f).mp hmem
    have hlength := List.length_erase_of_mem hmem
    have hpos := List.length_pos_of_mem hmem
    refine .inl ⟨f, _, h, H.alloc_head hf, .inl hkind, setRow_self _ _ _, fun n hn => setRow_of_ne hn,
      H.lt_limit (by simp [hkind]), (H.range f (by simp [hkind])).1, ?_⟩
    show (G.free.erase f).length + (s.limit - s.avail) + 1 = G.free.length + (s.limit - s.avail)
    omega
  · have hout : s.avail ∉ G.free := by
      rw [H.free_iff, H.kind_avail]
      simp
    refine .inl ⟨_, _, h, H.alloc_next hl, .inr H.kind_avail, setRow_self _ _ _,
      fun n hn => setRow_of_ne hn, by omega, H.pool_le, ?_⟩
    show (G.free.erase s.avail).length + (s.limit - (s.avail + 1)) + 1 = G.free.length + (s.limit - s.avail)
    rw [List.erase_of_not_mem hout]
    omega
  · refine .inr ⟨h, ?_⟩
    unfold allocFrame at h
    split at h
    · cases h
    · rename_i hnone
      split_ifs at h with hl
      have hfree := Chain.nil_of_none (hnone ▸ H.chain)
      rw [framesLeft, hfree, hl]
      simp

namespace Granted

variable {n : ℕ} {k : Kind}

theorem ne (T : Granted c G s f s') (hn : G.kind n = k) (hk : k ≠ .free ∧ k ≠ .out) : n ≠ f := by
  rintro rfl
  exact T.kind.elim (hn ▸ hk.1) (hn ▸ hk.2)

theorem row_eq (T : Granted c G s f s') (hn : G.kind n = k) (hk : k ≠ .free ∧ k ≠ .out) :
    s'.mem n = s.mem n :=
  T.rows n (T.ne hn hk)

theorem kind_eq {k' : Kind} (T : Granted c G s f s') (hn : G.kind n = k) (hk : k ≠ .free ∧ k ≠ .out) :
    ((G.take f).setKind f k').kind n = k := by
  rw [setKind_of_ne (T.ne hn hk), take_kind (T.ne hn hk), hn]

theorem use (T : Granted c G s f s') (hk : k ≠ .free) : Pool c ((G.take f).setKind f k) s' :=
  T.pool.setKind (by simp) (by simp) hk

end Granted

/-- The allocator does not see what the other frames hold. -/
theorem Pool.setRow {row : Row} (H : Pool c G s) (hf : G.kind f ≠ .free) : Pool c G (s.setRow f row) :=
  { H with
    chain := H.chain.congr fun n hn => setRow_of_ne fun heq => hf (heq ▸ (H.free_iff n).mp hn) }

theorem Pool.setWord {w : Word} (H : Pool c G s) (hf : G.kind f ≠ .free) : Pool c G (s.setWord f i w) :=
  { H with
    chain := H.chain.congr fun n hn => setWord_row fun heq => hf (heq ▸ (H.free_iff n).mp hn) }

/-! ### The pages of the stack -/

/-- The flags of the entries of the stack. -/
def stackFlags : Word := flagPr ||| flagUs ||| flagRw

theorem tgt_stackEntry (hf : f < frameLimit) : tgt (frameAddr f ||| stackFlags) = some f :=
  tgt_frame_flags hf (by decide) (by decide)

theorem isRw_stackEntry (hf : f < frameLimit) : isRw (frameAddr f ||| stackFlags) = true := by
  rw [isRw_frame_flags hf]
  decide

/-- The first entry of the table for the stack. -/
def stackPte : Index := ⟨768, by omega⟩

/-- The pages of the stack that have a frame. -/
def pagesIn (s : Vm) (t : ℕ) : Finset Index := (Finset.Ici stackPte).filter fun j => tgt (s.mem t j) ≠ none

/-- The frames that the table and the pages of the stack have taken. -/
def framesUsed (s : Vm) (d : ℕ) : ℕ := (tgt (s.mem d stackDir)).elim 0 fun t => 1 + (pagesIn s t).card

/-- **The stack of a new directory**, of which `R` frames are taken or can be. -/
structure StackSpace (c : Config) (d R : ℕ) (G : Ghost) (s : Vm) : Prop where
  pool : Pool c G s
  dir : G.kind d = .dir
  pde : tgt (s.mem d stackDir) = none ∨ isRw (s.mem d stackDir) = true
  table : ∀ t, tgt (s.mem d stackDir) = some t → G.kind t = .table
  pte : ∀ t j f, tgt (s.mem d stackDir) = some t → tgt (s.mem t j) = some f → G.kind f = .data
  apart : ∀ t j j' f, tgt (s.mem d stackDir) = some t → tgt (s.mem t j) = some f →
      tgt (s.mem t j') = some f → j = j'
  room : R ≤ framesLeft G s + framesUsed s d

/-- The frames of the stack stay, with what they hold. -/
def Grown (d : ℕ) (s s' : Vm) : Prop :=
  ∀ a f, InRegion a → frameOf s d a = some f → frameOf s' d a = some f ∧ s'.mem f = s.mem f

/-- A frame of data that no page of the stack has. -/
structure Spare (G : Ghost) (s : Vm) (d f : ℕ) : Prop where
  kind : G.kind f = .data
  unused : ∀ t j, tgt (s.mem d stackDir) = some t → tgt (s.mem t j) ≠ some f
  lt : f < frameLimit

theorem Grown.refl (d : ℕ) (s : Vm) : Grown d s s := fun _ _ _ h => ⟨h, rfl⟩

theorem Grown.trans {s'' : Vm} (h : Grown d s s') (h' : Grown d s' s'') :
    Grown d s s'' := fun a f ha hf => by
  obtain ⟨hf', hrow⟩ := h a f ha hf
  obtain ⟨hf'', hrow'⟩ := h' a f ha hf'
  exact ⟨hf'', hrow'.trans hrow⟩

namespace StackSpace

theorem data (h : StackSpace c d R G s) (ha : InRegion a) (hf : frameOf s d a = some f) :
    ∃ t, tgt (s.mem d stackDir) = some t ∧ tgt (s.mem t (tableIndex (a / frameSize))) = some f ∧
      G.kind f = .data := by
  rw [ha.frameOf] at hf
  obtain ⟨t, ht, hpte⟩ := Option.bind_eq_some_iff.mp hf
  exact ⟨t, ht, hpte, h.pte t _ f ht hpte⟩

theorem frame_ne_zero (h : StackSpace c d R G s) (ha : InRegion a) (hf : frameOf s d a = some f) :
    f ≠ 0 := by
  obtain ⟨-, -, -, hk⟩ := h.data ha hf
  have hrange := h.pool.range f (by simp [hk])
  have hzero := h.pool.zero_lt
  omega

/-- Pages do not share frames. -/
theorem page_eq (h : StackSpace c d R G s) (ha : InRegion a) (hb : InRegion b)
    (hfa : frameOf s d a = some f) (hfb : frameOf s d b = some f) :
    a / frameSize = b / frameSize := by
  obtain ⟨t, ht, hpte, -⟩ := h.data ha hfa
  obtain ⟨t', ht', hpte', -⟩ := h.data hb hfb
  obtain rfl := Option.some.inj (ht.symm.trans ht')
  exact ha.page_eq hb (h.apart t _ _ f ht hpte hpte')

theorem framesUsed_le (ha : InRegion a) (hnone : frameOf s d a = none) : framesUsed s d ≤ 256 := by
  rw [ha.frameOf] at hnone
  unfold framesUsed
  cases ht : tgt (s.mem d stackDir) with
  | none => simp
  | some t =>
    rw [ht, Option.bind_some] at hnone
    have hmem : tableIndex (a / frameSize) ∈ Finset.Ici stackPte :=
      Finset.mem_Ici.mpr (Fin.le_def.mpr ha.tableIndex)
    have hsub : pagesIn s t ⊆ (Finset.Ici stackPte).erase (tableIndex (a / frameSize)) := by
      intro j hj
      obtain ⟨hj, hpresent⟩ := Finset.mem_filter.mp hj
      refine Finset.mem_erase.mpr ⟨?_, hj⟩
      rintro rfl
      exact hpresent hnone
    have hcard := Finset.card_le_card hsub
    have hpages : (Finset.Ici stackPte).card = 256 := Fin.card_Ici stackPte
    rw [Finset.card_erase_of_mem hmem, hpages] at hcard
    rw [Option.elim_some]
    omega

/-- The frames depend on the entries of the directory and of its table. -/
theorem frameOf_congr (h : StackSpace c d R G s) (hd : s'.mem d stackDir = s.mem d stackDir)
    (ht : ∀ t, G.kind t = .table → s'.mem t = s.mem t) (ha : InRegion a) :
    frameOf s' d a = frameOf s d a := by
  rw [ha.frameOf, ha.frameOf, hd]
  cases htgt : tgt (s.mem d stackDir) with
  | none => rfl
  | some t => rw [Option.bind_some, Option.bind_some, ht t (h.table t htgt)]

theorem framesUsed_congr (h : StackSpace c d R G s) (hd : s'.mem d stackDir = s.mem d stackDir)
    (ht : ∀ t, G.kind t = .table → s'.mem t = s.mem t) : framesUsed s' d = framesUsed s d := by
  rw [framesUsed, framesUsed, hd]
  cases htgt : tgt (s.mem d stackDir) with
  | none => rfl
  | some t => rw [Option.elim_some, Option.elim_some, pagesIn, pagesIn, ht t (h.table t htgt)]

/-- **The directory and its table are as they were**: so is the stack. -/
theorem congr (h : StackSpace c d R G s) {R' : ℕ} (hpool : Pool c G' s') (hd : s'.mem d = s.mem d)
    (ht : ∀ t, G.kind t = .table → s'.mem t = s.mem t)
    (hk : ∀ n, G.kind n = .dir ∨ G.kind n = .table ∨ G.kind n = .data → G'.kind n = G.kind n)
    (hroom : R' ≤ framesLeft G' s' + framesUsed s d) : StackSpace c d R' G' s' where
  pool := hpool
  dir := by
    rw [hk d (.inl h.dir)]
    exact h.dir
  pde := by
    rw [hd]
    exact h.pde
  table t htgt := by
    rw [hd] at htgt
    have hkind := h.table t htgt
    rw [hk t (.inr (.inl hkind)), hkind]
  pte t j f htgt hf := by
    rw [hd] at htgt
    rw [ht t (h.table t htgt)] at hf
    have hkind := h.pte t j f htgt hf
    rw [hk f (.inr (.inr hkind)), hkind]
  apart t j j' f htgt hj hj' := by
    rw [hd] at htgt
    rw [ht t (h.table t htgt)] at hj hj'
    exact h.apart t j j' f htgt hj hj'
  room := by
    rw [h.framesUsed_congr (congrFun hd _) ht]
    exact hroom

/-- **A frame is taken** for a page. -/
theorem takeData (h : StackSpace c d R G s) (T : Granted c G s f s') :
    StackSpace c d (R - 1) ((G.take f).setKind f .data) s' ∧ Spare ((G.take f).setKind f .data) s' d f ∧
      Grown d s s' ∧ s'.mem d = s.mem d := by
  have hdir : s'.mem d = s.mem d := T.row_eq h.dir (by simp)
  have htable : ∀ t, G.kind t = .table → s'.mem t = s.mem t := fun t ht => T.row_eq ht (by simp)
  refine ⟨h.congr (T.use (by simp)) hdir htable (fun n hn => T.kind_eq rfl ?_) ?_,
    ⟨setKind_self _ _ _, ?_, T.lt⟩, fun a g ha hg => ?_, hdir⟩
  · rcases hn with hn | hn | hn <;> simp [hn]
  · have hroom := h.room
    have hleft := T.left
    show R - 1 ≤ framesLeft (G.take f) s' + framesUsed s d
    omega
  · intro t j ht hj
    rw [hdir] at ht
    rw [htable t (h.table t ht)] at hj
    have hk := h.pte t j f ht hj
    exact T.ne hk (by simp) rfl
  · obtain ⟨-, -, -, hk⟩ := h.data ha hg
    rw [h.frameOf_congr (congrFun hdir _) htable ha]
    exact ⟨hg, T.row_eq hk (by simp)⟩

/-- One page more. -/
theorem pagesIn_setWord (ha : InRegion a) (hf : f < frameLimit) :
    pagesIn (s.setWord t (tableIndex (a / frameSize)) (frameAddr f ||| stackFlags)) t =
      insert (tableIndex (a / frameSize)) (pagesIn s t) := by
  ext j
  simp only [pagesIn, Finset.mem_filter, Finset.mem_insert]
  by_cases hj : j = tableIndex (a / frameSize)
  · subst hj
    have hmem : tableIndex (a / frameSize) ∈ Finset.Ici stackPte :=
      Finset.mem_Ici.mpr (Fin.le_def.mpr ha.tableIndex)
    simp [hmem, tgt_stackEntry hf]
  · rw [setWord_of_ne (.inr hj)]
    simp [hj]

/-- **A page gets the frame.** -/
theorem putPage (h : StackSpace c d (R - 1) G s) (ha : InRegion a) (ht : tgt (s.mem d stackDir) = some t)
    (hnone : tgt (s.mem t (tableIndex (a / frameSize))) = none) (hf : Spare G s d f) :
    StackSpace c d R G (s.setWord t (tableIndex (a / frameSize)) (frameAddr f ||| stackFlags)) ∧
    frameOf (s.setWord t (tableIndex (a / frameSize)) (frameAddr f ||| stackFlags)) d a = some f ∧
    Grown d s (s.setWord t (tableIndex (a / frameSize)) (frameAddr f ||| stackFlags)) := by
  have hk := h.table t ht
  have hdt : d ≠ t := by
    rintro rfl
    rw [h.dir] at hk
    cases hk
  have hdir : (s.setWord t (tableIndex (a / frameSize)) (frameAddr f ||| stackFlags)).mem d =
      s.mem d := setWord_row hdt
  have htgt := tgt_stackEntry hf.lt
  -- an entry of the table is the new one or one from before
  have hentry : ∀ j g, tgt
      ((s.setWord t (tableIndex (a / frameSize)) (frameAddr f ||| stackFlags)).mem t j) = some g →
      j = tableIndex (a / frameSize) ∧ g = f ∨ tgt (s.mem t j) = some g ∧ g ≠ f := by
    intro j g hg
    by_cases hj : j = tableIndex (a / frameSize)
    · rw [hj, setWord_self, htgt] at hg
      exact .inl ⟨hj, (Option.some.inj hg).symm⟩
    · rw [setWord_of_ne (.inr hj)] at hg
      refine .inr ⟨hg, ?_⟩
      rintro rfl
      exact hf.unused t j ht hg
  refine ⟨⟨h.pool.setWord (by simp [hk]), h.dir, ?_, ?_, ?_, ?_, ?_⟩, ?_, fun b g hb hg => ?_⟩
  · rw [hdir]
    exact h.pde
  · rw [hdir]
    exact h.table
  · intro t' j g ht' hg
    rw [hdir] at ht'
    obtain rfl := Option.some.inj (ht.symm.trans ht')
    rcases hentry j g hg with ⟨-, rfl⟩ | ⟨hg, -⟩
    · exact hf.kind
    · exact h.pte t j g ht hg
  · intro t' j j' g ht' hg hg'
    rw [hdir] at ht'
    obtain rfl := Option.some.inj (ht.symm.trans ht')
    rcases hentry j g hg with ⟨rfl, rfl⟩ | ⟨hg, hne⟩ <;>
        rcases hentry j' g hg' with ⟨rfl, hgf⟩ | ⟨hg', hne'⟩
    · rfl
    · exact absurd rfl hne'
    · exact absurd hgf hne
    · exact h.apart t j j' g ht hg hg'
  · -- one page more, and one frame less in hand
    have hroom := h.room
    rw [framesUsed, ht, Option.elim_some] at hroom
    rw [framesUsed, hdir, ht, Option.elim_some, pagesIn_setWord ha hf.lt,
      Finset.card_insert_of_notMem (by simp [pagesIn, hnone])]
    show R ≤ framesLeft G s + _
    omega
  · rw [ha.frameOf, hdir, ht, Option.bind_some, setWord_self]
    exact htgt
  · obtain ⟨t', ht', hpte, hdata⟩ := h.data hb hg
    obtain rfl := Option.some.inj (ht.symm.trans ht')
    have hj : tableIndex (b / frameSize) ≠ tableIndex (a / frameSize) := by
      intro heq
      rw [heq, hnone] at hpte
      cases hpte
    refine ⟨?_, setWord_row ?_⟩
    · rw [hb.frameOf, hdir, ht, Option.bind_some, setWord_of_ne (.inr hj)]
      exact hpte
    · rintro rfl
      rw [hk] at hdata
      cases hdata

/-- **The directory gets a table** for the stack. -/
theorem newTable (h : StackSpace c d R G s) (hnone : tgt (s.mem d stackDir) = none)
    (hf : Spare G s d f) (T : Granted c G s t s') :
    StackSpace c d R ((G.take t).setKind t .table) (s'.setWord d stackDir (frameAddr t ||| stackFlags)) ∧
    tgt ((s'.setWord d stackDir (frameAddr t ||| stackFlags)).mem d stackDir) = some t ∧
    (∀ j, tgt ((s'.setWord d stackDir (frameAddr t ||| stackFlags)).mem t j) = none) ∧
    Spare ((G.take t).setKind t .table) (s'.setWord d stackDir (frameAddr t ||| stackFlags)) d f := by
  have hdt : d ≠ t := T.ne h.dir (by simp)
  have hkd : ((G.take t).setKind t .table).kind d = .dir := T.kind_eq h.dir (by simp)
  have hkf : ((G.take t).setKind t .table).kind f = .data := T.kind_eq hf.kind (by simp)
  have htgt := tgt_stackEntry T.lt
  have hself : tgt ((s'.setWord d stackDir (frameAddr t ||| stackFlags)).mem d stackDir) = some t := by
    rw [setWord_self, htgt]
  -- the table is the new one, and empty
  have hempty : ∀ t' j,
      tgt ((s'.setWord d stackDir (frameAddr t ||| stackFlags)).mem d stackDir) = some t' →
      tgt ((s'.setWord d stackDir (frameAddr t ||| stackFlags)).mem t' j) = none := by
    intro t' j ht'
    obtain rfl := Option.some.inj (hself.symm.trans ht')
    rw [setWord_row (Ne.symm hdt), T.row]
    exact tgt_zero
  refine ⟨⟨(T.use (by simp)).setWord (by simp [hkd]), hkd, ?_, ?_, ?_, ?_, ?_⟩, hself,
    fun j => hempty t j hself, ⟨hkf, ?_, hf.lt⟩⟩
  · rw [setWord_self]
    exact .inr (isRw_stackEntry T.lt)
  · intro t' ht'
    obtain rfl := Option.some.inj (hself.symm.trans ht')
    exact setKind_self _ _ _
  · intro t' j g ht' hg
    rw [hempty t' j ht'] at hg
    cases hg
  · intro t' j j' g ht' hg
    rw [hempty t' j ht'] at hg
    cases hg
  · have hroom := h.room
    have hleft := T.left
    rw [framesUsed, hnone, Option.elim_none] at hroom
    rw [framesUsed, hself, Option.elim_some]
    show R ≤ framesLeft (G.take t) s' + _
    omega
  · intro t' j ht' hg
    rw [hempty t' j ht'] at hg
    cases hg

end StackSpace

end GheithOS.Vmm
