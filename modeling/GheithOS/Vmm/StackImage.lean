import GheithOS.Vmm.StackMemory

/-!
# GheithOS.Vmm.StackImage — the initial stack reads back as the arguments

A write with a cursor changes the bytes at its address and no others (`writeStackData_spec`), so the
words and the characters of the items are read back (`writeItems_spec`).  `StackImage` is what a new
program finds on its stack, and `stack_reads_back` that it finds it.
-/

namespace GheithOS.Vmm

open Cow Lib
open MemoryMapping (userMemStart sharedAddress)

variable {c : Config} {G : Ghost} {s s' : Vm} {d t f a b R : ℕ} {cur p q : Cursor}

/-- The kernel's panic for want of memory, which it has reason for. -/
def Exhausted (enough left : ℕ) (e : Stop) : Prop := e = .noMoreFrames ∧ left < enough

/-! ### Finding the frame -/

theorem getPageTable_eq {page : ℕ}
    (h : tgt (s.mem d (dirIndex page)) = none ∨ isRw (s.mem d (dirIndex page)) = true) :
    getPageTable page d s = .ok (tgt (s.mem d (dirIndex page)), s) := by
  rw [getPageTable, getPageDirectoryEntry, bind_assoc, bind_of_eq (copy_of_idle h)]
  rfl

variable {w : Word}

theorem mapAddress_of_table (h : isRw (s.mem d (dirIndex (a / frameSize))) = true)
    (ht : tgt (s.mem d (dirIndex (a / frameSize))) = some t) (hf : f < frameLimit) :
    mapAddress a (frameAddr f) w d s =
      .ok ((), s.setWord t (tableIndex (a / frameSize)) (frameAddr f ||| w)) := by
  have hmask : frameAddr f &&& pgNumMask = frameAddr f := by rw [and_pgNumMask, pageNumber_frameAddr hf]
  have htable : tableFor (a / frameSize) w d s = .ok (t, s) := by
    rw [tableFor, bind_of_eq (getPageTable_eq (.inr h)), ht]
    rfl
  rw [mapAddress, bind_of_eq htable, hmask]
  rfl

theorem mapAddress_of_none (h : tgt (s.mem d (dirIndex (a / frameSize))) = none)
    (hf : f < frameLimit) (halloc : allocFrame s = .ok (t, s')) (hrow : s'.mem d = s.mem d) :
    mapAddress a (frameAddr f) w d s =
      .ok ((), (s'.setWord d (dirIndex (a / frameSize)) (frameAddr t ||| w)).setWord t
        (tableIndex (a / frameSize)) (frameAddr f ||| w)) := by
  have hmask : frameAddr f &&& pgNumMask = frameAddr f := by rw [and_pgNumMask, pageNumber_frameAddr hf]
  have hset : setPageTable (a / frameSize) t w d s' =
      .ok ((), s'.setWord d (dirIndex (a / frameSize)) (frameAddr t ||| w)) := by
    rw [setPageTable, getPageDirectoryEntry, bind_assoc, bind_of_eq (copy_of_idle (.inl (hrow ▸ h)))]
    rfl
  have htable : tableFor (a / frameSize) w d s =
      .ok (t, s'.setWord d (dirIndex (a / frameSize)) (frameAddr t ||| w)) := by
    rw [tableFor, bind_of_eq (getPageTable_eq (.inl h)), h]
    show (allocFrame >>= fun t => setPageTable (a / frameSize) t w d >>= fun _ => pure t) s = _
    rw [bind_of_eq halloc, bind_of_eq hset]
    rfl
  rw [mapAddress, bind_of_eq htable, hmask]
  rfl

theorem mapAddress_error (h : tgt (s.mem d (dirIndex (a / frameSize))) = none) (x : Word) {e : Stop}
    (halloc : allocFrame s = .error e) : mapAddress a x w d s = .error e := by
  have htable : tableFor (a / frameSize) w d s = .error e := by
    rw [tableFor, bind_of_eq (getPageTable_eq (.inl h)), h]
    show (allocFrame >>= fun t => setPageTable (a / frameSize) t w d >>= fun _ => pure t) s = _
    rw [bind_of_error halloc]
  rw [mapAddress, bind_of_error htable]

theorem stackBlock_eq
    (h : tgt (s.mem d (dirIndex (a / frameSize))) = none ∨
      isRw (s.mem d (dirIndex (a / frameSize))) = true) :
    stackBlock a d s = if (frameOf s d a).getD 0 = 0 then
        (do
          let f ← allocFrame
          mapAddress a (frameAddr f) stackFlags d
          return f : Code ℕ) s
      else .ok ((frameOf s d a).getD 0, s) := by
  rw [stackBlock, bind_of_eq (getPageTable_eq h), frameOf]
  cases ht : tgt (s.mem d (dirIndex (a / frameSize))) with
  | none => rfl
  | some t =>
    rw [Option.bind_some, tgt]
    show (load t (tableIndex (a / frameSize)) >>= _) s = _
    rw [bind_of_eq (show load t (tableIndex (a / frameSize)) s =
      .ok (s.mem t (tableIndex (a / frameSize)), s) from rfl)]
    cases hp : isPresent (s.mem t (tableIndex (a / frameSize))) with
    | false => rfl
    | true =>
      by_cases hzero : pageNumber (s.mem t (tableIndex (a / frameSize))) = 0
      · simp [hzero]
        rfl
      · simp [hzero]
        rfl

/-- **The frame of an address of the stack** is found, or made, or there is reason to panic. -/
theorem stackBlock_spec (h : StackSpace c d R G s) (ha : InRegion a) :
    Ends (Exhausted 257 R) (stackBlock a d) s fun f s' =>
      ∃ G', StackSpace c d R G' s' ∧ frameOf s' d a = some f ∧ Grown d s s' := by
  have hidle := h.pde
  rw [← ha.dirIndex] at hidle
  unfold Ends
  rw [stackBlock_eq hidle]
  cases hframe : frameOf s d a with
  | some f =>
    rw [Option.getD_some, if_neg (h.frame_ne_zero ha hframe)]
    exact ⟨G, h, hframe, Grown.refl d s⟩
  | none =>
    rw [Option.getD_none, if_pos rfl]
    have hused := StackSpace.framesUsed_le ha hframe
    have hroom := h.room
    rcases allocFrame_left h.pool with ⟨f, s₁, halloc, T⟩ | ⟨halloc, hleft⟩
    · rw [bind_of_eq halloc]
      obtain ⟨h₁, hspare, hgrown, hdir⟩ := h.takeData T
      cases ht : tgt (s.mem d stackDir) with
      | some t =>
        -- the table has no entry for the page
        have ht₁ : tgt (s₁.mem d stackDir) = some t := by rw [hdir, ht]
        have hrw : isRw (s₁.mem d stackDir) = true := by
          rw [hdir]
          exact h.pde.resolve_left (by simp [ht])
        have hrow : s₁.mem t = s.mem t := T.row_eq (h.table t ht) (by simp)
        have hnone : tgt (s₁.mem t (tableIndex (a / frameSize))) = none := by
          rw [hrow]
          rwa [ha.frameOf, ht, Option.bind_some] at hframe
        have hmap := mapAddress_of_table (a := a) (w := stackFlags)
          (by rw [ha.dirIndex]; exact hrw) (by rw [ha.dirIndex]; exact ht₁)
          hspare.lt
        rw [bind_of_eq hmap]
        obtain ⟨h₂, hframe₂, hgrown₂⟩ := h₁.putPage ha ht₁ hnone hspare
        exact ⟨_, h₂, hframe₂, hgrown.trans hgrown₂⟩
      | none =>
        have hnone : tgt (s₁.mem d stackDir) = none := by rw [hdir, ht]
        have hnone' : tgt (s₁.mem d (dirIndex (a / frameSize))) = none := by rw [ha.dirIndex, hnone]
        rcases allocFrame_left h₁.pool with ⟨t, s₂, halloc₂, T₂⟩ | ⟨halloc₂, hleft₂⟩
        · have hdir₂ : s₂.mem d = s₁.mem d := T₂.row_eq h₁.dir (by simp)
          rw [bind_of_eq (mapAddress_of_none hnone' hspare.lt halloc₂ hdir₂), ha.dirIndex]
          obtain ⟨h₃, ht₃, hempty, hspare₃⟩ := h₁.newTable hnone hspare T₂
          obtain ⟨h₄, hframe₄, -⟩ := h₃.putPage ha ht₃ (hempty _) hspare₃
          refine ⟨_, h₄, hframe₄, fun b g hb hg => ?_⟩
          rw [hb.frameOf, ht, Option.bind_none] at hg
          cases hg
        · rw [bind_of_error (mapAddress_error hnone' _ halloc₂)]
          have hroom₁ := h₁.room
          rw [framesUsed, hnone, Option.elim_none] at hroom₁
          exact ⟨rfl, by omega⟩
    · rw [bind_of_error halloc]
      exact ⟨rfl, by omega⟩

theorem frameOf_page (h : a / frameSize = b / frameSize) : frameOf s d a = frameOf s d b := by
  rw [frameOf, frameOf, h]

/-- The frame that a cursor has is that of its address, unless it is to be looked for. -/
def CursorOk (s : Vm) (d : ℕ) (cur : Cursor) : Prop :=
  cur.currentBlock = 0 ∨ cur.address % frameSize = 0 ∨ frameOf s d cur.address = some cur.currentBlock

theorem cursorBlock_spec (h : StackSpace c d R G s) (ha : InRegion cur.address) (hcur : CursorOk s d cur) :
    Ends (Exhausted 257 R) (cursorBlock d cur) s fun f s' =>
      ∃ G', StackSpace c d R G' s' ∧ frameOf s' d cur.address = some f ∧ Grown d s s' := by
  unfold cursorBlock
  split_ifs with hlook
  · exact stackBlock_spec h ha
  · refine ends_pure ⟨G, h, ?_, Grown.refl d s⟩
    exact (hcur.resolve_left fun h0 => hlook (.inl h0)).resolve_left fun h0 => hlook (.inr h0)

/-! ### Writing -/

/-- A frame of the stack is written: the pages stay where they are. -/
theorem StackSpace.setRow (h : StackSpace c d R G s) (ha : InRegion a) (hf : frameOf s d a = some f)
    (row : Row) :
    StackSpace c d R G (s.setRow f row) ∧ ∀ b, InRegion b →
      frameOf (s.setRow f row) d b = frameOf s d b := by
  obtain ⟨-, -, -, hk⟩ := h.data ha hf
  have hdir : (s.setRow f row).mem d = s.mem d := setRow_of_ne fun heq => by
    have := h.dir
    rw [heq, hk] at this
    cases this
  have htable : ∀ t, G.kind t = .table → (s.setRow f row).mem t = s.mem t :=
    fun t' ht' => setRow_of_ne fun heq => by
    rw [heq, hk] at ht'
    cases ht'
  exact ⟨h.congr (h.pool.setRow (by simp [hk])) hdir htable (fun _ _ => rfl) h.room,
    fun b hb => h.frameOf_congr (congrFun hdir _) htable hb⟩

/-- What a write with a cursor leaves: the frames, the words and the bytes elsewhere. -/
structure Untouched (d address size : ℕ) (s s' : Vm) : Prop where
  frames : ∀ b g, InRegion b → frameOf s d b = some g → frameOf s' d b = some g
  words : ∀ b y, InRegion b → b / 4 ≠ address / 4 → readWord s d b = some y → readWord s' d b = some y
  bytes : ∀ b y, InRegion b → b < address ∨ address + size ≤ b → readByte s d b = some y →
      readByte s' d b = some y

/-- What is read at the address afterwards. -/
def Datum.ReadAt (x : Datum) (s : Vm) (d address : ℕ) : Prop :=
  match x with
  | .word w => readWord s d address = some w
  | .char b => readByte s d address = some b

theorem Datum.readAt_put (x : Datum) (row : Row) (hf : frameOf s' d a = some f)
    (hrow : s'.mem f = x.put row (a % frameSize)) : x.ReadAt s' d a := by
  cases x with
  | word w =>
    show readWord s' d a = some w
    rw [readWord_of_frame hf, hrow]
    exact congrArg some (getWord_putWord row w)
  | char b =>
    show readByte s' d a = some b
    rw [readByte_of_frame hf, hrow]
    exact congrArg some (getByte_putByte row b)

variable {o o' : ℕ}

theorem Datum.getWord_put (x : Datum) (row : Row) (ho : o < frameSize) (ho' : o' < frameSize)
    (h : o' / 4 ≠ o / 4) : getWord (x.put row o) o' = getWord row o' := by
  cases x with
  | word w => exact getWord_putWord_ne row w ho ho' h
  | char b => exact getWord_putByte_ne row b ho ho' h

theorem Datum.getByte_put (x : Datum) (row : Row) (ho : o < frameSize) (ho' : o' < frameSize)
    (hal : o % x.size = 0) (h : o' < o ∨ o + x.size ≤ o') :
    getByte (x.put row o) o' = getByte row o' := by
  cases x with
  | word w =>
    rw [show (Datum.word w).size = 4 from rfl] at hal h
    exact getByte_putWord_ne row w ho ho' (by omega)
  | char b =>
    rw [show (Datum.char b).size = 1 from rfl] at h
    exact getByte_putByte_ne row b ho ho' (by omega)

/-- **`write_stack_data`** at an aligned address of the stack: what it writes is read there, and
nothing else is changed. -/
theorem writeStackData_spec (x : Datum) (h : StackSpace c d R G s) (ha : InRegion cur.address)
    (hcur : CursorOk s d cur) (hal : cur.address % x.size = 0) :
    Ends (Exhausted 257 R) (writeStackData d x cur) s fun cur' s' => ∃ G', StackSpace c d R G' s' ∧
      cur'.address = cur.address + x.size ∧ CursorOk s' d cur' ∧ x.ReadAt s' d cur.address ∧
      Untouched d cur.address x.size s s' := by
  have hstart : userStackStart = 0xF0000000 := rfl
  have hsize : x.size = 1 ∨ x.size = 4 := by
    cases x
    · exact .inl rfl
    · exact .inr rfl
  have hoffset : ∀ b, b % frameSize < frameSize := fun b => Nat.mod_lt b (by decide)
  have hhigh := ha.2
  rw [writeStackData_eq]
  refine ends_bind ((cursorBlock_spec h ha hcur).mono ?_)
  rintro f s₁ ⟨G', h₁, hframe, hgrown⟩
  obtain ⟨h₂, hframes⟩ := h₁.setRow ha hframe (x.put (s₁.mem f) (cur.address % frameSize))
  have hframe₂ := (hframes cur.address ha).trans hframe
  -- a frame that was there is as it was, or it is the one that is written
  have hrow : ∀ b g, InRegion b → frameOf s d b = some g →
      frameOf (s₁.setRow f (x.put (s₁.mem f) (cur.address % frameSize))) d b = some g ∧
      ((s₁.setRow f (x.put (s₁.mem f) (cur.address % frameSize))).mem g = s.mem g ∨
        b / frameSize = cur.address / frameSize ∧
          (s₁.setRow f (x.put (s₁.mem f) (cur.address % frameSize))).mem g =
            x.put (s.mem g) (cur.address % frameSize)) := by
    intro b g hb hg
    obtain ⟨hg₁, hmem⟩ := hgrown b g hb hg
    refine ⟨(hframes b hb).trans hg₁, ?_⟩
    by_cases hgf : g = f
    · subst hgf
      exact .inr ⟨h₁.page_eq hb ha hg₁ hframe, by rw [setRow_self, hmem]⟩
    · exact .inl ((setRow_of_ne hgf).trans hmem)
  have haddress : (cur.address + x.size) % 2 ^ 32 = cur.address + x.size := Nat.mod_eq_of_lt (by omega)
  refine ⟨G', h₂, haddress, ?_, x.readAt_put (s₁.mem f) hframe₂ (setRow_self _ _ _), ?_, ?_, ?_⟩
  · -- the cursor stays in its page, or it comes to the next one
    rw [haddress]
    by_cases hpage : (cur.address + x.size) % frameSize = 0
    · exact .inr (.inl hpage)
    · refine .inr (.inr (Eq.trans (frameOf_page ?_) hframe₂))
      show (cur.address + x.size) / frameSize = cur.address / frameSize
      unfold frameSize at hpage ⊢
      rcases hsize with hsize | hsize <;> rw [hsize] at hpage hal ⊢ <;> omega
  · exact fun b g hb hg => (hrow b g hb hg).1
  · intro b y hb hne hread
    obtain ⟨g, hg⟩ := frame_of_readWord hread
    obtain ⟨hg₂, hmem⟩ := hrow b g hb hg
    rw [readWord_of_frame hg] at hread
    rw [readWord_of_frame hg₂, ← hread]
    rcases hmem with hmem | ⟨hpage, hmem⟩
    · rw [hmem]
    · rw [hmem, x.getWord_put (s.mem g) (hoffset _) (hoffset _) ?_]
      unfold frameSize at hpage ⊢
      omega
  · intro b y hb hout hread
    obtain ⟨g, hg⟩ := frame_of_readByte hread
    obtain ⟨hg₂, hmem⟩ := hrow b g hb hg
    rw [readByte_of_frame hg] at hread
    rw [readByte_of_frame hg₂, ← hread]
    rcases hmem with hmem | ⟨hpage, hmem⟩
    · rw [hmem]
    · unfold frameSize at hpage
      rw [hmem, x.getByte_put (s.mem g) (hoffset _) (hoffset _) ?_ ?_]
      · unfold frameSize
        rcases hsize with hsize | hsize <;> rw [hsize] at hal ⊢ <;> omega
      · unfold frameSize
        omega

/-! ### The items -/

/-- These words are read from the address on. -/
def WordsAt (s : Vm) (d : ℕ) : ℕ → List Word → Prop
  | _, [] => True
  | a, w :: ws => readWord s d a = some w ∧ WordsAt s d (a + 4) ws

/-- These bytes are read from the address on. -/
def BytesAt (s : Vm) (d : ℕ) : ℕ → List (BitVec 8) → Prop
  | _, [] => True
  | a, x :: xs => readByte s d a = some x ∧ BytesAt s d (a + 1) xs

theorem bytesAt_append {xs ys : List (BitVec 8)} :
    BytesAt s d a (xs ++ ys) ↔ BytesAt s d a xs ∧ BytesAt s d (a + xs.length) ys := by
  induction xs generalizing a with
  | nil => simp [BytesAt]
  | cons x xs ih =>
    rw [List.cons_append, BytesAt, BytesAt, ih, and_assoc, List.length_cons, Nat.add_assoc, Nat.add_comm 1]

theorem wordsAt_append {xs ys : List Word} :
    WordsAt s d a (xs ++ ys) ↔ WordsAt s d a xs ∧ WordsAt s d (a + 4 * xs.length) ys := by
  induction xs generalizing a with
  | nil => simp [WordsAt]
  | cons x xs ih =>
    rw [List.cons_append, WordsAt, WordsAt, ih, and_assoc, List.length_cons, Nat.mul_add_one,
      Nat.add_assoc, Nat.add_comm 4]

theorem CursorOk.untouched {address size : ℕ} (h : CursorOk s d cur) (hU : Untouched d address size s s')
    (hlow : userStackEnd ≤ cur.address) (hhigh : cur.address ≤ userStackStart) : CursorOk s' d cur := by
  rcases h with h | h | h
  · exact .inl h
  · exact .inr (.inl h)
  · by_cases hlast : cur.address = userStackStart
    · refine .inr (Or.inl ?_)
      rw [hlast]
      rfl
    · exact .inr (.inr (hU.frames _ _ ⟨hlow, by omega⟩ h))

/-- **The items**: the words are read from the one cursor on, and the characters from the other.
What was written before is kept: the words in front of the one cursor, and the bytes between the
last word and the other cursor. -/
theorem writeItems_spec (is : List Item) {p q : Cursor} (h : StackSpace c d R G s)
    (hp : CursorOk s d p) (hq : CursorOk s d q) (hal : p.address % 4 = 0)
    (hlow : userStackEnd ≤ p.address) (hpq : p.address + 4 * (itemWords is).length ≤ q.address)
    (hhigh : q.address + (itemChars is).length ≤ userStackStart) :
    Ends (Exhausted 257 R) (writeItems d is (p, q)) s fun _ s' =>
      WordsAt s' d p.address (itemWords is) ∧ BytesAt s' d q.address (itemChars is) ∧
      (∀ b y, b % 4 = 0 → userStackEnd ≤ b → b + 4 ≤ p.address → readWord s d b = some y →
        readWord s' d b = some y) ∧
      ∀ b y, p.address + 4 * (itemWords is).length ≤ b → b < q.address → readByte s d b = some y →
        readByte s' d b = some y := by
  induction is generalizing G s p q with
  | nil => exact ends_pure ⟨trivial, trivial, fun _ _ _ _ _ => id, fun _ _ _ _ => id⟩
  | cons i is ih =>
    cases i with
    | pointer w =>
      rw [itemWords, List.length_cons] at hpq
      rw [itemChars] at hhigh
      rw [writeItems]
      refine ends_bind ((writeStackData_spec (.word w) h ⟨hlow, by omega⟩ hp hal).mono ?_)
      rintro p₁ s₁ ⟨G₁, h₁, haddress, hp₁, hread, hU⟩
      replace haddress : p₁.address = p.address + 4 := haddress
      have hq₁ := hq.untouched hU (by omega) (by omega)
      refine (ih h₁ hp₁ hq₁ (by omega) (by omega) (by omega) hhigh).mono ?_
      rintro _ s' ⟨hwords, hbytes, hkept, hkept'⟩
      rw [haddress] at hwords hkept hkept'
      rw [itemWords, itemChars, List.length_cons]
      refine ⟨⟨hkept p.address w hal hlow (by omega) hread, hwords⟩, hbytes,
        fun b y hb hlow' hle hy => ?_, fun b y hle hlt hy => ?_⟩
      · exact hkept b y hb hlow' (by omega) (hU.words b y ⟨hlow', by omega⟩ (by omega) hy)
      · refine hkept' b y (by omega) hlt (hU.bytes b y ⟨by omega, by omega⟩ (Or.inr ?_) hy)
        show p.address + 4 ≤ b
        omega
    | char x =>
      rw [itemWords] at hpq
      rw [itemChars, List.length_cons] at hhigh
      rw [writeItems]
      refine ends_bind ((writeStackData_spec (.char x) h ⟨by omega, by omega⟩ hq (Nat.mod_one _)).mono ?_)
      rintro q₁ s₁ ⟨G₁, h₁, haddress, hq₁, hread, hU⟩
      replace haddress : q₁.address = q.address + 1 := haddress
      have hp₁ := hp.untouched hU hlow (by omega)
      refine (ih h₁ hp₁ hq₁ hal hlow (by omega) (by omega)).mono ?_
      rintro _ s' ⟨hwords, hbytes, hkept, hkept'⟩
      rw [haddress] at hbytes hkept'
      rw [itemWords, itemChars]
      refine ⟨hwords, ⟨hkept' q.address x (by omega) (by omega) hread, hbytes⟩,
        fun b y hb hlow' hle hy => ?_, fun b y hle hlt hy => ?_⟩
      · exact hkept b y hb hlow' hle (hU.words b y ⟨hlow', by omega⟩ (by omega) hy)
      · exact hkept' b y hle (by omega) (hU.bytes b y ⟨by omega, by omega⟩ (.inl hlt) hy)

/-! ### The vectors -/

section Vectors

variable {argv envp strs : List (List (BitVec 8))} {data : ℕ}

/-- Where the strings are, one behind the other. -/
def stringAddresses : ℕ → List (List (BitVec 8)) → List ℕ
  | _, [] => []
  | data, str :: strs => data :: stringAddresses (data + (str.length + 1)) strs

/-- The areas of strings: where each is, and how many bytes it has with its terminator. -/
def stringAreas (ptrs : List ℕ) (strs : List (List (BitVec 8))) : List (ℕ × ℕ) :=
  List.zipWith (fun ptr str => (ptr, str.length + 1)) ptrs strs

theorem length_stringBytes_cons (str : List (BitVec 8)) (strs : List (List (BitVec 8))) :
    (stringBytes (str :: strs)).length = str.length + 1 + (stringBytes strs).length := by
  rw [stringBytes_cons, List.length_append, List.length_append, List.length_singleton]

theorem itemWords_vector (h : data + (stringBytes strs).length < 2 ^ 32) :
    itemWords (vectorItems data strs) = (stringAddresses data strs).map (BitVec.ofNat 32) ++ [0#32] := by
  induction strs generalizing data with
  | nil => rfl
  | cons str strs ih =>
    rw [length_stringBytes_cons] at h
    rw [vectorItems, itemWords, itemWords_append, itemWords_chars, List.nil_append,
      Nat.mod_eq_of_lt (by omega), ih (by omega)]
    rfl

theorem stringAddresses_read (h : BytesAt s d data (stringBytes strs)) :
    List.Forall₂ (fun ptr str => BytesAt s d ptr (str ++ [0#8])) (stringAddresses data strs) strs := by
  induction strs generalizing data with
  | nil => exact List.Forall₂.nil
  | cons str strs ih =>
    rw [stringBytes_cons, bytesAt_append] at h
    refine List.Forall₂.cons h.1 (ih ?_)
    simpa using h.2

variable {x : ℕ × ℕ}

theorem stringAreas_bounds (h : x ∈ stringAreas (stringAddresses data strs) strs) :
    data ≤ x.1 ∧ x.1 + x.2 ≤ data + (stringBytes strs).length := by
  induction strs generalizing data with
  | nil => cases h
  | cons str strs ih =>
    rw [length_stringBytes_cons]
    rcases List.mem_cons.mp h with rfl | h
    · exact ⟨Nat.le_refl _, by show data + (str.length + 1) ≤ _; omega⟩
    · have := ih h
      omega

theorem stringAreas_pairwise (data : ℕ) (strs : List (List (BitVec 8))) :
    (stringAreas (stringAddresses data strs) strs).Pairwise fun x y => x.1 + x.2 ≤ y.1 := by
  induction strs generalizing data with
  | nil => exact List.Pairwise.nil
  | cons str strs ih =>
    refine List.Pairwise.cons (fun y hy => ?_) (ih _)
    exact (stringAreas_bounds hy).1

/-- A null-terminated array of pointers to null-terminated strings. -/
structure VectorRead (s : Vm) (d array : ℕ) (ptrs : List ℕ) (strs : List (List (BitVec 8))) : Prop where
  pointers : WordsAt s d array (ptrs.map (BitVec.ofNat 32) ++ [0#32])
  strings : List.Forall₂ (fun ptr str => BytesAt s d ptr (str ++ [0#8])) ptrs strs

/-- **The stack of a new program**, read through its directory: `argc`, `argv` and `envp` at the
stack pointer, the two vectors, and their strings. -/
structure StackImage (s : Vm) (d sp av ev : ℕ) (argPtrs envPtrs : List ℕ)
    (argv envp : List (List (BitVec 8))) : Prop where
  aligned : sp % 16 = 0
  top : WordsAt s d sp [BitVec.ofNat 32 argv.length, BitVec.ofNat 32 av, BitVec.ofNat 32 ev]
  args : VectorRead s d av argPtrs argv
  envs : VectorRead s d ev envPtrs envp
  /-- The areas are one behind the other, in the region of the stack. -/
  apart : ((sp, 12) :: (av, 4 * (argv.length + 1)) :: (ev, 4 * (envp.length + 1)) ::
    (stringAreas argPtrs argv ++ stringAreas envPtrs envp)).Pairwise fun x y => x.1 + x.2 ≤ y.1
  inside : ∀ x ∈ (sp, 12) :: (av, 4 * (argv.length + 1)) :: (ev, 4 * (envp.length + 1)) ::
    (stringAreas argPtrs argv ++ stringAreas envPtrs envp), userStackEnd ≤ x.1 ∧ x.1 + x.2 ≤ userStackStart

variable {sp : ℕ}

/-- **The areas** of the image, in order. -/
theorem areas_pairwise (hdata : data = sp + 4 * (3 + (argv.length + 1) + (envp.length + 1))) :
    ((sp, 12) :: (sp + 12, 4 * (argv.length + 1)) ::
      (sp + 12 + 4 * (argv.length + 1), 4 * (envp.length + 1)) ::
      (stringAreas (stringAddresses data argv) argv ++
        stringAreas (stringAddresses (data + (stringBytes argv).length) envp) envp)).Pairwise
      fun x y => x.1 + x.2 ≤ y.1 := by
  -- the strings are behind everything else
  have hstrings : ∀ y ∈ stringAreas (stringAddresses data argv) argv ++
      stringAreas (stringAddresses (data + (stringBytes argv).length) envp) envp, data ≤ y.1 := by
    intro y hy
    rcases List.mem_append.mp hy with hy | hy
    · exact (stringAreas_bounds hy).1
    · exact (Nat.le_add_right _ _).trans (stringAreas_bounds hy).1
  refine List.Pairwise.cons
    (fun y hy => ?_) (List.Pairwise.cons (fun y hy => ?_) (List.Pairwise.cons (fun y hy => ?_)
    (List.pairwise_append.mpr ⟨stringAreas_pairwise _ _, stringAreas_pairwise _ _, fun x hx y hy => ?_⟩)))
  · show sp + 12 ≤ y.1
    rcases List.mem_cons.mp hy with rfl | hy
    · exact Nat.le_refl _
    rcases List.mem_cons.mp hy with rfl | hy
    · exact Nat.le_add_right _ _
    have := hstrings y hy
    omega
  · show sp + 12 + 4 * (argv.length + 1) ≤ y.1
    rcases List.mem_cons.mp hy with rfl | hy
    · exact Nat.le_refl _
    have := hstrings y hy
    omega
  · show sp + 12 + 4 * (argv.length + 1) + 4 * (envp.length + 1) ≤ y.1
    have := hstrings y hy
    omega
  · exact (stringAreas_bounds hx).2.trans (stringAreas_bounds hy).1

theorem areas_inside (hdata : data = sp + 4 * (3 + (argv.length + 1) + (envp.length + 1)))
    (hx : x ∈ (sp, 12) :: (sp + 12, 4 * (argv.length + 1)) ::
      (sp + 12 + 4 * (argv.length + 1), 4 * (envp.length + 1)) ::
      (stringAreas (stringAddresses data argv) argv ++
        stringAreas (stringAddresses (data + (stringBytes argv).length) envp) envp)) :
    sp ≤ x.1 ∧ x.1 + x.2 ≤ data + (stringBytes argv).length + (stringBytes envp).length := by
  rcases List.mem_cons.mp hx with rfl | hx
  · exact ⟨Nat.le_refl _, by show sp + 12 ≤ _; omega⟩
  rcases List.mem_cons.mp hx with rfl | hx
  · exact ⟨Nat.le_add_right _ _, by show sp + 12 + 4 * (argv.length + 1) ≤ _; omega⟩
  rcases List.mem_cons.mp hx with rfl | hx
  · refine ⟨by show sp ≤ sp + 12 + 4 * (argv.length + 1); omega, ?_⟩
    show sp + 12 + 4 * (argv.length + 1) + 4 * (envp.length + 1) ≤ _
    omega
  rcases List.mem_append.mp hx with hx | hx
  · have := stringAreas_bounds hx
    omega
  · have := stringAreas_bounds hx
    omega

/-- **The items are the image.** -/
theorem stackImage_of_items (hal : sp % 16 = 0) (hlow : userStackEnd ≤ sp)
    (hdata : data = sp + 4 * (3 + (argv.length + 1) + (envp.length + 1)))
    (hhigh : data + (stringBytes argv).length + (stringBytes envp).length ≤ userStackStart)
    (hwords : WordsAt s d sp ([BitVec.ofNat 32 argv.length, BitVec.ofNat 32 (sp + 12),
      BitVec.ofNat 32 (sp + 12 + 4 * (argv.length + 1))] ++ (itemWords (vectorItems data argv) ++
      itemWords (vectorItems (data + (stringBytes argv).length) envp))))
    (hbytes : BytesAt s d data (stringBytes argv ++ stringBytes envp)) :
    StackImage s d sp (sp + 12) (sp + 12 + 4 * (argv.length + 1)) (stringAddresses data argv)
      (stringAddresses (data + (stringBytes argv).length) envp) argv envp := by
  have hstart : userStackStart = 0xF0000000 := rfl
  rw [wordsAt_append, wordsAt_append, length_itemWords_vector, itemWords_vector (by omega),
    itemWords_vector (by omega)] at hwords
  obtain ⟨htop, hargs, henvs⟩ := hwords
  obtain ⟨hargBytes, henvBytes⟩ := bytesAt_append.mp hbytes
  exact {
    aligned := hal
    top := htop
    args := ⟨hargs, stringAddresses_read hargBytes⟩
    envs := ⟨henvs, stringAddresses_read henvBytes⟩
    apart := areas_pairwise hdata
    inside := fun x hx => by
      have := areas_inside hdata hx
      omega }

end Vectors

/-! ### A new directory -/

/-- **`new_directory`** leaves the stack to be made, or there is no frame for it. -/
theorem newDirectory_spec (H : Pool c G s)
    (hbase : ∀ i, isUser i = true → tgt (s.mem c.baseDirectory i) = none) :
    Ends (Exhausted 258 (framesLeft G s)) (newDirectory c) s fun d s' =>
      ∃ G', StackSpace c d (framesLeft G s - 1) G' s' := by
  unfold Ends newDirectory
  rcases allocFrame_left H with ⟨d, s₁, halloc, T⟩ | ⟨halloc, hleft⟩
  · rw [bind_of_eq halloc]
    have hbd : c.baseDirectory ≠ d := by
      have := H.base_lt
      have := T.pool_le
      omega
    have hnone : tgt ((s₁.setRow d (s₁.mem c.baseDirectory)).mem d stackDir) = none := by
      rw [setRow_self, T.rows _ hbd]
      exact hbase stackDir stackDir_isUser
    refine ⟨(G.take d).setKind d .dir, (T.use (by simp)).setRow (by simp), setKind_self _ _ _,
      .inl hnone, ?_, ?_, ?_, ?_⟩
    · intro t ht
      rw [hnone] at ht
      cases ht
    · intro t j f ht
      rw [hnone] at ht
      cases ht
    · intro t j j' f ht
      rw [hnone] at ht
      cases ht
    · have hleft := T.left
      show framesLeft G s - 1 ≤ framesLeft (G.take d) s₁ + _
      omega
  · rw [bind_of_error halloc]
    exact ⟨rfl, by omega⟩

/-- **The initial stack reads back as the arguments.**  On a new directory `set_up_stack` returns a
stack pointer at which the arguments are read, unless fewer than 258 frames are left (a directory, a
table and the pages of the stack). -/
theorem stack_reads_back (argv envp : List (List (BitVec 8))) (hpool : Pool c G s)
    (hbase : ∀ i, isUser i = true → tgt (s.mem c.baseDirectory i) = none)
    (hfit : bytesRequired argv envp ≤ userStackSize - 16) :
    Ends (Exhausted 258 (framesLeft G s))
      (do
        let d ← newDirectory c
        let sp ← setUpStack d (totalLength argv envp) argv envp
        return (d, sp))
      s fun r s' => ∃ av ev argPtrs envPtrs, StackImage s' r.1 r.2 av ev argPtrs envPtrs argv envp := by
  obtain ⟨hlow, hdata, hhigh⟩ := stack_layout (by decide) (by decide) (hfit.trans (Nat.sub_le _ _))
  have hstart : userStackStart = 0xF0000000 := rfl
  have hal : stackPointer (totalLength argv envp) argv envp % 16 = 0 := Nat.mul_mod_left _ _
  rw [bytesRequired] at hhigh
  apply ends_bind
  apply (newDirectory_spec hpool hbase).mono
  rintro d s₁ ⟨G₁, h₁⟩
  rw [setUpStack_eq, bind_assoc]
  have hitems := writeItems_spec (stackItems (totalLength argv envp) argv envp)
    (p := ⟨stackPointer (totalLength argv envp) argv envp, 0⟩)
    (q := ⟨dataAddress (totalLength argv envp) argv envp, 0⟩) h₁ (.inl rfl) (.inl rfl)
    (by show stackPointer _ argv envp % 4 = 0; omega) hlow
    (by rw [length_itemWords_stack]; exact hdata.ge)
    (by rw [itemChars_stack, List.length_append]; show dataAddress _ argv envp + _ ≤ _; omega)
  have hleft : ∀ e, Exhausted 257 (framesLeft G s - 1) e → Exhausted 258 (framesLeft G s) e := by
    rintro e ⟨rfl, hleft⟩
    exact ⟨rfl, by omega⟩
  apply ends_bind
  refine Ends.mono (hitems.weaken hleft) ?_
  rintro _ s' ⟨hwords, hbytes, -, -⟩
  rw [itemChars_stack] at hbytes
  have hnext : (dataAddress (totalLength argv envp) argv envp + (stringBytes argv).length) % 2 ^ 32 =
      dataAddress (totalLength argv envp) argv envp + (stringBytes argv).length :=
        Nat.mod_eq_of_lt (by omega)
  rw [stackItems, hnext, itemWords, itemWords, itemWords, itemWords_append] at hwords
  exact ends_pure ⟨_, _, _, _, stackImage_of_items hal hlow hdata (by omega) hwords hbytes⟩

/-! A machine of which no frame is taken, with memory enough for any stack. -/

def roomyConfig : Config := ⟨0, 1, 2⟩

def roomyGhost : Ghost := ⟨fun _ => .out, [], fun _ => 0⟩

def roomyState : Vm := ⟨fun _ _ => 0#32, fun _ => 0, none, 2, 300⟩

theorem roomyState_pool : Pool roomyConfig roomyGhost roomyState where
  chain := trivial
  nodup := List.nodup_nil
  free_iff n := by simp [roomyGhost]
  range n hn := absurd rfl hn
  pool_le := Nat.le_refl 2
  avail_le := show 2 ≤ 300 by omega
  limit_le := show 300 ≤ 1048576 by omega
  zero_lt := show 0 < 2 by omega
  base_lt := show 1 < 2 by omega

theorem roomyState_base (i : Index) : tgt (roomyState.mem roomyConfig.baseDirectory i) = none := tgt_zero

theorem roomyState_left : framesLeft roomyGhost roomyState = 298 := rfl

-- the machine is not to be run by unfolding
attribute [irreducible] roomyState

theorem stack_reads_back_ls :
    ∃ d sp s', (do
        let d ← newDirectory roomyConfig
        let sp ← setUpStack d (totalLength [[0x6c#8, 0x73#8]] []) [[0x6c#8, 0x73#8]] []
        return (d, sp) : Code (ℕ × ℕ)) roomyState = .ok ((d, sp), s') ∧
      ∃ av ev argPtrs envPtrs, StackImage s' d sp av ev argPtrs envPtrs [[0x6c#8, 0x73#8]] [] := by
  have hends := stack_reads_back [[0x6c#8, 0x73#8]] [] roomyState_pool
      (fun i _ => roomyState_base i) (by decide)
  obtain ⟨⟨d, sp⟩, s', hrun, himage⟩ :=
    hends.returns fun e he => absurd he.2 (by rw [roomyState_left]; omega)
  exact ⟨d, sp, s', hrun, himage⟩

end GheithOS.Vmm
