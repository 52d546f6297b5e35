import GheithOS.Vmm.Mapping
import GheithOS.Vmm.StackImage

/-!
# GheithOS.Vmm.StackPages — `set_up_stack` in the accounting

`set_up_stack` may be called for any directory.  Wherever its arguments lie inside user memory it
keeps the counts exact, and the only pages that come to be are those it writes (`setUpStack_grown`).
-/

namespace GheithOS.Vmm

open Cow Lib
open MemoryMapping (userMemStart sharedAddress)

variable {c : Config} {G G' G'' : Ghost} {s s' s'' : Vm} {z : ℤ} {d f a : ℕ} {i j : Index}
  {P Q : Index → Index → Prop}

/-! ### What the writes keep -/

/-- **What writing to the stack keeps**: the counts stay exact, frames of data stay in use, and no
page comes to be but those of `P` in directory `d`. -/
structure StackGrown (c : Config) (d : ℕ) (P : Index → Index → Prop) (G : Ghost) (s : Vm)
    (G' : Ghost) (s' : Vm) : Prop
    extends Keeps True c G s G' s' where
  data : DataStays G G'
  pages : ∀ d' i j, G.kind d' = .dir → isUser i = true → space s' d' i j ≠ none →
    space s d' i j ≠ none ∨ d' = d ∧ P i j

theorem StackGrown.refl (H : Sound c G s) : StackGrown c d P G s G s where
  toKeeps := Keeps.refl H
  data _ h := h
  pages _ _ _ _ _ h := Or.inl h

theorem StackGrown.trans (h₁ : StackGrown c d P G s G' s') (h₂ : StackGrown c d P G' s' G'' s'') :
    StackGrown c d P G s G'' s'' where
  toKeeps := (h₁.toKeeps.trans h₂.toKeeps).weaken fun _ => ⟨trivial, trivial⟩
  data := h₁.data.trans h₂.data
  pages d' i j hd hi h := by
    rcases h₂.pages d' i j ((h₁.dirs d').mpr hd) hi h with h | h
    · exact h₁.pages d' i j hd hi h
    · exact .inr h

theorem StackGrown.mono (h : StackGrown c d P G s G' s') (hPQ : ∀ i j, P i j → Q i j) :
    StackGrown c d Q G s G' s' where
  toKeeps := h.toKeeps
  data := h.data
  pages d' i j hd hi hpage := (h.pages d' i j hd hi hpage).imp id fun ⟨h1, h2⟩ => ⟨h1, hPQ i j h2⟩

theorem PageSet.stackGrown {row : Row} (h : PageSet True c d i j row G s G' s') (hP : P i j) :
    StackGrown c d P G s G' s' where
  toKeeps := h.toKeeps
  data := h.data
  pages d' i' j' hd hi hpage := by
    by_cases he : d' = d ∧ i' = i ∧ j' = j
    · obtain ⟨rfl, rfl, rfl⟩ := he
      exact .inr ⟨rfl, hP⟩
    · rw [h.rest d' i' j' hd hi he] at hpage
      exact .inl hpage

theorem Quiet.stackGrown (h : Quiet True c G s G' s') (hdata : DataStays G G') :
    StackGrown c d P G s G' s' where
  toKeeps := h.toKeeps
  data := hdata
  pages d' i j hd hi hpage := by
    rw [h.spaces d' i hd hi] at hpage
    exact .inl hpage

theorem Sound.stackGrown_setRow (H : Sound c G s) (hzb : c.zeroFrame ≠ c.baseDirectory)
    (hf : G.kind f = .data ∨ f = c.zeroFrame) (row : Row) : StackGrown c d P G s G (s.setRow f row) := by
  have hkind : G.kind f = .data ∨ G.kind f = .out := hf.imp id fun h => by rw [h, H.kind_zero]
  have hfb : f ≠ c.baseDirectory := by
    rcases hf with hf | rfl
    · rintro rfl
      simp [H.kind_base] at hf
    · exact hzb
  have hrow : ∀ m, G.kind m = .dir ∨ G.kind m = .table → (s.setRow f row).mem m = s.mem m := fun m hm => by
    refine setRow_of_ne ?_
    rintro rfl
    rcases hkind with h | h <;> simp [h] at hm
  have hent : ∀ b, entries G (s.setRow f row) b = entries G s b := entries_congr hrow
  refine ⟨⟨H.setRow row ?_ ?_ ?_ hfb, fun _ z _ he => ⟨he.zero, fun b hb hpos => he.rest b hb ?_⟩,
    fun _ z _ _ hl => ⟨hl.used, fun m hm => ?_⟩, fun _ h => h, fun _ => Iff.rfl,
      fun m hm hz => setRow_of_ne ?_,
    fun d' i hd _ => by rw [hrow d' (.inl hd)]⟩, fun _ h => h, fun d' i j hd hi hpage => Or.inl ?_⟩
  · rcases hkind with h | h <;> simp [h]
  · rcases hkind with h | h <;> simp [h]
  · rcases hkind with h | h <;> simp [h]
  · rwa [hent] at hpos
  · rw [hent]
    exact hl.targeted m hm
  · rintro rfl
    rcases hf with hf | rfl
    · simp [H.kind_low hm] at hf
    · exact hz rfl
  · have hpde : tgt ((s.setRow f row).mem d' i) = tgt (s.mem d' i) := by rw [hrow d' (.inl hd)]
    cases ht : tgt (s.mem d' i) with
    | none =>
      rw [space_none (hpde.trans ht)] at hpage
      exact absurd rfl hpage
    | some t =>
      intro hnone
      rw [space_eq_none ht] at hnone
      refine hpage ((space_eq_none (hpde.trans ht)).mpr ?_)
      rw [hrow t (.inr (H.pde hd hi ht)), hnone]

/-! ### `write_stack_data` -/

section Writes

variable {x : Datum} {cur p q : Cursor}

/-- The page of an address. -/
def PageOf (a : ℕ) (i j : Index) : Prop := i = dirIndex (a / frameSize) ∧ j = tableIndex (a / frameSize)

/-- The frame that a cursor has may be written. -/
def BlockOk (c : Config) (G : Ghost) (f : ℕ) : Prop := G.kind f = .data ∨ f = c.zeroFrame

theorem BlockOk.stays (h : BlockOk c G f) (hdata : DataStays G G') : BlockOk c G' f := h.imp (hdata f) id

/-- **The frame of an address** of user memory is found or made. -/
theorem stackBlock_grown (H : Sound c G s) (hzero : 0 < c.zeroFrame) (hd : G.kind d = .dir)
    (hlow : userMemStart ≤ a) (hhigh : a < sharedAddress) :
    Ends OutOfFrames (stackBlock a d) s fun f s' =>
      ∃ G', StackGrown c d (PageOf a) G s G' s' ∧ BlockOk c G' f := by
  have hi := dirIndex_isUser hlow hhigh
  have hget := getPageTable_spec H hd hi
  cases hrun : getPageTable (a / frameSize) d s with
  | error e =>
    unfold Ends at hget ⊢
    rw [hrun] at hget
    rw [stackBlock, bind_of_error hrun]
    exact hget
  | ok r =>
    obtain ⟨r, s₁⟩ := r
    obtain ⟨hr, G₁, C, hdata⟩ := hget.ok hrun
    have hd₁ : G₁.kind d = .dir := C.kind.trans hd
    have hidle : tgt (s₁.mem d (dirIndex (a / frameSize))) = none ∨
        isRw (s₁.mem d (dirIndex (a / frameSize))) = true := by
      cases ht : tgt (s.mem d (dirIndex (a / frameSize))) with
      | none =>
        rw [C.absent ht]
        exact .inl ht
      | some t =>
        obtain ⟨_, -, hrw⟩ := C.writable t ht
        exact .inr hrw
    -- what follows does not copy the table again
    have hsame : stackBlock a d s = stackBlock a d s₁ := by
      rw [stackBlock, bind_of_eq hrun, bind_of_eq (getPageTable_eq hidle), hr]
    have hstart : StackGrown c d (PageOf a) G s G₁ s₁ := C.toQuiet.stackGrown hdata
    unfold Ends
    rw [hsame, stackBlock_eq hidle]
    cases hframe : frameOf s₁ d a with
    | some f =>
      obtain ⟨t, ht, hf⟩ := Option.bind_eq_some_iff.mp hframe
      have hblock : BlockOk c G₁ f := (C.sound.pte (C.sound.pde hd₁ hi ht) hf).symm
      have hf0 : f ≠ 0 := by
        rcases hblock with h | h
        · have h1 := C.sound.range f (by simp [h])
          have h2 := C.sound.zero_lt
          omega
        · omega
      rw [Option.getD_some, if_neg hf0]
      exact ⟨G₁, hstart, hblock⟩
    | none =>
      rw [Option.getD_none, if_pos rfl]
      have habs : space s₁ d (dirIndex (a / frameSize)) (tableIndex (a / frameSize)) = none := by
        cases ht : tgt (s₁.mem d (dirIndex (a / frameSize))) with
        | none => exact congrFun (space_none ht) _
        | some t =>
          rw [space_eq_none ht]
          rwa [frameOf, ht, Option.bind_some] at hframe
      have hmap : Ends OutOfFrames (do
          let f ← allocFrame
          mapAddress a (frameAddr f) stackFlags d
          return f : Code ℕ) s₁ fun f s' => ∃ G', StackGrown c d (PageOf a) G s G' s' ∧ BlockOk c G' f := by
        refine ends_bind ((allocFrame_spec C.sound).mono fun f s₂ T => ?_)
        have hspec := T.map_spec C.sound hd₁ hi stackFlags (by decide) (by decide) (by decide) habs
          (fun _ => 0#32)
        rw [setRow_eq_self T.row] at hspec
        refine ends_bind (hspec.mono ?_)
        rintro _ s₃ ⟨G₂, hpage, -, hk⟩
        exact ends_pure ⟨G₂, hstart.trans (hpage.stackGrown ⟨rfl, rfl⟩), .inl hk⟩
      exact hmap

/-- **`write_stack_data`** at an address of user memory. -/
theorem writeStackData_grown (H : Sound c G s) (hzero : 0 < c.zeroFrame)
    (hzb : c.zeroFrame ≠ c.baseDirectory) (hd : G.kind d = .dir) (hlow : userMemStart ≤ cur.address)
    (hhigh : cur.address < sharedAddress)
    (hcur : cur.currentBlock = 0 ∨ BlockOk c G cur.currentBlock) :
    Ends OutOfFrames (writeStackData d x cur) s fun cur' s' => ∃ G',
      StackGrown c d (PageOf cur.address) G s G' s' ∧
      BlockOk c G' cur'.currentBlock ∧ cur'.address = (cur.address + x.size) % 2 ^ 32 := by
  have hblock : Ends OutOfFrames (cursorBlock d cur) s fun f s' =>
      ∃ G', StackGrown c d (PageOf cur.address) G s G' s' ∧ BlockOk c G' f := by
    unfold cursorBlock
    split_ifs with hlook
    · exact stackBlock_grown H hzero hd hlow hhigh
    · exact ends_pure ⟨G, StackGrown.refl H, hcur.resolve_left fun h => hlook (.inl h)⟩
  rw [writeStackData_eq]
  refine ends_bind (hblock.mono ?_)
  rintro f s₁ ⟨G₁, hgrown, hf⟩
  exact ends_of_eq rfl ⟨G₁, hgrown.trans (hgrown.sound.stackGrown_setRow hzb hf _), hf, rfl⟩

/-- **The items**, at addresses of user memory. -/
theorem writeItems_grown (hzero : 0 < c.zeroFrame) (hzb : c.zeroFrame ≠ c.baseDirectory)
    (is : List Item) :
    ∀ {G : Ghost} {s : Vm} {p q : Cursor}, Sound c G s → G.kind d = .dir →
      (∀ a ∈ itemAddresses is p.address q.address, userMemStart ≤ a ∧ a < sharedAddress) →
      (p.currentBlock = 0 ∨ BlockOk c G p.currentBlock) →
      (q.currentBlock = 0 ∨ BlockOk c G q.currentBlock) →
      Ends OutOfFrames (writeItems d is (p, q)) s fun _ s' =>
        ∃ G', StackGrown c d (fun i j => ∃ a ∈ itemAddresses is p.address q.address,
          PageOf a i j) G s G' s' := by
  induction is with
  | nil =>
    intro G s p q H _ _ _ _
    exact ends_pure ⟨G, StackGrown.refl H⟩
  | cons item is ih =>
    intro G s p q H hd haddr hp hq
    cases item with
    | pointer w =>
      obtain ⟨hlow, hhigh⟩ := haddr p.address List.mem_cons_self
      refine ends_bind ((writeStackData_grown H hzero hzb hd hlow hhigh hp).mono ?_)
      rintro p' s₁ ⟨G₁, hgrown, hp', haddress⟩
      have hrest : ∀ a ∈ itemAddresses is p'.address q.address,
          a ∈ itemAddresses (.pointer w :: is) p.address q.address := fun a ha => by
        rw [haddress] at ha
        simp only [itemAddresses, List.mem_cons]
        exact .inr (.inr (.inr (.inr ha)))
      refine (ih hgrown.sound ((hgrown.dirs d).mpr hd) (fun a ha => haddr a (hrest a ha)) (.inr hp')
        (hq.imp id fun h => h.stays hgrown.data)).mono ?_
      rintro _ s₂ ⟨G₂, hgrown₂⟩
      refine ⟨G₂, (hgrown.mono fun i j h => ⟨_, List.mem_cons_self, h⟩).trans (hgrown₂.mono ?_)⟩
      rintro i j ⟨a, ha, h⟩
      exact ⟨a, hrest a ha, h⟩
    | char b =>
      obtain ⟨hlow, hhigh⟩ := haddr q.address List.mem_cons_self
      refine ends_bind ((writeStackData_grown H hzero hzb hd hlow hhigh hq).mono ?_)
      rintro q' s₁ ⟨G₁, hgrown, hq', haddress⟩
      have hrest : ∀ a ∈ itemAddresses is p.address q'.address,
          a ∈ itemAddresses (.char b :: is) p.address q.address := fun a ha => by
        rw [haddress] at ha
        exact List.mem_cons_of_mem _ ha
      refine (ih hgrown.sound ((hgrown.dirs d).mpr hd) (fun a ha => haddr a (hrest a ha))
        (hp.imp id fun h => h.stays hgrown.data) (.inr hq')).mono ?_
      rintro _ s₂ ⟨G₂, hgrown₂⟩
      refine ⟨G₂, (hgrown.mono fun i j h => ⟨_, List.mem_cons_self, h⟩).trans (hgrown₂.mono ?_)⟩
      rintro i j ⟨a, ha, h⟩
      exact ⟨a, hrest a ha, h⟩

/-- **`set_up_stack`**, when its arguments fit into `room` bytes of user memory. -/
theorem setUpStack_grown (H : Sound c G s) (hzero : 0 < c.zeroFrame)
    (hzb : c.zeroFrame ≠ c.baseDirectory) (hd : G.kind d = .dir)
    {argv envp : List (List (BitVec 8))} {room : ℕ} (hroom : room ≤ sharedAddress - userMemStart)
    (halign : room % 16 = 0) (hfit : bytesRequired argv envp ≤ room) :
    Ends OutOfFrames (setUpStack d (totalLength argv envp) argv envp) s fun _ s' =>
      ∃ G', StackGrown c d (fun i j => ∃ a, userStackStart - room ≤ a ∧ a < userStackStart ∧
        PageOf a i j) G s G' s' := by
  have hbounds := fun a => itemAddresses_bounds (a := a) hroom halign hfit
  have hend : userMemStart ≤ userStackStart - room := by
    have h1 : userMemStart = 0x80000000 := rfl
    have h2 : sharedAddress = 0xF0000000 := rfl
    have h3 : userStackStart = 0xF0000000 := rfl
    omega
  rw [setUpStack_eq]
  refine ends_bind ((writeItems_grown hzero hzb _ H hd (fun a ha => ?_) (.inl rfl) (.inl rfl)).mono ?_)
  · obtain ⟨h1, h2⟩ := hbounds a ha
    exact ⟨hend.trans h1, h2⟩
  · rintro _ s' ⟨G', hgrown⟩
    refine ends_pure ⟨G', hgrown.mono ?_⟩
    rintro i j ⟨a, ha, h⟩
    obtain ⟨h1, h2⟩ := hbounds a ha
    exact ⟨a, h1, h2, h⟩

end Writes

end GheithOS.Vmm
