import GheithOS.Vmm.Unmap

/-!
# GheithOS.Vmm.Mapping — `map_address` and the page fault handler

A frame that the code has in hand becomes a table or a frame of data when an entry is written that
targets it (`Sound.place`).  `map_address` does that twice if the region has no page table.  What
the user sees of it is a `PageSet`: one page of one directory gets contents, and all other pages
stay.  A first read of an anonymous page in a region without a page table leaves an entry of the
directory that is read-only and not counted; all other faults keep the counts exact.
-/

namespace GheithOS.Vmm

open Cow Lib Function
open MemoryMapping (userMemStart sharedAddress)

variable {c : Config} {G G' G'' : Ghost} {s s₁ s' s'' : Vm} {ok ok' : Prop} {n m d d' t f a : ℕ}
  {i i' j j' : Index}
  {w : Word} {k : Kind} {row : Row}

/-! ### A frame in hand is put into an entry -/

section Place

/-- The ghost when a frame in hand gets a use through the entry `w`. -/
def Ghost.place (G : Ghost) (f : ℕ) (k : Kind) (w : Word) : Ghost :=
  (G.setKind f k).withBias (update G.bias f (G.bias f - if isRw w = false then 1 else 0))

@[simp] theorem place_kind_self (G : Ghost) (f : ℕ) (k : Kind) (w : Word) : (G.place f k w).kind f = k :=
  setKind_self G f k

theorem place_kind (h : n ≠ f) : (G.place f k w).kind n = G.kind n := setKind_of_ne h

theorem place_bias (h : n ≠ f) : (G.place f k w).bias n = G.bias n := update_of_ne h _ _

theorem place_bias_self (G : Ghost) (f : ℕ) (k : Kind) (w : Word) :
    (G.place f k w).bias f = G.bias f - if isRw w = false then 1 else 0 := update_self _ _ _

theorem entries_place (G : Ghost) (f : ℕ) (k : Kind) (w : Word) (s : Vm) (b : ℕ) :
    entries (G.place f k w) s b = entries (G.setKind f k) s b := by
  rw [Ghost.place, Ghost.withBias, entries, entries]

/-- What a frame in hand can become through an entry of `n`: an empty table, or data; data that may
only be read is not counted, so that its table must not be shared. -/
def Placeable (G : Ghost) (s : Vm) (n f : ℕ) (k : Kind) (w : Word) : Prop :=
  G.kind n = .dir ∧ k = .table ∧ (∀ j, tgt (s.mem f j) = none) ∨
    G.kind n = .table ∧ k = .data ∧ (isRw w = false → entries G s n ≤ 1)

theorem Placeable.kind (h : Placeable G s n f k w) : k = .table ∨ k = .data := by
  rcases h with ⟨-, h, -⟩ | ⟨-, h, -⟩
  · exact .inl h
  · exact .inr h

/-- **A frame in hand is put into an entry** that targets nothing. -/
theorem Sound.place (H : Sound c G s) (hf : G.kind f = .limbo) (hn : Holds G n i)
    (h : tgt (s.mem n i) = none) (hw : tgt w = some f) (hk : Placeable G s n f k w) :
    Sound c (G.place f k w) (s.setWord n i w) ∧
    ∀ b, entries (G.place f k w) (s.setWord n i w) b = entries G s b + if b = f then 1 else 0 := by
  have hnf : n ≠ f := Ne.symm (hn.ne (by simp [hf]) (by simp [hf]))
  have hfz : f ≠ c.zeroFrame := by
    rintro rfl
    simp [H.kind_zero] at hf
  have h0 : entries G s f = 0 := H.entries_eq_zero (by simp [hf]) (by simp [hf]) hfz
  have hcount : s.refCounts f = 0 := H.clean f (.inr (.inl hf))
  obtain ⟨S, E⟩ := H.setKind (k := k) (by simp [hf]) (by simp [hf])
    (by rcases hk.kind with h | h <;> simp [h]) h0 hcount (fun j hj => by simp [Holds, hf] at hj)
    (fun j hj => by
      rcases hk with ⟨-, -, hempty⟩ | ⟨-, hk, -⟩
      · exact hempty j
      · simp [Holds, hk] at hj)
  have hkn : (G.setKind f k).kind n = G.kind n := setKind_of_ne hnf
  have hn' : Holds (G.setKind f k) n i := by rwa [Holds, hkn]
  have hfresh : Fresh (G.setKind f k) s n f := by
    refine ⟨fun hd => ?_, fun ht => ?_, (E f).trans h0, hcount⟩ <;> rw [hkn] at * <;> rw [setKind_self]
    · rcases hk with ⟨-, hk, -⟩ | ⟨ht, -, -⟩
      · exact hk
      · simp [hd] at ht
    · rcases hk with ⟨hd, -, -⟩ | ⟨-, hk, -⟩
      · simp [hd] at ht
      · exact hk
  refine ⟨S.putFresh hn' h hfresh hw fun hro ht => ?_, fun b => ?_⟩
  · rw [E]
    rw [hkn] at ht
    rcases hk with ⟨hd, -, -⟩ | ⟨-, -, hlone⟩
    · simp [hd] at ht
    · exact hlone hro
  · have he := S.entries_put_count hn' w 0 0 b
    rw [h, hw, E b, if_neg (by simp), Nat.add_zero] at he
    have hsame : entries (G.setKind f k) (s.setWord n i w) b =
        entries (G.setKind f k) ((s.addCount 0 0).setWord n i w) b := entries_congr (fun _ _ => rfl) b
    rw [entries_place, hsame, he]
    simp [eq_comm]

/-- **Nothing is lost by it**, and a writable entry keeps the counts exact. -/
theorem Sound.place_keeps (H : Sound c G s) (hf : G.kind f = .limbo) (hn : Holds G n i)
    (h : tgt (s.mem n i) = none) (hw : tgt w = some f) (hk : Placeable G s n f k w) :
    Keeps (isRw w = true) c G s (G.place f k w) (s.setWord n i w) := by
  obtain ⟨S, E⟩ := H.place hf hn h hw hk
  have hfz : f ≠ c.zeroFrame := by
    rintro rfl
    simp [H.kind_zero] at hf
  have h0 : entries G s f = 0 := H.entries_eq_zero (by simp [hf]) (by simp [hf]) hfz
  have hbias : G.bias f = 0 := (H.bias_eq h0).trans (H.clean f (.inr (.inl hf)))
  have hk' := hk.kind
  refine ⟨S, fun hrw z _ he => ⟨?_, fun b hb hpos => ?_⟩,
    fun hrw z _ he hl => ⟨fun m hm hlt => ?_, fun m hm => ?_⟩, fun m hm => ?_, fun m => ?_,
      fun m hm _ => ?_, fun d i' hd hi => ?_⟩
  · rw [place_bias (Ne.symm hfz), he.zero]
  · by_cases hbf : b = f
    · rw [hbf, place_bias_self]
      simp [hrw, hbias]
    · rw [E, if_neg hbf, Nat.add_zero] at hpos
      rw [place_bias hbf]
      exact he.rest b hb hpos
  · by_cases hmf : m = f
    · subst hmf
      rw [place_kind_self]
      rcases hk' with hk' | hk' <;> simp [hk']
    · rw [place_kind hmf]
      exact hl.used m hm hlt
  · rw [E]
    by_cases hmf : m = f
    · simp [hmf]
    · rw [place_kind hmf] at hm
      have := hl.targeted m hm
      omega
  · by_cases hmf : m = f
    · subst hmf
      rw [place_kind_self] at hm
      rcases hk' with hk' | hk' <;> simp [hk'] at hm
    · rwa [place_kind hmf] at hm
  · by_cases hmf : m = f
    · subst hmf
      rw [place_kind_self, hf]
      rcases hk' with hk' | hk' <;> simp [hk']
    · rw [place_kind hmf]
  · have hlow := H.kind_low hm
    exact setWord_row (hn.ne (by simp [hlow]) (by simp [hlow]))
  · refine setWord_of_ne ?_
    by_contra hc
    obtain ⟨rfl, rfl⟩ : d = n ∧ i' = i := by simpa [not_or] using hc
    rw [hn.user hd] at hi
    cases hi

theorem Sound.space_place_table (H : Sound c G s) (hd : G.kind d = .dir) (hf : G.kind f = .limbo)
    (h : tgt (s.mem d i) = none) (hw : tgt w = some f) (hempty : ∀ j, tgt (s.mem f j) = none)
    (hd' : G.kind d' = .dir) (hi' : isUser i' = true) :
    space (s.setWord d i w) d' i' = space s d' i' := by
  by_cases he : d' ≠ d ∨ i' ≠ i
  · refine H.space_congr hd' hi' (congrArg tgt (setWord_of_ne he)) fun t ht => ?_
    have hrow : ∀ m, G.kind m ≠ .dir → (s.setWord d i w).mem m = s.mem m := fun m hm => by
      refine setWord_row ?_
      rintro rfl
      exact hm hd
    refine H.shows_congr ht (fun j => by rw [hrow t (by simp [ht])]) fun g hg => hrow g ?_
    rcases hg with hg | rfl
    · simp [hg]
    · simp [H.kind_zero]
  · obtain ⟨rfl, rfl⟩ : d' = d ∧ i' = i := by simpa [not_or] using he
    have hne : f ≠ d' := by
      rintro rfl
      simp [hd] at hf
    rw [space_none h, space_eq (t := f) (by rw [setWord_self, hw])]
    funext j
    rw [shows, setWord_row hne, hempty j]
    rfl

theorem Sound.space_place_page (H : Sound c G s) (ht : G.kind t = .table) (hw : tgt w = some f)
    (hft : f ≠ t) (hd : G.kind d = .dir) (hi : isUser i = true) :
    space (s.setWord t j w) d i j' = if tgt (s.mem d i) = some t ∧
      j' = j then some (s.mem f) else space s d i j' := by
  have hdt : d ≠ t := by
    rintro rfl
    simp [hd] at ht
  have hpde : (s.setWord t j w).mem d i = s.mem d i := setWord_of_ne (.inl hdt)
  unfold space
  rw [hpde]
  cases hx : tgt (s.mem d i) with
  | none => simp
  | some x =>
    simp only [Option.bind_some, Option.some.injEq]
    unfold shows
    by_cases hc : x = t ∧ j' = j
    · obtain ⟨rfl, rfl⟩ := hc
      rw [setWord_self, hw, if_pos ⟨rfl, rfl⟩]
      exact congrArg some (setWord_row hft)
    · have hx' : G.kind x = .table := H.pde hd hi hx
      rw [if_neg hc, setWord_of_ne (by tauto)]
      cases hg : tgt (s.mem x j') with
      | none => rfl
      | some g =>
        refine congrArg some (setWord_row ?_)
        rintro rfl
        exact H.not_target_holder hx' (.inr ht) hg

end Place

/-! ### One page gets contents -/

section Pages

/-- **One page of a directory gets contents**, and all other pages stay as they are. -/
structure PageSet (ok : Prop) (c : Config) (d : ℕ) (i j : Index) (row : Row) (G : Ghost) (s : Vm)
    (G' : Ghost) (s' : Vm) : Prop extends Keeps ok c G s G' s' where
  zero : s'.mem c.zeroFrame = s.mem c.zeroFrame
  data : DataStays G G'
  page : space s' d i j = some row
  rest : ∀ d' i' j', G.kind d' = .dir → isUser i' = true → ¬ (d' = d ∧ i' = i ∧ j' = j) →
    space s' d' i' j' = space s d' i' j'

theorem PageSet.weaken (P : PageSet ok c d i j row G s G' s') (hok : ok' → ok) :
    PageSet ok' c d i j row G s G' s' :=
  { P with toKeeps := P.toKeeps.weaken hok }

theorem Quiet.pageSet (Q : Quiet ok c G s G' s') (hdata : DataStays G G')
    (P : PageSet ok' c d i j row G' s' G'' s'') : PageSet (ok ∧ ok') c d i j row G s G'' s'' where
  toKeeps := Q.toKeeps.trans P.toKeeps
  zero := P.zero.trans Q.zero
  data := hdata.trans P.data
  page := P.page
  rest d' i' j' hd' hi' hne := by
    rw [P.rest d' i' j' ((Q.dirs d').mpr hd') hi' hne, Q.spaces d' i' hd' hi']

theorem Taken.pageSet (T : Taken c G s f s₁) (H : Sound c G s)
    (P : PageSet ok c d i j row (G.take f) s₁ G' s') (hf : G'.kind f ≠ .limbo) :
    PageSet ok c d i j row G s G' s' where
  toKeeps := T.keeps P.toKeeps hf
  zero := P.zero.trans (T.rows _ (T.ne_zero H))
  data := T.dataStays.trans P.data
  page := P.page
  rest d' i' j' hd' hi' hne := by
    rw [P.rest d' i' j' ((T.dirs d').mpr hd') hi' hne, T.space_eq H hd' hi']

/-- The page is mapped, and both entries allow to write it. -/
def Writable (s : Vm) (d : ℕ) (i j : Index) : Prop :=
  ∃ t f, tgt (s.mem d i) = some t ∧ isRw (s.mem d i) = true ∧ tgt (s.mem t j) = some f ∧
    isRw (s.mem t j) = true

theorem space_eq_none (h : tgt (s.mem d i) = some t) : space s d i j = none ↔ tgt (s.mem t j) = none := by
  rw [space_eq h, shows, Option.map_eq_none_iff]

end Pages

/-! ### Counts that are not looked at -/

section Counts

variable {b : ℕ}

theorem addCount_comm (s : Vm) (a b : ℕ) (x y : ℤ) :
    (s.addCount a x).addCount b y = (s.addCount b y).addCount a x := by
  have h : ((s.addCount a x).addCount b y).refCounts = ((s.addCount b y).addCount a x).refCounts := by
    funext n
    by_cases ha : n = a <;> by_cases hb : n = b
    · subst ha hb
      simp only [addCount_self]
      exact add_right_comm _ _ _
    · subst ha
      rw [addCount_of_ne hb, addCount_self, addCount_self, addCount_of_ne hb]
    · subst hb
      rw [addCount_self, addCount_of_ne ha, addCount_of_ne ha, addCount_self]
    · rw [addCount_of_ne hb, addCount_of_ne ha, addCount_of_ne ha, addCount_of_ne hb]
  exact congrArg (fun rc => { s with refCounts := rc }) h

/-- A run that goes on in the same way when the count of `b` is another. -/
def Blind {α : Type} (b : ℕ) (m : Code α) (s : Vm) : Prop :=
  ∀ x, m (s.addCount b x) = (m s).map fun r => (r.1, r.2.addCount b x)

theorem blind_bind {α β : Type} {m : Code α} {g : α → Code β} (h : Blind b m s)
    (hg : ∀ r s', m s = .ok (r, s') → Blind b (g r) s') : Blind b (m >>= g) s := by
  intro x
  cases hm : m s with
  | error e =>
    have h' := h x
    rw [hm] at h'
    rw [bind_of_error hm, bind_of_error h']
    rfl
  | ok r =>
    have h' := h x
    rw [hm] at h'
    rw [bind_of_eq hm, bind_of_eq h']
    exact hg r.1 r.2 hm x

theorem Blind.ends {α : Type} {E : Stop → Prop} {m : Code α} {Q : α → Vm → Prop} (h : Blind b m s)
    (x : ℤ) (hm : Ends E m s fun r s' => Q r (s'.addCount b x)) : Ends E m (s.addCount b x) Q := by
  unfold Ends at hm ⊢
  rw [h x]
  cases hs : m s with
  | error e =>
    rw [hs] at hm
    exact hm
  | ok r =>
    rw [hs] at hm
    exact hm

theorem blind_allocFrame (b : ℕ) (s : Vm) : Blind b allocFrame s := by
  intro x
  cases h : allocFrame s with
  | error e => exact allocFrame_addCount_error x h
  | ok r => exact allocFrame_addCount x h

/-- **`copy` of a page table** looks at no count but that of the table. -/
theorem Sound.blind_copy (H : Sound c G s) (hd : G.kind d = .dir) (hi : isUser i = true)
    (hb : tgt (s.mem d i) ≠ some b) : Blind b (copy d i true) s := by
  intro x
  cases h : tgt (s.mem d i) with
  | none => 
    rw [copy_of_idle (.inl h), copy_of_idle (s := s.addCount b x) (.inl h)]
    rfl
  | some t =>
    have hbt : t ≠ b := fun h' => hb (h' ▸ h)
    by_cases hrw : isRw (s.mem d i) = true
    · rw [copy_of_idle (.inr hrw), copy_of_idle (s := s.addCount b x) (.inr hrw)]
      rfl
    have hr := Bool.eq_false_iff.mpr hrw
    have hsame : (s.addCount b x).refCounts t = s.refCounts t := addCount_of_ne hbt
    by_cases hcount : s.refCounts t = 1
    · rw [copy_flip h hr hcount, copy_flip (s := s.addCount b x) h hr (hsame.trans hcount), addCount_comm]
      rfl
    · have hcount' : (s.addCount b x).refCounts t ≠ 1 := hsame ▸ hcount
      rcases H.alloc with ⟨f, s₁, hs, T⟩ | hs
      · have ht : G.kind t = .table := H.pde hd hi h
        have hdf : d ≠ f := T.ne hd (by simp)
        have htf : t ≠ f := T.ne ht (by simp)
        have hdt : d ≠ t := by
          rintro rfl
          simp [hd] at ht
        rw [copy_table_eq h hr hcount hs (T.rows d hdf) hdf hdt htf,
          copy_table_eq (s := s.addCount b x) h hr hcount' (allocFrame_addCount x hs)
            (T.rows d hdf) hdf hdt htf,
          addCount_comm, double_addCount]
        rfl
      · rw [copy_no_frame h hr hcount hs,
          copy_no_frame (s := s.addCount b x) h hr hcount' (allocFrame_addCount_error x hs)]
        rfl

theorem setPageTable_eq {page : ℕ} {flags : Word} (h : tgt (s.mem d (dirIndex page)) = none) :
    setPageTable page t flags d s = .ok ((), s.setWord d (dirIndex page) (frameAddr t ||| flags)) := by
  rw [setPageTable, getPageDirectoryEntry, bind_assoc, bind_of_eq (copy_of_idle (.inl h))]
  rfl

theorem Sound.blind_tableFor {page : ℕ} {flags : Word} (H : Sound c G s) (hd : G.kind d = .dir)
    (hi : isUser (dirIndex page) = true) (hb : G.kind b ≠ .table) : Blind b (tableFor page flags d) s := by
  have hcopy : Blind b (copy d (dirIndex page) true) s := H.blind_copy hd hi fun h => hb (H.pde hd hi h)
  have hspec := copy_spec H (.inl ⟨hd, hi⟩)
  rw [decide_eq_true hd] at hspec
  unfold tableFor getPageTable getPageDirectoryEntry
  simp only [bind_assoc, pure_bind]
  refine blind_bind hcopy fun _ s' hs' => ?_
  refine blind_bind (fun x => rfl) fun e s'' hs'' => ?_
  obtain ⟨rfl, rfl⟩ : s'.mem d (dirIndex page) = e ∧ s' = s'' := by
    cases hs''
    exact ⟨rfl, rfl⟩
  cases h : tgt (s'.mem d (dirIndex page)) with
  | some t => exact fun x => rfl
  | none =>
    refine blind_bind (blind_allocFrame b s') fun t s₁ hs₁ => ?_
    have hrow : tgt (s₁.mem d (dirIndex page)) = none := by
      obtain ⟨G', C, -⟩ := hspec.ok hs'
      have T := (allocFrame_spec C.sound).ok hs₁
      have hd' : G'.kind d = .dir := C.kind.trans hd
      rw [T.row_eq hd' (by simp), h]
    refine blind_bind (fun x => ?_) fun _ _ _ x => rfl
    rw [setPageTable_eq hrow, setPageTable_eq (s := s₁.addCount b x) hrow]
    rfl

end Counts

/-! ### `map_address` -/

section Map

variable {page : ℕ} {flags : Word}

theorem getPageTable_spec (H : Sound c G s) (hd : G.kind d = .dir) (hi : isUser (dirIndex page) = true) :
    Ends OutOfFrames (getPageTable page d) s fun r s' =>
      r = tgt (s'.mem d (dirIndex page)) ∧ ∃ G', Copied c G s d (dirIndex page) G' s' ∧ DataStays G G' := by
  have hcopy := copy_spec H (.inl ⟨hd, hi⟩)
  rw [decide_eq_true hd] at hcopy
  unfold getPageTable getPageDirectoryEntry
  rw [bind_assoc]
  refine ends_bind (hcopy.mono ?_)
  rintro _ s' ⟨G', C, hdata⟩
  exact ends_of_eq rfl ⟨rfl, G', C, hdata⟩

/-- **The directory has a table** at `i` that no other entry targets, and the user sees nothing of
it. -/
structure HasTable (ok : Prop) (c : Config) (d : ℕ) (i : Index) (t : ℕ) (G : Ghost) (s : Vm)
    (G' : Ghost) (s' : Vm) : Prop
    extends Quiet ok c G s G' s' where
  data : DataStays G G'
  pde : tgt (s'.mem d i) = some t
  kind : G'.kind t = .table
  alone : entries G' s' t ≤ 1
  writable : ok → isRw (s'.mem d i) = true

theorem Copied.hasTable (C : Copied c G s d i G' s') (hdata : DataStays G G') (hd : G.kind d = .dir)
    (hi : isUser i = true) (h : tgt (s'.mem d i) = some t) : HasTable ok c d i t G s G' s' := by
  have hd' : G'.kind d = .dir := C.kind.trans hd
  have hrw : isRw (s'.mem d i) = true := by
    cases hold : tgt (s.mem d i) with
    | none =>
      rw [C.absent hold, hold] at h
      cases h
    | some a =>
      obtain ⟨_, -, hrw⟩ := C.writable a hold
      exact hrw
  exact { C.toQuiet.weaken (fun _ => trivial) with
    data := hdata
    pde := h
    kind := C.sound.pde hd' hi h
    alone := (C.sound.entries_owned (.inl ⟨hd', hi⟩) h hrw).le
    writable := fun _ => hrw }

theorem Taken.hasTable (T : Taken c G s t s₁) (H : Sound c G s) (hd : G.kind d = .dir)
    (hi : isUser i = true) (h : tgt (s.mem d i) = none) (hw : tgt w = some t) :
    ∃ G', HasTable (isRw w = true) c d i t G s G' (s₁.setWord d i w) := by
  have hdt : d ≠ t := T.ne hd (by simp)
  have hd₁ : (G.take t).kind d = .dir := (take_kind hdt).trans hd
  have h₁ : tgt (s₁.mem d i) = none := by rw [T.rows d hdt, h]
  have hempty : ∀ j, tgt (s₁.mem t j) = none := fun j => by rw [T.row, tgt_zero]
  have hplace : Placeable (G.take t) s₁ d t .table w := Or.inl ⟨hd₁, rfl, hempty⟩
  have hn : Holds (G.take t) d i := Or.inl ⟨hd₁, hi⟩
  have hkeeps := T.sound.place_keeps (take_kind_self G t) hn h₁ hw hplace
  obtain ⟨-, E⟩ := T.sound.place (take_kind_self G t) hn h₁ hw hplace
  refine ⟨(G.take t).place t .table w,
    ⟨T.quiet H hkeeps (by simp) ?_ (fun m hm hk => ⟨(place_kind hm).trans hk, ?_⟩)
    fun d' i' hd' hi' => T.sound.space_place_table hd₁ (take_kind_self G t) h₁ hw hempty hd' hi',
      fun m hm => ?_, ?_,
    by simp, ?_, ?_⟩⟩
  · exact setWord_row (hn.ne (by simp [T.sound.kind_zero]) (by simp [T.sound.kind_zero]))
  · exact setWord_row (hn.ne (by simp [hk]) (by simp [hk]))
  · exact (place_kind (T.ne hm (by simp))).trans (T.dataStays m hm)
  · rw [setWord_self, hw]
  · rw [E, if_pos rfl, T.same, H.not_targeted T.kind T.pool_le]
  · intro hrw
    rw [setWord_self, hrw]

/-- **The page table of a page**, made if there is none. -/
theorem tableFor_spec (H : Sound c G s) (hd : G.kind d = .dir) (hi : isUser (dirIndex page) = true)
    (hzero : pageNumber flags = 0) (hpresent : isPresent flags = true) :
    Ends OutOfFrames (tableFor page flags d) s fun t s' => ∃ G',
      HasTable (isRw flags = true ∨
        tgt (s.mem d (dirIndex page)) ≠ none) c d (dirIndex page) t G s G' s' := by
  unfold tableFor
  refine ends_bind ((getPageTable_spec H hd hi).mono ?_)
  rintro _ s' ⟨rfl, G', C, hdata⟩
  cases h : tgt (s'.mem d (dirIndex page)) with
  | some t => exact ends_pure ⟨G', C.hasTable hdata hd hi h⟩
  | none =>
    have hnone : tgt (s.mem d (dirIndex page)) = none := by
      cases hold : tgt (s.mem d (dirIndex page)) with
      | none => rfl
      | some a =>
        obtain ⟨f, hf, -⟩ := C.writable a hold
        rw [hf] at h
        cases h
    obtain rfl : s' = s := C.absent hnone
    refine ends_bind ((allocFrame_spec H).mono fun t s₁ T => ?_)
    have hrow : tgt (s₁.mem d (dirIndex page)) = none := by
      rw [T.row_eq hd (by simp), hnone]
    refine ends_bind (ends_of_eq (setPageTable_eq hrow) (ends_pure ?_))
    obtain ⟨G₁, h₁⟩ := T.hasTable H hd hi hnone (tgt_frame_flags T.lt hzero hpresent)
    have hok : isRw flags = true ∨ tgt (s'.mem d (dirIndex page)) ≠ none →
        isRw (frameAddr t ||| flags) = true := by
      rintro (hrw | hne)
      · rw [isRw_frame_flags T.lt, hrw]
      · exact absurd hnone hne
    exact ⟨G₁, { h₁ with
      toQuiet := h₁.toQuiet.weaken hok
      writable := fun h' => h₁.writable (hok h') }⟩

/-- **A frame in hand becomes a page** of the directory's own table. -/
theorem HasTable.place (h : HasTable ok c d i t G s G' s') (hd : G.kind d = .dir) (hi : isUser i = true)
    (hf : G.kind f = .limbo) (habs : space s d i j = none) (hw : tgt w = some f) :
    PageSet (ok ∧ isRw w = true) c d i j (s.mem f) G s (G'.place f .data w) (s'.setWord t j w) := by
  obtain ⟨hf', hrow⟩ := h.held f hf
  have hd' : G'.kind d = .dir := (h.dirs d).mpr hd
  have hft : f ≠ t := by
    rintro rfl
    simp [h.kind] at hf'
  have hnone : tgt (s'.mem t j) = none := by
    rw [← space_eq_none h.pde, h.spaces d i hd hi, habs]
  refine h.toQuiet.pageSet h.data ⟨h.sound.place_keeps hf' (.inr h.kind) hnone hw
    (.inr ⟨h.kind, rfl, fun _ => h.alone⟩), ?_, fun m hm => ?_, ?_, fun d₁ i₁ j₁ hd₁ hi₁ hne => ?_⟩
  · refine setWord_row ?_
    rintro hz
    have := h.kind
    rw [← hz, h.sound.kind_zero] at this
    cases this
  · by_cases hmf : m = f
    · rw [hmf, place_kind_self]
    · rw [place_kind hmf, hm]
  · rw [h.sound.space_place_page h.kind hw hft hd' hi, if_pos ⟨h.pde, rfl⟩, hrow]
  · rw [h.sound.space_place_page h.kind hw hft hd₁ hi₁, if_neg]
    rintro ⟨ht, rfl⟩
    obtain ⟨rfl, rfl⟩ := h.sound.entry_unique h.alone (.inl ⟨hd₁, hi₁⟩) (.inl ⟨hd', hi⟩) ht h.pde
    exact hne ⟨rfl, rfl, rfl⟩

theorem frameAddr_masked (hf : f < frameLimit) : frameAddr f &&& pgNumMask = frameAddr f := by
  rw [and_pgNumMask, pageNumber_frameAddr hf]

/-- **`map_address` of a frame in hand**, to be written. -/
theorem mapAddress_spec (H : Sound c G s) (hd : G.kind d = .dir)
    (hi : isUser (dirIndex (a / frameSize)) = true) (hzero : pageNumber flags = 0)
    (hpresent : isPresent flags = true) (hrw : isRw flags = true) (hf : G.kind f = .limbo)
    (habs : space s d (dirIndex (a / frameSize)) (tableIndex (a / frameSize)) = none) :
    Ends OutOfFrames (mapAddress a (frameAddr f) flags d) s fun _ s' => ∃ G',
      PageSet True c d (dirIndex (a / frameSize)) (tableIndex (a / frameSize)) (s.mem f) G s G' s' ∧
      Writable s' d (dirIndex (a / frameSize)) (tableIndex (a / frameSize)) ∧ G'.kind f = .data := by
  have hlt : f < frameLimit := H.lt_limit (by simp [hf])
  unfold mapAddress
  refine ends_bind ((tableFor_spec H hd hi hzero hpresent).mono ?_)
  rintro t s₁ ⟨G₁, h⟩
  rw [frameAddr_masked hlt]
  have hw : tgt (frameAddr f ||| flags) = some f := tgt_frame_flags hlt hzero hpresent
  have hw' : isRw (frameAddr f ||| flags) = true := by rw [isRw_frame_flags hlt, hrw]
  have hdt : d ≠ t := by
    rintro rfl
    have := (h.dirs d).mpr hd
    simp [h.kind] at this
  refine ends_of_eq rfl ⟨G₁.place f .data (frameAddr f ||| flags),
    (h.place hd hi hf habs hw).weaken fun _ => ⟨.inl hrw, hw'⟩, ⟨t, f, ?_, ?_, ?_, ?_⟩,
    place_kind_self _ _ _ _⟩
  · rw [setWord_of_ne (.inl hdt), h.pde]
  · rw [setWord_of_ne (.inl hdt), h.writable (.inl hrw)]
  · rw [setWord_self, hw]
  · rw [setWord_self, hw']

theorem setRow_eq_self (h : s.mem f = row) : s.setRow f row = s := by
  rw [Vm.setRow, ← h, update_eq_self]

theorem Sound.space_fill (H : Sound c G s) (hf : G.kind f = .limbo) (hd : G.kind d = .dir)
    (hi : isUser i = true) : space (s.setRow f row) d i = space s d i := by
  have hrow : ∀ m, G.kind m ≠ .limbo → (s.setRow f row).mem m = s.mem m := fun m hm => by
    refine setRow_of_ne ?_
    rintro rfl
    exact hm hf
  refine H.spaces_of_tgts (fun m j hm => ?_) (fun g hg => hrow g ?_) hd hi
  · rw [hrow m]
    rcases hm with hm | hm <;> simp [hm]
  · rcases hg with hg | rfl
    · simp [hg]
    · simp [H.kind_zero]

theorem Sound.fill_pageSet {row' : Row} (H : Sound c G s) (hf : G.kind f = .limbo)
    (P : PageSet ok c d i j row' G (s.setRow f row) G' s') : PageSet ok c d i j row' G s G' s' := by
  have hrow : ∀ m, G.kind m ≠ .limbo → (s.setRow f row).mem m = s.mem m := fun m hm => by
    refine setRow_of_ne ?_
    rintro rfl
    exact hm hf
  have hent : ∀ b, entries G (s.setRow f row) b = entries G s b := entries_congr fun m hm => hrow m <| by
    rcases hm with hm | hm <;> simp [hm]
  have heven : ∀ z, Even c z G s → Even c z G (s.setRow f row) := fun z he =>
    ⟨he.zero, fun b hb hpos => he.rest b hb (by rwa [hent] at hpos)⟩
  refine ⟨⟨P.sound, fun h z hz he => P.even h z hz (heven z he),
    fun h z hz he hl => P.noLeak h z hz (heven z he) ⟨hl.used, ?_⟩, P.hands, P.dirs, fun m hm hz =>
      (P.low m hm hz).trans (hrow m (by simp [H.kind_low hm])), fun d' i' hd' hi' => ?_⟩,
    P.zero.trans (hrow _ (by simp [H.kind_zero])), P.data, P.page, fun d' i' j' hd' hi' hne => ?_⟩
  · intro m hm
    rw [hent]
    exact hl.targeted m hm
  · rw [P.kernel d' i' hd' hi', hrow d' (by simp [hd'])]
  · rw [P.rest d' i' j' hd' hi' hne, H.space_fill hf hd' hi']

/-- **A frame is taken, filled and mapped**, to be written. -/
theorem Taken.map_spec (T : Taken c G s f s₁) (H : Sound c G s) (hd : G.kind d = .dir)
    (hi : isUser (dirIndex (a / frameSize)) = true) (flags : Word) (hzero : pageNumber flags = 0)
    (hpresent : isPresent flags = true) (hrw : isRw flags = true)
    (habs : space s d (dirIndex (a / frameSize)) (tableIndex (a / frameSize)) = none) (row : Row) :
    Ends OutOfFrames (mapAddress a (frameAddr f) flags d) (s₁.setRow f row) fun _ s' => ∃ G',
      PageSet True c d (dirIndex (a / frameSize)) (tableIndex (a / frameSize)) row G s G' s' ∧
      Writable s' d (dirIndex (a / frameSize)) (tableIndex (a / frameSize)) ∧ G'.kind f = .data := by
  have hf := take_kind_self G f
  have hd₁ : (G.take f).kind d = .dir := (T.dirs d).mpr hd
  have S : Sound c (G.take f) (s₁.setRow f row) :=
    T.sound.setRow row (by simp) (by simp) (by simp) (Ne.symm (T.ne_of_lt H.base_lt))
  have habs₁ : space (s₁.setRow f row) d (dirIndex (a / frameSize))
      (tableIndex (a / frameSize)) = none := by
    rw [T.sound.space_fill hf hd₁ hi, T.space_eq H hd hi, habs]
  refine (mapAddress_spec S hd₁ hi hzero hpresent hrw hf habs₁).mono ?_
  rintro _ s' ⟨G', P, hw, hk⟩
  rw [setRow_self] at P
  exact ⟨G', T.pageSet H (T.sound.fill_pageSet hf P) (by simp [hk]), hw, hk⟩

/-! ### The zero frame -/

theorem Pool.zero_lt_limit (H : Pool c G s) : c.zeroFrame < frameLimit := by
  have h1 := H.zero_lt
  have h2 := H.pool_le
  have h3 := H.avail_le
  have h4 := H.limit_le
  omega

/-- The ghost with another number of references to the zero frame. -/
def Ghost.addZero (G : Ghost) (c : Config) (k : ℤ) : Ghost :=
  G.withBias (update G.bias c.zeroFrame (G.bias c.zeroFrame + k))

theorem addZero_bias_self (G : Ghost) (c : Config) (k : ℤ) :
    (G.addZero c k).bias c.zeroFrame = G.bias c.zeroFrame + k := update_self _ _ _

theorem addZero_bias {k : ℤ} (h : n ≠ c.zeroFrame) : (G.addZero c k).bias n = G.bias n := update_of_ne h _ _

/-- **A reference to the zero frame is taken.** -/
theorem Sound.refZero (H : Sound c G s) : Sound c (G.addZero c 1) (s.addCount c.zeroFrame 1) := by
  have hneg : ∀ b, (G.addZero c 1).bias b < 0 → G.bias b < 0 := fun b hb => by
    by_cases hbz : b = c.zeroFrame
    · rw [hbz, addZero_bias_self] at hb
      have := H.zero_bias
      omega
    · rwa [addZero_bias hbz] at hb
  exact {
    chain := H.chain
    nodup := H.nodup
    free_iff := H.free_iff
    range := H.range
    pool_le := H.pool_le
    avail_le := H.avail_le
    limit_le := H.limit_le
    zero_lt := H.zero_lt
    base_lt := H.base_lt
    pde := H.pde
    pte := H.pte
    zero_ro := H.zero_ro
    base := H.base
    balanced := ⟨fun b => by
      have h1 := H.balanced.count_eq b
      by_cases hbz : b = c.zeroFrame
      · rw [hbz] at h1
        rw [hbz, addZero_bias_self, addCount_self, h1]
        exact add_assoc _ _ _
      · rw [addZero_bias hbz, addCount_of_ne hbz, h1]
        rfl, H.balanced.owner, H.balanced.exclusive⟩
    loose := fun b hb => H.loose b (hneg b hb)
    lone := fun t j b hk h hb => H.lone t j b hk h (hneg b hb)
    zero_bias := by
      rw [addZero_bias_self]
      have := H.zero_bias
      omega
    clean := fun b hb => by
      rw [addCount_of_ne (H.ne_idle (.inr (.inr rfl)) hb)]
      exact H.clean b hb }

/-- **The zero frame becomes a page** with a reference of its own. -/
theorem Sound.mapZero (H : Sound c G s) (hk : G.kind t = .table) (h : tgt (s.mem t j) = none)
    (hw : tgt w = some c.zeroFrame) (hr : isRw w = false) :
    Sound c G ((s.addCount c.zeroFrame 1).setWord t j w) := by
  have hbias : 2 ≤ (G.addZero c 1).bias c.zeroFrame := by
    rw [addZero_bias_self]
    have := H.zero_bias
    omega
  have S := H.refZero.putZero hk h hw hr hbias
  have hsame : (G.addZero c 1).withBias (update (G.addZero c 1).bias c.zeroFrame
      ((G.addZero c 1).bias c.zeroFrame - 1)) = G := by
    rw [addZero_bias_self, add_sub_cancel_right]
    simp [Ghost.addZero, Ghost.withBias]
  rwa [hsame] at S

theorem HasTable.mapZero (h : HasTable ok c d i t G s G' s') (hd : G.kind d = .dir) (hi : isUser i = true)
    (habs : space s d i j = none) (hw : tgt w = some c.zeroFrame) (hr : isRw w = false) :
    PageSet ok c d i j (s.mem c.zeroFrame) G s G' ((s'.addCount c.zeroFrame 1).setWord t j w) := by
  have hd' : G'.kind d = .dir := (h.dirs d).mpr hd
  have hzt : c.zeroFrame ≠ t := by
    intro hz
    have := h.kind
    rw [← hz, h.sound.kind_zero] at this
    cases this
  have hnone : tgt (s'.mem t j) = none := by
    rw [← space_eq_none h.pde, h.spaces d i hd hi, habs]
  have S := h.sound.mapZero h.kind hnone hw hr
  have hent : ∀ b, entries G' ((s'.addCount c.zeroFrame 1).setWord t j w) b =
      entries G' s' b + if c.zeroFrame = b then 1 else 0 := fun b => by
    have he := h.sound.entries_put_count (i := j) (.inr h.kind) w c.zeroFrame 1 b
    rw [hnone, hw, if_neg (by simp), Nat.add_zero] at he
    simpa only [Option.some.injEq] using he
  have hkeeps : Keeps True c G' s' G' ((s'.addCount c.zeroFrame 1).setWord t j w) := by
    refine h.sound.keeps_write (.inr h.kind) (fun m hm => setWord_row hm)
      (fun j' hj' => setWord_of_ne (.inr hj')) S
      (fun _ z _ he => ⟨he.zero, fun b hb hpos => he.rest b hb ?_⟩) fun _ z _ _ hl => ⟨hl.used,
        fun m hm => ?_⟩
    · rwa [hent, if_neg (Ne.symm hb), Nat.add_zero] at hpos
    · have := hl.targeted m hm
      rw [hent]
      omega
  -- the counts are not seen
  have hspace : ∀ d₁ i₁ j₁, G'.kind d₁ = .dir → isUser i₁ = true →
      space ((s'.addCount c.zeroFrame 1).setWord t j w) d₁ i₁ j₁ =
        if tgt (s'.mem d₁ i₁) = some t ∧ j₁ = j then some (s'.mem c.zeroFrame) else space s' d₁ i₁ j₁ :=
    fun d₁ i₁ j₁ hd₁ hi₁ => h.sound.space_place_page h.kind hw hzt hd₁ hi₁
  have P : PageSet True c d i j (s'.mem c.zeroFrame) G' s' G'
      ((s'.addCount c.zeroFrame 1).setWord t j w) := by
    refine ⟨hkeeps, setWord_row hzt, fun _ hm => hm, ?_, fun d₁ i₁ j₁ hd₁ hi₁ hne => ?_⟩
    · rw [hspace d i j hd' hi, if_pos ⟨h.pde, rfl⟩]
    · rw [hspace d₁ i₁ j₁ hd₁ hi₁, if_neg]
      rintro ⟨ht, rfl⟩
      obtain ⟨rfl, rfl⟩ := h.sound.entry_unique h.alone (.inl ⟨hd₁, hi₁⟩) (.inl ⟨hd', hi⟩) ht h.pde
      exact hne ⟨rfl, rfl, rfl⟩
  rw [← h.zero]
  exact (h.toQuiet.pageSet h.data P).weaken fun hok => ⟨hok, trivial⟩

/-- **A first read of an anonymous page** maps the zero frame.  The counts stay exact if the region
has a page table. -/
theorem mapZero_spec (H : Sound c G s) (hd : G.kind d = .dir)
    (hi : isUser (dirIndex (a / frameSize)) = true)
    (habs : space s d (dirIndex (a / frameSize)) (tableIndex (a / frameSize)) = none) :
    Ends OutOfFrames (do refZeroFrame c; mapAddress a (frameAddr c.zeroFrame) (flagPr ||| flagUs) d)
      s fun _ s' => ∃ G',
      PageSet (tgt (s.mem d (dirIndex (a / frameSize))) ≠ none) c d (dirIndex (a / frameSize))
        (tableIndex (a / frameSize)) (s.mem c.zeroFrame) G s G' s' := by
  have hlt := H.zero_lt_limit
  have hw : tgt (frameAddr c.zeroFrame ||| (flagPr ||| flagUs)) = some c.zeroFrame :=
    tgt_frame_flags hlt (by decide) (by decide)
  have hr : isRw (frameAddr c.zeroFrame ||| (flagPr ||| flagUs)) = false := by
    rw [isRw_frame_flags hlt]
    decide
  have hblind : Blind c.zeroFrame (tableFor (a / frameSize) (flagPr ||| flagUs) d) s :=
    H.blind_tableFor hd hi (by simp [H.kind_zero])
  refine ends_bind (ends_of_eq rfl ?_)
  unfold mapAddress
  refine ends_bind (hblind.ends 1 ((tableFor_spec H hd hi (by decide) (by decide)).mono ?_))
  rintro t s₁ ⟨G₁, h⟩
  rw [frameAddr_masked hlt]
  exact ends_of_eq rfl ⟨G₁, (h.mapZero hd hi habs hw hr).weaken Or.inr⟩

end Map

/-! ### The walk -/

section Walk

variable {isWrite : Bool}

/-- The walk finds no page, or one that may not be written, or it finds the frame. -/
theorem walk_cases (s : Vm) (d a : ℕ) (isWrite : Bool) :
    space s d (dirIndex (a / frameSize)) (tableIndex (a / frameSize)) = none ∧
    walk s d a isWrite = .error false ∨ ∃ t f, tgt (s.mem d (dirIndex (a / frameSize))) = some t ∧
      tgt (s.mem t (tableIndex (a / frameSize))) = some f ∧
      walk s d a isWrite = if isWrite && !(isRw (s.mem d (dirIndex (a / frameSize))) &&
        isRw (s.mem t (tableIndex (a / frameSize)))) then .error true else .ok f := by
  unfold walk
  cases ht : tgt (s.mem d (dirIndex (a / frameSize))) with
  | none => exact .inl ⟨congrFun (space_none ht) _, by simp only [ht]⟩
  | some t =>
    cases hf : tgt (s.mem t (tableIndex (a / frameSize))) with
    | none => exact .inl ⟨(space_eq_none ht).mpr hf, by simp only [ht, hf]⟩
    | some f => exact .inr ⟨t, f, rfl, hf, by simp only [ht, hf]⟩

theorem walk_absent (h : walk s d a isWrite = .error false) :
    space s d (dirIndex (a / frameSize)) (tableIndex (a / frameSize)) = none := by
  rcases walk_cases s d a isWrite with ⟨hnone, -⟩ | ⟨t, f, -, -, hwalk⟩
  · exact hnone
  · rw [h] at hwalk
    split at hwalk <;> cases hwalk

theorem walk_of_none (h : tgt (s.mem d (dirIndex (a / frameSize))) = none) (isWrite : Bool) :
    walk s d a isWrite = .error false := by
  rcases walk_cases s d a isWrite with ⟨-, hw⟩ | ⟨t, f, ht, -⟩
  · exact hw
  · rw [h] at ht
    cases ht

theorem walk_denied (h : walk s d a isWrite = .error true) :
    isWrite = true ∧ space s d (dirIndex (a / frameSize)) (tableIndex (a / frameSize)) ≠ none := by
  rcases walk_cases s d a isWrite with ⟨-, hwalk⟩ | ⟨t, f, ht, hf, hwalk⟩
  · rw [h] at hwalk
    cases hwalk
  · refine ⟨?_, fun hnone => ?_⟩
    · rw [h] at hwalk
      split at hwalk
      · next hc => exact (Bool.and_eq_true_iff.mp hc).1
      · cases hwalk
    · rw [space_eq_none ht, hf] at hnone
      cases hnone

end Walk

/-! ### `wrapped_page_fault` -/

section Fault

variable {isWrite fromUser : Bool} {backing : Backing}

theorem dirIndex_isUser (hlow : userMemStart ≤ a) (hhigh : a < sharedAddress) :
    isUser (dirIndex (a / frameSize)) = true := by
  unfold userMemStart at hlow
  unfold sharedAddress at hhigh
  have hpage : a / frameSize < 2 ^ 20 := by
    unfold frameSize
    omega
  rw [isUser_iff, dirIndex_val hpage]
  unfold frameSize
  omega

theorem wrappedPageFault_eq (hlow : userMemStart ≤ a) (hhigh : a < sharedAddress) (isPresent : Bool) :
    wrappedPageFault c d a isPresent isWrite fromUser backing =
      if isPresent && isWrite then do
        let pageTable ← getPageTable (a / frameSize) d
        match pageTable with
        | none => throw .nullPointer
        | some t =>
          copy t (tableIndex (a / frameSize)) false
          return .returned
      else
        match backing with
        | .unmapped => return if fromUser then .segfault else .rerun
        | .file contents => do
          let f ← allocFrame
          storeRow f contents
          mapAddress a (frameAddr f) (flagPr ||| flagRw ||| flagUs) d
          return .returned
        | .anonymous =>
          if isWrite then do
            let f ← allocFrame
            mapAddress a (frameAddr f) (flagPr ||| flagRw ||| flagUs) d
            return .returned
          else do
            refZeroFrame c
            mapAddress a (frameAddr c.zeroFrame) (flagPr ||| flagUs) d
            return .returned := by
  have hin : ¬ (a < userMemStart ∨ a ≥ userMemEnd) := by
    unfold userMemEnd
    omega
  exact if_neg hin

/-- **A write to a page that is there** and may not be written yet: the directory gets its own
table, and the table its own frame.  The user sees nothing of it. -/
theorem pageFault_present (H : Sound c G s) (hd : G.kind d = .dir) (hlow : userMemStart ≤ a)
    (hhigh : a < sharedAddress)
    (hpage : space s d (dirIndex (a / frameSize)) (tableIndex (a / frameSize)) ≠ none) :
    Ends OutOfFrames (wrappedPageFault c d a true true fromUser backing) s fun e s' => e = .returned ∧
      ∃ G', Quiet True c G s G' s' ∧
        Writable s' d (dirIndex (a / frameSize)) (tableIndex (a / frameSize)) := by
  have hi := dirIndex_isUser hlow hhigh
  rw [wrappedPageFault_eq hlow hhigh, if_pos rfl]
  refine ends_bind ((getPageTable_spec H hd hi).mono ?_)
  rintro _ s₁ ⟨rfl, G₁, C, hdata⟩
  have hd₁ : G₁.kind d = .dir := C.kind.trans hd
  rw [← C.spaces d _ hd hi] at hpage
  cases ht : tgt (s₁.mem d (dirIndex (a / frameSize))) with
  | none => exact absurd (congrFun (space_none ht) _) hpage
  | some t =>
    have h : HasTable True c d (dirIndex (a / frameSize)) t G s G₁ s₁ := C.hasTable hdata hd hi ht
    have hcopy := copy_spec C.sound (i := tableIndex (a / frameSize)) (.inr h.kind)
    rw [decide_eq_false (by simp [h.kind])] at hcopy
    refine ends_bind (hcopy.mono ?_)
    rintro _ s₂ ⟨G₂, C₂, -⟩
    have hdt : d ≠ t := by
      rintro rfl
      simp [h.kind] at hd₁
    have hpde := C₂.others d (dirIndex (a / frameSize)) hd₁ (.inl hdt)
    obtain ⟨g, hg⟩ := Option.ne_none_iff_exists'.mp fun hnone => hpage ((space_eq_none ht).mpr hnone)
    obtain ⟨f, hf, hrw⟩ := C₂.writable g hg
    exact ends_pure ⟨rfl, G₂, (C.toQuiet.trans C₂.toQuiet).weaken fun _ => ⟨trivial, trivial⟩,
      t, f, hpde ▸ ht, hpde ▸ h.writable trivial, hf, hrw⟩

/-- The contents of a page after its first access. -/
def Backing.contents (zero : Row) (isWrite : Bool) : Backing → Option Row
  | .unmapped => none
  | .file contents => some contents
  | .anonymous => some (if isWrite then fun _ => 0#32 else zero)

/-- A first read of an anonymous page, in a region that has no page table. -/
def FreshRead (s : Vm) (d a : ℕ) (isWrite : Bool) (backing : Backing) : Prop :=
  isWrite = false ∧ backing = .anonymous ∧ tgt (s.mem d (dirIndex (a / frameSize))) = none

/-- **A first access to a page**: it gets its contents, if it has any. -/
theorem pageFault_absent (H : Sound c G s) (hd : G.kind d = .dir) (hlow : userMemStart ≤ a)
    (hhigh : a < sharedAddress)
    (habs : space s d (dirIndex (a / frameSize)) (tableIndex (a / frameSize)) = none) :
    Ends OutOfFrames (wrappedPageFault c d a false isWrite fromUser backing) s fun e s' =>
      match backing.contents (s.mem c.zeroFrame) isWrite with
      | none => e = (if fromUser then .segfault else .rerun) ∧ s' = s
      | some row => e = .returned ∧ ∃ G',
        PageSet (¬ FreshRead s d a isWrite backing) c d (dirIndex (a / frameSize))
          (tableIndex (a / frameSize)) row
          G s G' s' ∧
        (isWrite = true → Writable s' d (dirIndex (a / frameSize)) (tableIndex (a / frameSize))) := by
  have hi := dirIndex_isUser hlow hhigh
  rw [wrappedPageFault_eq hlow hhigh, Bool.false_and, if_neg Bool.false_ne_true]
  cases backing with
  | unmapped => exact ends_pure ⟨rfl, rfl⟩
  | file contents =>
    refine ends_bind ((allocFrame_spec H).mono fun f s₁ T => ends_bind (ends_of_eq rfl ?_))
    refine ends_bind ((T.map_spec H hd hi _ (by decide) (by decide) (by decide) habs contents).mono ?_)
    rintro _ s' ⟨G', P, hw, -⟩
    exact ends_pure ⟨rfl, G', P.weaken fun _ => trivial, fun _ => hw⟩
  | anonymous =>
    cases isWrite with
    | true =>
      refine ends_bind ((allocFrame_spec H).mono fun f s₁ T => ?_)
      have hmap := T.map_spec H hd hi (flagPr ||| flagRw ||| flagUs) (by decide) (by decide)
        (by decide) habs (fun _ => 0#32)
      rw [setRow_eq_self T.row] at hmap
      refine ends_bind (hmap.mono ?_)
      rintro _ s' ⟨G', P, hw, -⟩
      exact ends_pure ⟨rfl, G', P.weaken fun _ => trivial, fun _ => hw⟩
    | false =>
      have hzero := mapZero_spec H hd hi habs
      rw [if_neg Bool.false_ne_true, ← bind_assoc]
      refine ends_bind (hzero.mono ?_)
      rintro _ s' ⟨G', P⟩
      exact ends_pure ⟨rfl, G', P.weaken fun hfresh hnone => hfresh ⟨rfl, rfl, hnone⟩, fun h => by cases h⟩

end Fault

end GheithOS.Vmm
