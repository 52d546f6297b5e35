import GheithOS.Vmm.Directories

/-!
# GheithOS.Vmm.EagerClone — `clone_directory_no_cow`

The eager clone writes to no frame that was in use before: what it fills are frames that it takes
from the pool.  So every directory shows what it showed, and the new one shows what the old one
shows, in tables and frames of its own.  `Cloned` is what both ways to clone a directory have in
common.
-/

namespace GheithOS.Vmm

open Cow Lib

variable {c : Config} {G G' G'' : Ghost} {s s₁ s' s'' : Vm} {z : ℤ} {n m d e t t' f x : ℕ}
  {i i' j j' : Index} {w : Word}

/-! ### Frames that were in use stay as they are -/

section Apart

/-- The frame has been taken from the pool and not been given back. -/
def Ghost.InUse (G : Ghost) (n : ℕ) : Prop := G.kind n ≠ .free ∧ G.kind n ≠ .out

theorem inUse_of_holder (h : G.kind n = .dir ∨ G.kind n = .table) : G.InUse n := by
  rcases h with h | h <;> simp [Ghost.InUse, h]

/-- **Only `x`, and frames that were not in use, have been written.** -/
structure Apart (c : Config) (x : ℕ) (G : Ghost) (s : Vm) (G' : Ghost) (s' : Vm) : Prop where
  sound : Sound c G' s'
  kinds : ∀ n, G.InUse n → G'.kind n = G.kind n
  rows : ∀ n, n ≠ x → G.InUse n ∨ n < c.pool → s'.mem n = s.mem n

theorem Apart.refl (H : Sound c G s) : Apart c x G s G s := ⟨H, fun _ _ => rfl, fun _ _ _ => rfl⟩

theorem Apart.inUse (A : Apart c x G s G' s') (h : G.InUse n) : G'.InUse n := by
  rw [Ghost.InUse, A.kinds n h]
  exact h

theorem Apart.trans (A : Apart c x G s G' s') (B : Apart c x G' s' G'' s'') : Apart c x G s G'' s'' where
  sound := B.sound
  kinds n hn := (B.kinds n (A.inUse hn)).trans (A.kinds n hn)
  rows n hx hn := (B.rows n hx (hn.imp_left A.inUse)).trans (A.rows n hx hn)

theorem Apart.row_target (A : Apart c x G s G' s') (H : Sound c G s)
    (hx : G.kind x = .dir ∨ G.kind x = .table) (hf : G.kind f = .data ∨ f = c.zeroFrame) :
    s'.mem f = s.mem f := by
  rcases hf with hf | rfl
  · refine A.rows f ?_ (.inl (by simp [Ghost.InUse, hf]))
    rintro rfl
    rcases hx with hx | hx <;> simp [hf] at hx
  · refine A.rows _ ?_ (.inr H.zero_lt)
    rintro rfl
    rcases hx with hx | hx <;> simp [H.kind_zero] at hx

theorem Apart.shows_eq (A : Apart c x G s G' s') (H : Sound c G s)
    (hx : G.kind x = .dir ∨ G.kind x = .table) (ht : G.kind t = .table) (hne : t ≠ x) :
    shows s' t = shows s t := by
  refine H.shows_congr ht (fun j => ?_) fun f hf => A.row_target H hx hf
  rw [A.rows t hne (.inl (inUse_of_holder (.inr ht)))]

theorem Apart.shows_entry (A : Apart c x G s G' s') (H : Sound c G s) (hx : G.kind x = .table)
    (h : s'.mem x j = s.mem x j) : shows s' x j = shows s x j := by
  rw [shows, shows, h]
  cases hf : tgt (s.mem x j) with
  | none => rfl
  | some f => exact congrArg some (A.row_target H (.inr hx) (H.pte hx hf).symm)

theorem Apart.space_entry (A : Apart c x G s G' s') (H : Sound c G s) (hx : G.kind x = .dir)
    (hi : isUser i = true) (h : s'.mem x i = s.mem x i) : space s' x i = space s x i := by
  cases ht : tgt (s.mem x i) with
  | none => rw [space_none ht, space_none (h ▸ ht)]
  | some t =>
    have hk := H.pde hx hi ht
    have hne : t ≠ x := by
      rintro rfl
      simp [hx] at hk
    rw [space_eq ht, space_eq (h ▸ ht), A.shows_eq H (.inl hx) hk hne]

/-- Other directories. -/
theorem Apart.space_eq (A : Apart c x G s G' s') (H : Sound c G s) (hx : G.kind x = .dir)
    (hd : G.kind d = .dir) (hne : d ≠ x) (hi : isUser i = true) : space s' d i = space s d i := by
  refine H.space_congr hd hi ?_ fun t ht => A.shows_eq H (.inl hx) ht ?_
  · rw [A.rows d hne (.inl (inUse_of_holder (.inl hd)))]
  · rintro rfl
    simp [hx] at ht

/-- **An entry of `x` is written** that targets nothing, before and after, or that is not
counted. -/
theorem Sound.apart_write (H : Sound c G s) (hx : G.kind x = .dir ∨ G.kind x = .table)
    (h : Holds G x i → tgt (s.mem x i) = none ∧ tgt w = none) : Apart c x G s G (s.setWord x i w) := by
  have hbase : c.baseDirectory ≠ x := by
    rintro rfl
    rcases hx with hx | hx <;> simp [H.kind_base] at hx
  refine ⟨H.of_slots (fun m _ => ?_) (fun m hm => setWord_row ?_) (setWord_row hbase) rfl rfl rfl rfl,
    fun _ _ => rfl, fun n hn _ => setWord_row hn⟩
  · funext i'
    by_cases hm : m = x ∧ i' = i
    · obtain ⟨rfl, rfl⟩ := hm
      rw [slot, slot, setWord_self]
      split_ifs with hk
      · rfl
      · have hh : Holds G m i' := hx.imp_left fun hd => ⟨hd, by
          by_contra hu
          exact hk ⟨hd, by simpa using hu⟩⟩
        rw [entryRef_eq_none.mpr (h hh).1, entryRef_eq_none.mpr (h hh).2]
    · rw [slot, slot, setWord_of_ne (by
        by_contra hc
        push Not at hc
        exact hm hc)]
  · rintro rfl
    rcases hx with hx | hx <;> simp [hm] at hx

end Apart

/-! ### A page table -/

section Table

/-- **Entry `j` of the table `new` is a copy** of that of `current`; nothing targets `new` yet. -/
structure PageCopied (c : Config) (current new : ℕ) (j : Index) (G : Ghost) (s : Vm) (G' : Ghost)
    (s' : Vm) : Prop
    extends Apart c new G s G' s' where
  others : ∀ j', j' ≠ j → s'.mem new j' = s.mem new j'
  page : shows s' new j = shows s current j
  alone : entries G s new = 0 → entries G' s' new = 0
  count : s'.refCounts new = s.refCounts new

theorem Taken.pageCopied {row : Row} (T : Taken c G s f s₁) (ht : G.kind t = .table)
    (h0 : entries G s t = 0) (h : tgt (s.mem t j) = none) (hw : tgt w = some f)
    (hpage : shows s t' j = some row) :
    ∃ G', PageCopied c t' t j G s G' ((s₁.setRow f row).setWord t j w) := by
  have htf : t ≠ f := T.ne ht (by simp)
  have ht₁ : (G.take f).kind t = .table := (take_kind htf).trans ht
  have hbase : f ≠ c.baseDirectory := by
    rintro rfl
    exact absurd T.sound.base_lt (by have := T.pool_le; omega)
  have S : Sound c (G.take f) (s₁.setRow f row) := T.sound.setRow row (by simp) (by simp) (by simp) hbase
  have hent : ∀ b, entries (G.take f) (s₁.setRow f row) b = entries G s b := fun b => by
    rw [← T.same b]
    refine entries_congr (fun m hm => setRow_of_ne ?_) b
    rintro rfl
    simp at hm
  have hnone : tgt ((s₁.setRow f row).mem t j) = none := by
    rw [setRow_of_ne htf, T.rows t htf]
    exact h
  obtain ⟨S', E⟩ := S.place (take_kind_self G f) (.inr ht₁) hnone hw
      (.inr ⟨ht₁, rfl, fun _ => by rw [hent, h0]; omega⟩)
  refine ⟨_, ⟨S', fun n hn => ?_, fun n hn hn' => ?_⟩, fun j' hj => ?_, ?_, fun _ => ?_, ?_⟩
  · have hnf : n ≠ f := T.ne rfl hn
    rw [place_kind hnf, take_kind hnf]
  · have hnf : n ≠ f := hn'.elim (fun hn' => T.ne rfl hn') T.ne_of_lt
    rw [setWord_row hn, setRow_of_ne hnf, T.rows n hnf]
  · rw [setWord_of_ne (.inr hj), setRow_of_ne htf, T.rows t htf]
  · rw [shows, setWord_self, hw, hpage]
    show some ((((s₁.setRow f row).setWord t j w)).mem f) = some row
    rw [setWord_row (Ne.symm htf), setRow_self]
  · rw [E, hent, h0, if_neg htf]
  · show s₁.refCounts t = s.refCounts t
    rw [T.counts]

theorem copyPage_spec (H : Sound c G s) (hcur : G.kind t' = .table) (ht : G.kind t = .table)
    (h0 : entries G s t = 0) (h : tgt (s.mem t j) = none) :
    Ends OutOfFrames (do
      let ptEntry ← load t' j
      if isPresent ptEntry = false then store t j ptEntry
      else
        let newDataFrame ← allocFrame
        let data ← loadRow (pageNumber ptEntry)
        storeRow newDataFrame data
        store t j (frameAddr newDataFrame ||| (ptEntry &&& flagsMask))) s fun _ s' =>
      ∃ G', PageCopied c t' t j G s G' s' := by
  refine ends_bind (ends_of_eq rfl ?_)
  split_ifs with hp
  · have hnone : tgt (s.mem t' j) = none := tgt_eq_none.mpr hp
    refine ends_of_eq rfl ⟨G, H.apart_write (.inr ht) fun _ => ⟨h, hnone⟩,
      fun j' hj => setWord_of_ne (.inr hj), ?_, fun _ => ?_, rfl⟩
    · rw [shows, shows, setWord_self, hnone]
      rfl
    · have he := H.entries_put_count (i := j) (.inr ht) (s.mem t' j) 0 0 t
      rw [h, hnone, if_neg (by simp), Nat.add_zero, Nat.add_zero] at he
      rw [← h0, ← he]
      exact entries_congr (fun _ _ => rfl) t
  · have hp' : isPresent (s.mem t' j) = true := by simpa using hp
    have htgt : tgt (s.mem t' j) = some (pageNumber (s.mem t' j)) := tgt_eq_some.mpr ⟨hp', rfl⟩
    refine ends_bind ((allocFrame_spec H).mono fun f s₁ T => ends_bind (ends_of_eq rfl ?_))
    refine ends_bind (ends_of_eq rfl (ends_of_eq rfl ?_))
    refine T.pageCopied ht h0 h (tgt_reframe T.lt hp') ?_
    rw [shows, htgt]
    refine congrArg some (T.rows _ ?_).symm
    rcases H.pte hcur htgt with hz | hk
    · rw [hz]
      exact T.ne_zero H
    · exact T.ne hk (by simp)

/-- **The pages of a table**, but for those with the indices `js`, have been copied. -/
structure TableCopied (c : Config) (current new : ℕ) (js : List Index) (G : Ghost) (s : Vm)
    (G' : Ghost) (s' : Vm) : Prop
    extends Apart c new G s G' s' where
  alone : entries G' s' new = 0
  count : s'.refCounts new = s.refCounts new
  done : ∀ j, j ∉ js → shows s' new j = shows s current j
  todo : ∀ j ∈ js, tgt (s'.mem new j) = none
  nodup : js.Nodup

theorem TableCopied.turn {js : List Index} (C : TableCopied c t' t (j :: js) G s G' s')
    (H : Sound c G s) (hcur : G.kind t' = .table) (ht : G.kind t = .table) (hne : t' ≠ t)
    (P : PageCopied c t' t j G' s' G'' s'') : TableCopied c t' t js G s G'' s'' := by
  have ht' : G'.kind t = .table := (C.kinds t (inUse_of_holder (.inr ht))).trans ht
  obtain ⟨hj, hnodup⟩ := List.nodup_cons.mp C.nodup
  refine ⟨C.toApart.trans P.toApart, P.alone C.alone, P.count.trans C.count, fun j' hj' => ?_,
    fun j' hj' => ?_, hnodup⟩
  · by_cases hjj : j' = j
    · rw [hjj, P.page, C.toApart.shows_eq H (.inr ht) hcur hne]
    · rw [P.toApart.shows_entry C.sound ht' (P.others j' hjj), C.done j' (by simp [hjj, hj'])]
  · rw [P.others j' (ne_of_mem_of_not_mem hj' hj)]
    exact C.todo j' (List.mem_cons_of_mem _ hj')

/-- **The copy of a table** shows the same pages. -/
theorem copyTable_spec (H : Sound c G s) (hcur : G.kind t' = .table) (ht : G.kind t = .table)
    (h0 : entries G s t = 0) (hempty : ∀ j, tgt (s.mem t j) = none) (hne : t' ≠ t) :
    Ends OutOfFrames (copyTable t' t) s fun _ s' => ∃ G', TableCopied c t' t [] G s G' s' := by
  unfold copyTable
  have hstart : TableCopied c t' t (List.finRange 1024) G s G s :=
    ⟨Apart.refl H, h0, rfl, fun j hj => absurd (List.mem_finRange j) hj, fun j _ => hempty j,
      List.nodup_finRange _⟩
  generalize List.finRange 1024 = js at hstart ⊢
  apply ends_forM (fun js s' => ∃ G', TableCopied c t' t js G s G' s') ?_ js ⟨G, hstart⟩
  rintro j js s' ⟨G', C⟩
  have hkind : ∀ {n}, G.kind n = .table → G'.kind n = .table := fun hn =>
    (C.kinds _ (inUse_of_holder (.inr hn))).trans hn
  refine (copyPage_spec C.sound (hkind hcur) (hkind ht) C.alone (C.todo j List.mem_cons_self)).mono ?_
  rintro - s'' ⟨G'', P⟩
  exact ⟨G'', C.turn H hcur ht hne P⟩

end Table

/-! ### A directory -/

section Directory

/-- **Entry `i` of the directory `e` is a copy** of that of `d`. -/
structure EntryCopied (c : Config) (d e : ℕ) (i : Index) (G : Ghost) (s : Vm) (G' : Ghost) (s' : Vm) : Prop
    extends Apart c e G s G' s' where
  others : ∀ i', i' ≠ i → s'.mem e i' = s.mem e i'
  kernel : isUser i = false → s'.mem e i = s.mem d i
  user : isUser i = true → space s' e i = space s d i

theorem Taken.table (T : Taken c G s t s₁) (H : Sound c G s) :
    Apart c e G s ((G.take t).setKind t .table) s₁ ∧
    entries ((G.take t).setKind t .table) s₁ t = 0 ∧ s₁.refCounts t = 0 := by
  have hcount : s₁.refCounts t = 0 := by
    rw [T.counts]
    exact T.count
  have h0 : entries (G.take t) s₁ t = 0 := (T.same t).trans (H.not_targeted T.kind T.pool_le)
  obtain ⟨S, E⟩ := T.sound.setKind (f := t) (k := .table) (by simp) (by simp) (by simp) h0 hcount
    (fun i hi => by simp [Holds] at hi) (fun i _ => by rw [T.row]; exact tgt_zero)
  refine ⟨⟨S, fun n hn => ?_, fun n _ hn => ?_⟩, (E t).trans h0, hcount⟩
  · have hnt := T.ne rfl hn
    rw [setKind_of_ne hnt, take_kind hnt]
  · exact T.rows n (hn.elim (fun hn => T.ne rfl hn) T.ne_of_lt)

theorem TableCopied.entryCopied (C : TableCopied c t' t [] G s G' s') (he : G.kind e = .dir)
    (ht : G.kind t = .table) (hcount : s.refCounts t = 0) (hi : isUser i = true)
    (h : tgt (s.mem e i) = none) (hd : tgt (s.mem d i) = some t') (hw : tgt w = some t) :
    ∃ G'', Sound c G'' (s'.setWord e i w) ∧ G''.kind = G'.kind ∧
      space (s'.setWord e i w) e i = space s d i := by
  have hkind : ∀ {n}, G.kind n = .dir ∨ G.kind n = .table → G'.kind n = G.kind n :=
    fun hn => C.kinds _ (inUse_of_holder hn)
  have he' : G'.kind e = .dir := (hkind (.inl he)).trans he
  have ht' : G'.kind t = .table := (hkind (.inr ht)).trans ht
  have het : e ≠ t := by
    rintro rfl
    simp [he] at ht
  have hnone : tgt (s'.mem e i) = none := by
    rw [C.rows e het (.inl (inUse_of_holder (.inl he)))]
    exact h
  have hfresh : Fresh G' s' e t :=
    ⟨fun _ => ht', fun hk => by simp [he'] at hk, C.alone, C.count.trans hcount⟩
  refine ⟨_, C.sound.putFresh (.inl ⟨he', hi⟩) hnone hfresh hw fun _ hk => by simp [he'] at hk, rfl, ?_⟩
  have hshows : shows (s'.setWord e i w) t = shows s' t := by
    refine C.sound.shows_congr ht' (fun j => by rw [setWord_row (Ne.symm het)]) fun f hf => setWord_row ?_
    rintro rfl
    rcases hf with hf | rfl
    · simp [he'] at hf
    · simp [C.sound.kind_zero] at he'
  have hpde : tgt ((s'.setWord e i w).mem e i) = some t := by rw [setWord_self, hw]
  rw [space_eq hpde, space_eq hd, hshows]
  funext j
  exact C.done j (by simp)

/-- One turn of the loop over a directory. -/
theorem copyEntry_spec (H : Sound c G s) (hd : G.kind d = .dir) (he : G.kind e = .dir)
    (h : isUser i = true → tgt (s.mem e i) = none) :
    Ends OutOfFrames (do
      let dirEntry ← load d i
      if isPresent dirEntry = false ∨ isUser i = false then store e i dirEntry
      else
        let newPtFrame ← allocFrame
        copyTable (pageNumber dirEntry) newPtFrame
        store e i (frameAddr newPtFrame ||| (dirEntry &&& flagsMask))) s fun _ s' =>
      ∃ G', EntryCopied c d e i G s G' s' := by
  refine ends_bind (ends_of_eq rfl ?_)
  split_ifs with hp
  · have hnone : isUser i = true → tgt (s.mem d i) = none := fun hi =>
      tgt_eq_none.mpr (hp.resolve_right (by simp [hi]))
    refine ends_of_eq rfl ⟨G, H.apart_write (.inl he) fun hh => ⟨h (hh.user he), hnone (hh.user he)⟩,
      fun i' hi => setWord_of_ne (.inr hi), fun _ => setWord_self _ _ _ _, fun hi => ?_⟩
    rw [space_none (hnone hi), space_none ((congrArg tgt (setWord_self _ _ _ _)).trans (hnone hi))]
  · obtain ⟨hp', hi⟩ : isPresent (s.mem d i) = true ∧ isUser i = true := by simpa using hp
    have htgt : tgt (s.mem d i) = some (pageNumber (s.mem d i)) := tgt_eq_some.mpr ⟨hp', rfl⟩
    have hcur := H.pde hd hi htgt
    refine ends_bind ((allocFrame_spec H).mono fun t s₁ T => ends_bind ?_)
    obtain ⟨A, h0, hcount⟩ := T.table (e := e) H
    have ht : ((G.take t).setKind t .table).kind t = .table := setKind_self _ _ _
    have hcur₁ : ((G.take t).setKind t .table).kind (pageNumber (s.mem d i)) = .table :=
      (A.kinds _ (inUse_of_holder (.inr hcur))).trans hcur
    have hne : pageNumber (s.mem d i) ≠ t := T.ne hcur (by simp)
    have het : e ≠ t := T.ne he (by simp)
    have hdt : d ≠ t := T.ne hd (by simp)
    refine (copyTable_spec A.sound hcur₁ ht h0 (fun j => by rw [T.row]; exact tgt_zero) hne).mono ?_
    rintro - s₂ ⟨G₂, C⟩
    have he₁ := (A.kinds e (inUse_of_holder (.inl he))).trans he
    obtain ⟨G₃, S, hkind, hspace⟩ := C.entryCopied (d := d) he₁ ht hcount hi
      (by rw [T.rows e het]; exact h hi) (by rw [T.rows d hdt]; exact htgt) (tgt_reframe T.lt hp')
    refine ends_of_eq rfl ⟨G₃, ⟨S, fun n hn => ?_, fun n hn hn' => ?_⟩, fun i' hi' => ?_,
      fun hi' => ?_, fun _ => ?_⟩
    · rw [hkind, C.kinds n (A.inUse hn), A.kinds n hn]
    · have hnt : n ≠ t := hn'.elim (fun hn' => T.ne rfl hn') T.ne_of_lt
      rw [setWord_row hn, C.rows n hnt (hn'.imp_left A.inUse), T.rows n hnt]
    · rw [setWord_of_ne (.inr hi'), C.rows e het (.inl (A.inUse (inUse_of_holder (.inl he)))), T.rows e het]
    · simp [hi] at hi'
    · rw [hspace, T.space_eq H hd hi]

/-- **The entries of a directory**, but for those with the indices `is`, have been copied. -/
structure DirCopied (c : Config) (d e : ℕ) (is : List Index) (G : Ghost) (s : Vm) (G' : Ghost)
    (s' : Vm) : Prop
    extends Apart c e G s G' s' where
  kernel : ∀ i, i ∉ is → isUser i = false → s'.mem e i = s.mem d i
  user : ∀ i, i ∉ is → isUser i = true → space s' e i = space s d i
  todo : ∀ i ∈ is, isUser i = true → tgt (s'.mem e i) = none
  nodup : is.Nodup

theorem DirCopied.turn {is : List Index} (C : DirCopied c d e (i :: is) G s G' s') (H : Sound c G s)
    (hd : G.kind d = .dir) (he : G.kind e = .dir) (hne : d ≠ e) (E : EntryCopied c d e i G' s' G'' s'') :
    DirCopied c d e is G s G'' s'' := by
  have he' : G'.kind e = .dir := (C.kinds e (inUse_of_holder (.inl he))).trans he
  obtain ⟨hi, hnodup⟩ := List.nodup_cons.mp C.nodup
  refine ⟨C.toApart.trans E.toApart, fun i' hi' hu => ?_, fun i' hi' hu => ?_, fun i' hi' hu => ?_, hnodup⟩
  · by_cases hii : i' = i
    · rw [hii, E.kernel (hii ▸ hu), C.rows d hne (.inl (inUse_of_holder (.inl hd)))]
    · rw [E.others i' hii, C.kernel i' (by simp [hii, hi']) hu]
  · by_cases hii : i' = i
    · rw [hii, E.user (hii ▸ hu), C.toApart.space_eq H he hd hne (hii ▸ hu)]
    · rw [E.toApart.space_entry C.sound he' hu (E.others i' hii), C.user i' (by simp [hii, hi']) hu]
  · rw [E.others i' (ne_of_mem_of_not_mem hi' hi)]
    exact C.todo i' (List.mem_cons_of_mem _ hi') hu

theorem noCowLoop_spec (H : Sound c G s) (hd : G.kind d = .dir) (he : G.kind e = .dir) (hne : d ≠ e)
    (hempty : ∀ i, tgt (s.mem e i) = none) :
    Ends OutOfFrames (noCowLoop d e) s fun _ s' => ∃ G', DirCopied c d e [] G s G' s' := by
  have hstart : DirCopied c d e (List.finRange 1024) G s G s :=
    ⟨Apart.refl H, fun i hi => absurd (List.mem_finRange i) hi,
      fun i hi => absurd (List.mem_finRange i) hi, fun i _ _ => hempty i, List.nodup_finRange _⟩
  unfold noCowLoop
  generalize List.finRange 1024 = is at hstart ⊢
  apply ends_forM (fun is s' => ∃ G', DirCopied c d e is G s G' s') ?_ is ⟨G, hstart⟩
  rintro i is s' ⟨G', C⟩
  have hkind : ∀ {n}, G.kind n = .dir → G'.kind n = .dir :=
    fun hn => (C.kinds _ (inUse_of_holder (.inl hn))).trans hn
  refine (copyEntry_spec C.sound (hkind hd) (hkind he) (C.todo i List.mem_cons_self)).mono ?_
  rintro - s'' ⟨G'', E⟩
  exact ⟨G'', C.turn H hd he hne E⟩

end Directory

/-! ### Clones -/

/-- **`e` is a clone of `d`**, which itself is as before. -/
structure Cloned (c : Config) (d e : ℕ) (s : Vm) (G' : Ghost) (s' : Vm) : Prop where
  sound : Sound c G' s'
  old : G'.kind d = .dir
  new : G'.kind e = .dir
  ne : d ≠ e
  low : ∀ n, n < c.pool → s'.mem n = s.mem n
  kernel : ∀ i, isUser i = false → s'.mem d i = s.mem d i ∧ s'.mem e i = s.mem d i
  spaces : ∀ i, isUser i = true → space s' d i = space s d i ∧ space s' e i = space s d i

theorem cloneDirectory_cloned (H : Sound c G s) (he : Even c z G s) (hz : 1 ≤ z) (hd : G.kind d = .dir) :
    Ends OutOfFrames (cloneDirectory d) s fun e s' => ∃ G', Cloned c d e s G' s' := by
  apply (cloneDirectory_added H he hz hd).mono
  rintro e s' ⟨G', A, hkernel, hspace⟩
  refine ⟨G', A.sound, (A.dirs d).mpr (.inl hd), (A.dirs e).mpr (.inr rfl), ?_, A.low,
    fun i hi => ⟨A.kernel d i hd hi, hkernel i hi⟩, fun i hi => ⟨A.spaces d i hd hi, (hspace i hi).1⟩⟩
  rintro rfl
  exact A.fresh hd

/-- **`clone_directory_no_cow`** returns a clone, whatever the reference counts. -/
theorem cloneDirectoryNoCow_cloned (H : Sound c G s) (hd : G.kind d = .dir) :
    Ends OutOfFrames (cloneDirectoryNoCow d) s fun e s' => ∃ G', Cloned c d e s G' s' := by
  unfold cloneDirectoryNoCow
  apply ends_bind
  apply (allocFrame_spec H).mono
  intro e s₁ T
  have hne : d ≠ e := T.ne hd (by simp)
  have hempty : ∀ i, tgt (s₁.mem e i) = none := fun i => by
    rw [T.row]
    exact tgt_zero
  have h0 : entries (G.take e) s₁ e = 0 := (T.same e).trans (H.not_targeted T.kind T.pool_le)
  have hcount : s₁.refCounts e = 0 := by
    rw [T.counts]
    exact T.count
  obtain ⟨S, -⟩ := T.sound.setKind (f := e) (k := .dir) (by simp) (by simp) (by simp) h0 hcount
    (fun i hi => by simp [Holds] at hi) (fun i _ => hempty i)
  have hd₁ : ((G.take e).setKind e .dir).kind d = .dir :=
    (setKind_of_ne hne).trans ((take_kind hne).trans hd)
  have he₁ : ((G.take e).setKind e .dir).kind e = .dir := setKind_self _ _ _
  refine ends_bind ((noCowLoop_spec S hd₁ he₁ hne hempty).mono ?_)
  rintro - s' ⟨G', C⟩
  have hkind : ∀ {n}, ((G.take e).setKind e .dir).kind n = .dir → G'.kind n = .dir := fun hn =>
    (C.kinds _ (inUse_of_holder (.inl hn))).trans hn
  have hold : s'.mem d = s.mem d := (C.rows d hne (.inl (inUse_of_holder (.inl hd₁)))).trans (T.rows d hne)
  refine ends_pure ⟨G', C.sound, hkind hd₁, hkind he₁, hne, fun n hn => ?_, fun i hi => ⟨?_, ?_⟩,
    fun i hi => ⟨?_, ?_⟩⟩
  · exact (C.rows n (T.ne_of_lt hn) (.inr hn)).trans (T.rows n (T.ne_of_lt hn))
  · rw [hold]
  · rw [C.kernel i (by simp) hi, T.rows d hne]
  · rw [C.toApart.space_eq S he₁ hd₁ hne hi, T.space_eq H hd hi]
  · rw [C.user i (by simp) hi, T.space_eq H hd hi]

end GheithOS.Vmm
