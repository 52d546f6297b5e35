import GheithOS.Vmm.Double

/-!
# GheithOS.Vmm.Copy — `COW::copy`, and what a user cannot see

`space` is what a directory shows: the contents behind each user page.  An operation is `Quiet` if
it keeps the invariant and changes no space; taking a frame is, and so is `COW::copy`, whether it
flips `FLAG_RW`, copies a frame of data or copies a page table.
-/

namespace GheithOS.Vmm

open Cow Lib

variable {c : Config} {G G' G'' : Ghost} {s s₁ s' s'' : Vm} {ok ok' : Prop} {n m d t f a : ℕ}
  {i j : Index} {w : Word}

/-! ### Spaces -/

/-- The contents behind the pages of a table. -/
def shows (s : Vm) (t : ℕ) (j : Index) : Option Row := (tgt (s.mem t j)).map s.mem

/-- The contents behind the page with directory index `i` and table index `j`. -/
def space (s : Vm) (d : ℕ) (i j : Index) : Option Row := (tgt (s.mem d i)).bind fun t => shows s t j

theorem space_eq (h : tgt (s.mem d i) = some t) : space s d i = shows s t := by
  funext j
  rw [space, h]
  rfl

theorem space_none (h : tgt (s.mem d i) = none) : space s d i = fun _ => none := by
  funext j
  rw [space, h]
  rfl

/-- A table shows the same as long as its entries target frames with the same contents. -/
theorem Sound.shows_congr (H : Sound c G s) (hk : G.kind t = .table)
    (hpte : ∀ j, tgt (s'.mem m j) = tgt (s.mem t j))
    (hdata : ∀ f, G.kind f = .data ∨ f = c.zeroFrame → s'.mem f = s.mem f) :
    shows s' m = shows s t := by
  funext j
  rw [shows, shows, hpte j]
  cases hf : tgt (s.mem t j) with
  | none => rfl
  | some f => exact congrArg some (hdata f (H.pte hk hf).symm)

/-- A directory shows the same as long as its entries target tables that show the same. -/
theorem Sound.space_congr (H : Sound c G s) (hd : G.kind d = .dir) (hi : isUser i = true)
    (hpde : tgt (s'.mem d i) = tgt (s.mem d i)) (hshow : ∀ t, G.kind t = .table → shows s' t = shows s t) :
    space s' d i = space s d i := by
  cases ht : tgt (s.mem d i) with
  | none => rw [space_none ht, space_none (hpde.trans ht)]
  | some t => rw [space_eq ht, space_eq (hpde.trans ht), hshow t (H.pde hd hi ht)]

/-! ### What operations keep -/

/-- The kernel's panic for want of memory. -/
def OutOfFrames (e : Stop) : Prop := e = .noMoreFrames

/-- **What every operation on user memory keeps**: the invariant, the directories, the kernel's part
of them, and the frames that are not of the pool, but for the contents of the zero frame.  `ok` is
what keeps the counts exact. -/
structure Keeps (ok : Prop) (c : Config) (G : Ghost) (s : Vm) (G' : Ghost) (s' : Vm) : Prop where
  sound : Sound c G' s'
  even : ok → ∀ z, 1 ≤ z → Even c z G s → Even c z G' s'
  noLeak : ok → ∀ z, 1 ≤ z → Even c z G s → NoLeak c G s → NoLeak c G' s'
  hands : ∀ n, G'.kind n = .limbo → G.kind n = .limbo
  dirs : ∀ n, G'.kind n = .dir ↔ G.kind n = .dir
  low : ∀ n, n < c.pool → n ≠ c.zeroFrame → s'.mem n = s.mem n
  kernel : ∀ d i, G.kind d = .dir → isUser i = false → s'.mem d i = s.mem d i

/-- **What a user cannot see**: the spaces are as before, and so are the frames that the code has in
hand. -/
structure Quiet (ok : Prop) (c : Config) (G : Ghost) (s : Vm) (G' : Ghost) (s' : Vm) : Prop
    extends Keeps ok c G s G' s' where
  zero : s'.mem c.zeroFrame = s.mem c.zeroFrame
  held : ∀ n, G.kind n = .limbo → G'.kind n = .limbo ∧ s'.mem n = s.mem n
  spaces : ∀ d i, G.kind d = .dir → isUser i = true → space s' d i = space s d i

theorem Keeps.refl (H : Sound c G s) : Keeps ok c G s G s where
  sound := H
  even _ _ _ h := h
  noLeak _ _ _ _ h := h
  hands _ h := h
  dirs _ := Iff.rfl
  low _ _ _ := rfl
  kernel _ _ _ _ := rfl

theorem Keeps.trans (h₁ : Keeps ok c G s G' s') (h₂ : Keeps ok' c G' s' G'' s'') :
    Keeps (ok ∧ ok') c G s G'' s'' where
  sound := h₂.sound
  even h z hz he := h₂.even h.2 z hz (h₁.even h.1 z hz he)
  noLeak h z hz he hl := h₂.noLeak h.2 z hz (h₁.even h.1 z hz he) (h₁.noLeak h.1 z hz he hl)
  hands n h := h₁.hands n (h₂.hands n h)
  dirs n := (h₂.dirs n).trans (h₁.dirs n)
  low n hn hz := (h₂.low n hn hz).trans (h₁.low n hn hz)
  kernel d i hd hi := (h₂.kernel d i ((h₁.dirs d).mpr hd) hi).trans (h₁.kernel d i hd hi)

theorem Keeps.weaken (h : Keeps ok c G s G' s') (hok : ok' → ok) : Keeps ok' c G s G' s' :=
  { h with even := fun h' => h.even (hok h'), noLeak := fun h' => h.noLeak (hok h') }

theorem Quiet.refl (H : Sound c G s) : Quiet ok c G s G s where
  toKeeps := Keeps.refl H
  zero := rfl
  held _ h := ⟨h, rfl⟩
  spaces _ _ _ _ := rfl

theorem Quiet.trans (h₁ : Quiet ok c G s G' s') (h₂ : Quiet ok' c G' s' G'' s'') :
    Quiet (ok ∧ ok') c G s G'' s'' where
  toKeeps := h₁.toKeeps.trans h₂.toKeeps
  zero := h₂.zero.trans h₁.zero
  held n hn := by
    obtain ⟨h3, h4⟩ := h₁.held n hn
    obtain ⟨h5, h6⟩ := h₂.held n h3
    exact ⟨h5, h6.trans h4⟩
  spaces d i hd hi := (h₂.spaces d i ((h₁.dirs d).mpr hd) hi).trans (h₁.spaces d i hd hi)

theorem Quiet.weaken (h : Quiet ok c G s G' s') (hok : ok' → ok) : Quiet ok' c G s G' s' :=
  { h with toKeeps := h.toKeeps.weaken hok }

/-- Frames of data stay what they are. -/
def DataStays (G G' : Ghost) : Prop := ∀ f, G.kind f = .data → G'.kind f = .data

theorem DataStays.trans (h₁ : DataStays G G') (h₂ : DataStays G' G'') : DataStays G G'' :=
  fun f hf => h₂ f (h₁ f hf)

/-! ### `alloc_frame` -/

section Alloc

section Frame

variable (T : Taken c G s f s')
include T

theorem Taken.ne {k : Kind} (hn : G.kind n = k) (hk : k ≠ .free ∧ k ≠ .out) : n ≠ f := by
  rintro rfl
  exact T.kind.elim (hn ▸ hk.1) (hn ▸ hk.2)

theorem Taken.ne_of_lt (hn : n < c.pool) : n ≠ f := by
  have h := T.pool_le
  omega

theorem Taken.ne_zero (H : Sound c G s) : c.zeroFrame ≠ f := T.ne_of_lt H.zero_lt

theorem Taken.kind_eq {k : Kind} (hn : G.kind n = k) (hk : k ≠ .free ∧ k ≠ .out) :
    (G.take f).kind n = k :=
  (take_kind (T.ne hn hk)).trans hn

theorem Taken.row_eq {k : Kind} (hn : G.kind n = k) (hk : k ≠ .free ∧ k ≠ .out) :
    s'.mem n = s.mem n :=
  T.rows n (T.ne hn hk)

theorem Taken.shows_eq (H : Sound c G s) (ht : G.kind t = .table) : shows s' t = shows s t := by
  refine H.shows_congr ht (fun j => by rw [T.row_eq ht (by simp)]) fun g hg => ?_
  rcases hg with hg | rfl
  · exact T.row_eq hg (by simp)
  · exact T.rows _ (T.ne_zero H)

theorem Taken.space_eq (H : Sound c G s) (hd : G.kind d = .dir) (hi : isUser i = true) :
    space s' d i = space s d i :=
  H.space_congr hd hi (by rw [T.row_eq hd (by simp)]) fun _ ht => T.shows_eq H ht

theorem Taken.even {z : ℤ} (h : Even c z G s) : Even c z (G.take f) s' where
  zero := h.zero
  rest a ha he := h.rest a ha (by rwa [T.same] at he)

theorem Taken.noLeak (h : NoLeak c G s) : NoLeak c (G.take f) s' where
  used n h1 h2 := by
    by_cases hnf : n = f
    · rw [hnf, take_kind_self]
      simp
    · rw [take_kind hnf]
      exact h.used n h1 ((T.avail n h2).resolve_right hnf)
  targeted n hn := by
    have hnf : n ≠ f := by
      rintro rfl
      rw [take_kind_self] at hn
      simp at hn
    rw [take_kind hnf] at hn
    rw [T.same]
    exact h.targeted n hn

theorem Taken.dirs (n : ℕ) : (G.take f).kind n = .dir ↔ G.kind n = .dir := by
  by_cases hnf : n = f
  · subst hnf
    rcases T.kind with h | h <;> simp [h]
  · rw [take_kind hnf]

theorem Taken.dataStays : DataStays G (G.take f) := fun n hn =>
  T.kind_eq hn (by simp)

end Frame

/-- **A frame is taken, and put to use** by what follows. -/
theorem Taken.keeps (T : Taken c G s f s₁) (h : Keeps ok c (G.take f) s₁ G' s')
    (hf : G'.kind f ≠ .limbo) : Keeps ok c G s G' s' where
  sound := h.sound
  even ho z hz he := h.even ho z hz (T.even he)
  noLeak ho z hz he hl := h.noLeak ho z hz (T.even he) (T.noLeak hl)
  hands n hn := by
    have hnf : n ≠ f := by
      rintro rfl
      exact hf hn
    have h1 := h.hands n hn
    rwa [take_kind hnf] at h1
  dirs n := (h.dirs n).trans (T.dirs n)
  low n hn hz := (h.low n hn hz).trans (T.rows n (T.ne_of_lt hn))
  kernel d i hd hi := by
    rw [h.kernel d i ((T.dirs d).mpr hd) hi, T.row_eq hd (by simp)]

theorem Taken.quiet (T : Taken c G s f s₁) (H : Sound c G s) (h : Keeps ok c (G.take f) s₁ G' s')
    (hf : G'.kind f ≠ .limbo) (hzero : s'.mem c.zeroFrame = s₁.mem c.zeroFrame)
    (hheld : ∀ n, n ≠ f → (G.take f).kind n = .limbo → G'.kind n = .limbo ∧ s'.mem n = s₁.mem n)
    (hspaces : ∀ d i, (G.take f).kind d = .dir → isUser i = true → space s' d i = space s₁ d i) :
    Quiet ok c G s G' s' where
  toKeeps := T.keeps h hf
  zero := hzero.trans (T.rows _ (T.ne_zero H))
  held n hn := by
    obtain ⟨h2, h3⟩ := hheld n (T.ne hn (by simp)) (T.kind_eq hn (by simp))
    exact ⟨h2, h3.trans (T.row_eq hn (by simp))⟩
  spaces d i hd hi := (hspaces d i ((T.dirs d).mpr hd) hi).trans (T.space_eq H hd hi)

theorem allocFrame_spec (H : Sound c G s) : Ends OutOfFrames allocFrame s fun f s' => Taken c G s f s' := by
  rcases H.alloc with ⟨f, s', h, T⟩ | h
  · exact ends_of_eq h T
  · unfold Ends
    rw [h]
    rfl

theorem allocFrame_addCount (k : ℤ) (h : allocFrame s = .ok (f, s')) :
    allocFrame (s.addCount a k) = .ok (f, s'.addCount a k) := by
  unfold allocFrame at h ⊢
  rw [show (s.addCount a k).firstFree = s.firstFree from rfl]
  split at h
  · cases h
    rfl
  · rw [show (s.addCount a k).avail = s.avail from rfl, show (s.addCount a k).limit = s.limit from rfl]
    split at h
    · cases h
    · rw [if_neg ‹_›]
      cases h
      rfl

theorem allocFrame_addCount_error (k : ℤ) {e : Stop} (h : allocFrame s = .error e) :
    allocFrame (s.addCount a k) = .error e := by
  unfold allocFrame at h ⊢
  rw [show (s.addCount a k).firstFree = s.firstFree from rfl]
  split at h
  · cases h
  · rw [show (s.addCount a k).avail = s.avail from rfl, show (s.addCount a k).limit = s.limit from rfl]
    split at h
    · rw [if_pos ‹_›]
      exact h
    · cases h

end Alloc

/-! ### One entry -/

section Entry

theorem Pool.kind_low (H : Pool c G s) (h : n < c.pool) : G.kind n = .out := by
  by_contra hc
  have := H.range n hc
  omega

/-- Entries are in directories and tables. -/
theorem Holds.ne (hn : Holds G n i) (hd : G.kind m ≠ .dir) (ht : G.kind m ≠ .table) : m ≠ n := by
  rintro rfl
  rcases hn with h | h
  · exact hd h.1
  · exact ht h

/-- How the entries of a frame become more or fewer when one is written. -/
theorem Sound.entries_set (H : Sound c G s) (hn : Holds G n i) (w : Word) (rc : ℕ → ℤ) (b : ℕ) :
    entries G ((s.setWord n i w).withCounts rc) b + (if tgt (s.mem n i) = some b then 1 else 0) =
      entries G s b + (if tgt w = some b then 1 else 0) := by
  have h := H.entries_write hn w b
  rw [← @entries_setWord G s n i w rc G.bias hn.user b] at h
  exact h

theorem Sound.entries_put_count (H : Sound c G s) (hn : Holds G n i) (w : Word) (a : ℕ) (x : ℤ) (b : ℕ) :
    entries G ((s.addCount a x).setWord n i w) b + (if tgt (s.mem n i) = some b then 1 else 0) =
      entries G s b + (if tgt w = some b then 1 else 0) :=
  H.entries_set hn w (s.addCount a x).refCounts b

/-- The spaces depend on the targets of the entries and on the frames of data. -/
theorem Sound.spaces_of_tgts (H : Sound c G s)
    (htgt : ∀ m j, Holds G m j → tgt (s'.mem m j) = tgt (s.mem m j))
    (hdata : ∀ f, G.kind f = .data ∨ f = c.zeroFrame → s'.mem f = s.mem f) (hd : G.kind d = .dir)
    (hi : isUser i = true) : space s' d i = space s d i :=
  H.space_congr hd hi (htgt d i (.inl ⟨hd, hi⟩)) fun t ht =>
    H.shows_congr ht (fun j => htgt t j (.inr ht)) hdata

/-- **A write to an entry** that keeps the uses: what is left of `Keeps`. -/
theorem Sound.keeps_write (H : Sound c G s) (hn : Holds G n i) (hrow : ∀ m, m ≠ n → s'.mem m = s.mem m)
    (hslot : ∀ j, j ≠ i → s'.mem n j = s.mem n j) (hsound : Sound c G s')
    (heven : ok → ∀ z, 1 ≤ z → Even c z G s → Even c z G s')
    (hleak : ok → ∀ z, 1 ≤ z → Even c z G s → NoLeak c G s → NoLeak c G s') : Keeps ok c G s G s' where
  sound := hsound
  even := heven
  noLeak := hleak
  hands _ h := h
  dirs _ := Iff.rfl
  low m hm _ := by
    have hk := H.kind_low hm
    exact hrow m (hn.ne (by simp [hk]) (by simp [hk]))
  kernel d i' hd hi := by
    by_cases hdn : d = n
    · subst hdn
      refine hslot i' ?_
      rintro rfl
      rw [hn.user hd] at hi
      cases hi
    · rw [hrow d hdn]

/-- **The flip** is not seen. -/
theorem Sound.promote_quiet (H : Sound c G s) (hn : Holds G n i) (h : tgt (s.mem n i) = some a)
    (hr : isRw (s.mem n i) = false) (hone : s.refCounts a = 1) :
    Quiet True c G s G ((s.addCount a (-1)).setWord n i (s.mem n i ||| flagRw)) := by
  have hent : ∀ b, entries G ((s.addCount a (-1)).setWord n i (s.mem n i ||| flagRw)) b =
      entries G s b := fun b => by
    have h1 := H.entries_put_count hn (s.mem n i ||| flagRw) a (-1) b
    rw [tgt_setRw] at h1
    exact Nat.add_right_cancel h1
  have htgt : ∀ m j, Holds G m j →
      tgt (((s.addCount a (-1)).setWord n i (s.mem n i ||| flagRw)).mem m j) = tgt (s.mem m j) :=
        fun m j _ => by
    by_cases he : m ≠ n ∨ j ≠ i
    · rw [setWord_of_ne he]
      rfl
    · push Not at he
      obtain ⟨rfl, rfl⟩ := he
      rw [setWord_self, tgt_setRw]
  have hkeep : Keeps True c G s G ((s.addCount a (-1)).setWord n i (s.mem n i ||| flagRw)) :=
    H.keeps_write hn (fun m hm => setWord_row hm) (fun j hj => setWord_of_ne (.inr hj))
      (H.promote hn h hr hone)
      (fun _ z _ he => ⟨he.zero, fun b hb hpos => he.rest b hb (by rwa [hent] at hpos)⟩)
      fun _ z _ _ hl => ⟨hl.used, fun m hm => by
        rw [hent]
        exact hl.targeted m hm⟩
  refine ⟨hkeep, setWord_row (hn.ne ?_ ?_), fun m hm => ⟨hm, setWord_row (hn.ne ?_ ?_)⟩,
    fun d i' hd hi => H.spaces_of_tgts htgt (fun f hf => setWord_row ?_) hd hi⟩
  · simp [H.kind_zero]
  · simp [H.kind_zero]
  · simp [hm]
  · simp [hm]
  · rcases hf with hf | rfl
    · exact hn.ne (by simp [hf]) (by simp [hf])
    · exact hn.ne (by simp [H.kind_zero]) (by simp [H.kind_zero])

end Entry

/-! ### A frame is copied -/

section Redirect

variable {k : Kind} {s₂ : Vm}

theorem entries_congr (h : ∀ n, G.kind n = .dir ∨ G.kind n = .table → s'.mem n = s.mem n) (a : ℕ) :
    entries G s' a = entries G s a := by
  have hslot : ∀ n ∈ holders G.kind, slot G.kind s'.mem n = slot G.kind s.mem n := fun n hn =>
    slot_congr rfl (h n (Finset.mem_filter.mp hn).2)
  rw [entries, entries, total, total, shared_congr hslot, owned_congr hslot]

/-- With exact counts, a read-only entry whose count is not one is not the only one of its frame. -/
theorem Even.two_le {z : ℤ} (he : Even c z G s) (H : Sound c G s) (hn : Holds G n i)
    (h : tgt (s.mem n i) = some a) (hr : isRw (s.mem n i) = false) (hcount : s.refCounts a ≠ 1)
    (hz : a ≠ c.zeroFrame) : 2 ≤ entries G s a := by
  have h1 := he.rest a hz (H.entries_pos hn h)
  have h2 : 0 < shared (holders G.kind) (slot G.kind s.mem) a :=
    shared_pos (H.mem_of_holds hn) (hn.slot.trans (entryRef_eq_some.mpr ⟨h, hr⟩))
  have h3 := H.balanced.count_eq a
  unfold entries total
  omega

/-- **A frame is taken for a copy**, and an entry is pointed to it: the counts stay exact and
nothing is lost. -/
theorem Taken.keeps_redirect (T : Taken c G s f s₁) (H : Sound c G s) (hn : Holds G n i)
    (h : tgt (s.mem n i) = some a)
    (hr : isRw (s.mem n i) = false) (hcount : s.refCounts a ≠ 1) (hk : k = .table ∨ k = .data)
    (hsound : Sound c ((G.take f).setKind f k) s')
    (hent : ∀ b, ∃ x, entries ((G.take f).setKind f k) s' b + (if a = b then 1 else 0) =
      entries G s b + (if f = b then 1 else 0) + x ∧ (0 < x → 0 < entries G s b))
    (havail : s'.avail = s₁.avail) (hlow : ∀ m, m < c.pool → s'.mem m = s₁.mem m)
    (hkernel : ∀ d i, (G.take f).kind d = .dir → isUser i = false → s'.mem d i = s₁.mem d i) :
    Keeps True c (G.take f) s₁ ((G.take f).setKind f k) s' where
  sound := hsound
  even _ z hz he := by
    refine ⟨he.zero, fun b hb hpos => ?_⟩
    change G.bias b = 0
    by_cases hbf : b = f
    · subst hbf
      rw [H.bias_eq (H.not_targeted T.kind T.pool_le), T.count]
    · obtain ⟨x, hx, hpos'⟩ := hent b
      refine he.rest b hb ?_
      rw [T.same]
      rw [if_neg (Ne.symm hbf)] at hx
      omega
  noLeak _ z hz he hl := by
    have hf0 := H.not_targeted T.kind T.pool_le
    have haf : a ≠ f := by
      rintro rfl
      have := H.entries_pos hn h
      omega
    have hbefore : Even c z G s := ⟨he.zero, fun b hb hpos => he.rest b hb (by rwa [T.same])⟩
    refine ⟨fun m h1 h2 => ?_, fun m hm => ?_⟩
    · by_cases hmf : m = f
      · rw [hmf, setKind_self]
        rcases hk with hk | hk <;> simp [hk]
      · rw [setKind_of_ne hmf]
        exact hl.used m h1 (havail ▸ h2)
    · obtain ⟨x, hx, -⟩ := hent m
      by_cases hmf : m = f
      · rw [if_pos hmf.symm] at hx
        rw [if_neg (fun h' => haf (h'.trans hmf))] at hx
        omega
      · rw [setKind_of_ne hmf] at hm
        have h1 := hl.targeted m hm
        rw [T.same] at h1
        by_cases ham : a = m
        · have hz0 : a ≠ c.zeroFrame := by
            rintro rfl
            rw [← ham, T.sound.kind_zero] at hm
            simp at hm
          have h2 := hbefore.two_le H hn h hr hcount hz0
          rw [ham] at h2
          rw [if_pos ham] at hx
          omega
        · rw [if_neg ham] at hx
          omega
  hands m hm := by
    by_cases hmf : m = f
    · rw [hmf, take_kind_self]
    · rwa [setKind_of_ne hmf] at hm
  dirs m := by
    by_cases hmf : m = f
    · rw [hmf, setKind_self, take_kind_self]
      rcases hk with hk | hk <;> simp [hk]
    · rw [setKind_of_ne hmf]
  low m hm _ := hlow m hm
  kernel := hkernel

theorem Taken.use (T : Taken c G s f s₁) (H : Sound c G s) (row : Row) (hkf : k ≠ .free)
    (hkd : k ≠ .dir) (hrow : k = .table → ∀ j, tgt (row j) = none) :
    Sound c ((G.take f).setKind f k) (s₁.setRow f row) ∧
    ∀ b, entries ((G.take f).setKind f k) (s₁.setRow f row) b = entries G s b := by
  have hf := take_kind_self G f
  have hbase := T.ne_of_lt H.base_lt
  have hfill : Sound c (G.take f) (s₁.setRow f row) :=
    T.sound.setRow row (by simp) (by simp) (by simp) (Ne.symm hbase)
  have hsame : ∀ b, entries (G.take f) (s₁.setRow f row) b = entries G s b := fun b => by
    rw [← T.same b]
    refine entries_congr (fun m hm => setRow_of_ne ?_) b
    rintro rfl
    simp at hm
  obtain ⟨h1, h2⟩ := hfill.setKind (k := k) (by simp) (by simp) hkf
    ((hsame f).trans (H.not_targeted T.kind T.pool_le)) ((congrFun T.counts f).trans T.count)
    (fun j hj => by
      rw [Holds, hf] at hj
      simp at hj)
    (fun j hj => by
      rw [Holds, setKind_self] at hj
      rw [setRow_self]
      exact hrow (hj.resolve_left fun h => hkd h.1) j)
  exact ⟨h1, fun b => (h2 b).trans (hsame b)⟩

/-- **A private copy of a frame of data** is not seen. -/
theorem Taken.copy_data (T : Taken c G s f s₁) (H : Sound c G s) (hk : G.kind n = .table)
    (h : tgt (s.mem n i) = some a) (hr : isRw (s.mem n i) = false) (hcount : s.refCounts a ≠ 1)
    (hw : tgt w = some f) (hrw : isRw w = true) :
    Quiet True c G s ((G.take f).setKind f .data)
      (((s₁.setRow f (s₁.mem a)).addCount a (-1)).setWord n i w) := by
  have hn : Holds G n i := Or.inr hk
  have hnf : n ≠ f := T.ne hk (by simp)
  obtain ⟨S, E⟩ := T.use (k := .data) H (s₁.mem a) (by simp) (by simp) (by simp)
  have hkeep : ∀ {m}, m ≠ f → ((G.take f).setKind f .data).kind m = G.kind m := fun hm =>
    (setKind_of_ne hm).trans (take_kind hm)
  have hk' : ((G.take f).setKind f .data).kind n = .table := (hkeep hnf).trans hk
  have hn' : Holds ((G.take f).setKind f .data) n i := Or.inr hk'
  have hmem : (s₁.setRow f (s₁.mem a)).mem n = s.mem n := (setRow_of_ne hnf).trans (T.rows n hnf)
  have haf : a ≠ f := by
    rintro rfl
    have := H.entries_pos hn h
    rw [H.not_targeted T.kind T.pool_le] at this
    omega
  have hfresh : Fresh ((G.take f).setKind f .data) (s₁.setRow f (s₁.mem a)) n f :=
    ⟨fun hd => by simp [hk'] at hd, fun _ => setKind_self _ _ _,
      (E f).trans (H.not_targeted T.kind T.pool_le), (congrFun T.counts f).trans T.count⟩
  have hsound := S.redirect hn' (by rwa [hmem]) (by rwa [hmem]) hfresh hw hrw
  have hent : ∀ b, entries ((G.take f).setKind f .data)
      (((s₁.setRow f (s₁.mem a)).addCount a (-1)).setWord n i w) b +
      (if a = b then 1 else 0) = entries G s b + (if f = b then 1 else 0) := fun b => by
    have he := S.entries_put_count hn' w a (-1) b
    rw [hmem, h, hw, E b] at he
    simpa only [Option.some.injEq] using he
  have hkeeps := T.keeps_redirect H hn h hr hcount (.inr rfl) hsound
    (fun b => ⟨0, (hent b).trans (Nat.add_zero _).symm, fun hx => absurd hx (lt_irrefl 0)⟩) rfl
    (fun m hm => (setWord_row (hn.ne (by simp [H.kind_low hm]) (by simp [H.kind_low hm]))).trans
      (setRow_of_ne (T.ne_of_lt hm)))
    (fun d i' hd hi => by
      have hdn : d ≠ n := by
        rintro rfl
        rw [take_kind hnf, hk] at hd
        cases hd
      have hdf : d ≠ f := by
        rintro rfl
        simp at hd
      rw [setWord_of_ne (.inl hdn)]
      exact congrFun (setRow_of_ne hdf) i')
  refine T.quiet H hkeeps (by simp) ?_ (fun m hmf hm => ⟨(setKind_of_ne hmf).trans hm, ?_⟩)
    fun d i' hd hi => ?_
  · exact (setWord_row (hn.ne (by simp [H.kind_zero]) (by simp [H.kind_zero]))).trans
      (setRow_of_ne (T.ne_zero H))
  · refine (setWord_row ?_).trans (setRow_of_ne hmf)
    rintro rfl
    rw [take_kind hmf, hk] at hm
    cases hm
  · have hdn : d ≠ n := by
      rintro rfl
      rw [take_kind hnf, hk] at hd
      cases hd
    have hdf : d ≠ f := by
      rintro rfl
      simp at hd
    refine T.sound.space_congr hd hi (congrArg tgt ?_) fun t ht => funext fun j => ?_
    · rw [setWord_of_ne (.inl hdn)]
      exact congrFun (setRow_of_ne hdf) i'
    have htf : t ≠ f := by
      rintro rfl
      simp at ht
    -- the new frame has what the old one has, and no other entry has changed
    by_cases he : t ≠ n ∨ j ≠ i
    · have hpte : (((s₁.setRow f (s₁.mem a)).addCount a (-1)).setWord n i w).mem t j = s₁.mem t j :=
        (setWord_of_ne he).trans (congrFun (setRow_of_ne htf) j)
      rw [shows, shows, hpte]
      cases hg : tgt (s₁.mem t j) with
      | none => rfl
      | some g =>
        have hgf : g ≠ f := by
          rintro rfl
          have h1 := T.sound.entries_pos (.inr ht) hg
          rw [T.same, H.not_targeted T.kind T.pool_le] at h1
          omega
        have hgn : g ≠ n := by
          rintro rfl
          rcases T.sound.pte ht hg with hz | hz
          · rw [hz, H.kind_zero] at hk
            cases hk
          · rw [take_kind hgf, hk] at hz
            cases hz
        exact congrArg some ((setWord_row hgn).trans (setRow_of_ne hgf))
    · push Not at he
      obtain ⟨rfl, rfl⟩ := he
      rw [shows, shows, setWord_self, hw, T.rows t htf, h]
      exact congrArg some ((setWord_row (Ne.symm hnf)).trans (setRow_self _ _ _))

/-- What is seen of a page table that is copied: the directory shows the copy where it has shown the
table. -/
theorem Sound.spaces_copy_table (H : Sound c G s) (hd : G.kind n = .dir) (ht : G.kind t = .table)
    (hf : G.kind f = .limbo) (h : tgt (s.mem n i) = some t) (hw : tgt (s'.mem n i) = some f)
    (hrow : ∀ m, m ≠ n → m ≠ t → m ≠ f → s'.mem m = s.mem m)
    (hslot : ∀ i', i' ≠ i → s'.mem n i' = s.mem n i')
    (hold : ∀ j, tgt (s'.mem t j) = tgt (s.mem t j))
    (hnew : ∀ j, tgt (s'.mem f j) = tgt (s.mem t j)) (hd' : G.kind d = .dir) {i' : Index}
    (hi : isUser i' = true) : space s' d i' = space s d i' := by
  have hdata : ∀ g, G.kind g = .data ∨ g = c.zeroFrame → s'.mem g = s.mem g := fun g hg => by
    have hk : G.kind g = .data ∨ G.kind g = .out := hg.imp id fun hz => by rw [hz, H.kind_zero]
    refine hrow g ?_ ?_ ?_ <;> rintro rfl
    · simp [hd] at hk
    · simp [ht] at hk
    · simp [hf] at hk
  have hshow : ∀ t', G.kind t' = .table → shows s' t' = shows s t' := fun t' ht' => by
    refine H.shows_congr ht' (fun j => ?_) hdata
    by_cases htt : t' = t
    · rw [htt]
      exact hold j
    · rw [hrow t' ?_ htt ?_] <;> rintro rfl
      · simp [hd] at ht'
      · simp [hf] at ht'
  by_cases he : d ≠ n ∨ i' ≠ i
  · refine H.space_congr hd' hi (congrArg tgt ?_) hshow
    by_cases hdn : d = n
    · rw [hdn]
      exact hslot i' (he.resolve_left (by simp [hdn]))
    · rw [hrow d hdn ?_ ?_] <;> rintro rfl
      · simp [ht] at hd'
      · simp [hf] at hd'
  · push Not at he
    obtain ⟨rfl, rfl⟩ := he
    rw [space_eq h, space_eq hw]
    exact H.shows_congr ht hnew hdata

/-- **A private copy of a page table** that others keep is not seen. -/
theorem Taken.copy_table (T : Taken c G s f s₁) (H : Sound c G s) (D : Doubled (G.take f) s₁ s₂ t f)
    (hd : G.kind n = .dir) (hi : isUser i = true) (h : tgt (s.mem n i) = some t)
    (hr : isRw (s.mem n i) = false) (hcount : s.refCounts t ≠ 1) (htwo : 2 ≤ entries G s t)
    (hw : tgt w = some f) (hrw : isRw w = true) :
    Quiet True c G s ((G.take f).setKind f .table)
      ((s₂.addCount t (-1)).setWord n i w) := by
  have hn : Holds G n i := Or.inl ⟨hd, hi⟩
  have ht : G.kind t = .table := H.pde hd hi h
  have hnf : n ≠ f := T.ne hd (by simp)
  have htf : t ≠ f := T.ne ht (by simp)
  have hnt : n ≠ t := by
    rintro rfl
    simp [hd] at ht
  have ht₁ : (G.take f).kind t = .table := (take_kind htf).trans ht
  have hd₁ : (G.take f).kind n = .dir := (take_kind hnf).trans hd
  have hf0 := H.not_targeted T.kind T.pool_le
  -- a count that is too small would be that of a frame behind a table with one entry
  have hneg : ∀ j a, tgt (s₁.mem t j) = some a → 0 ≤ (G.take f).bias a := fun j a ha => by
    by_contra hc
    have h1 := T.sound.lone t j a ht₁ ha (not_le.mp hc)
    rw [T.same] at h1
    omega
  obtain ⟨S, E⟩ := T.sound.share D (take_kind_self G f) (fun j a _ ha => hneg j a ha)
    (fun j t' j' a _ ht' hk' _ => by
      rcases T.sound.pte ht₁ ht' with hz | hz
      · rw [hz, T.sound.kind_zero] at hk'
        cases hk'
      · rw [hk'] at hz
        cases hz)
  rw [ht₁] at S E
  have hmem : s₂.mem n = s.mem n :=
    (D.rows n hnt hnf).trans (T.rows n hnf)
  have hkn : ((G.take f).setKind f .table).kind n = .dir := (setKind_of_ne hnf).trans hd₁
  have hn' : Holds ((G.take f).setKind f .table) n i := Or.inl ⟨hkn, hi⟩
  have hhits : ∀ b, entries G s b = 0 → sharedHits (slot (G.take f).kind s₁.mem t) b +
      ownedHits (slot (G.take f).kind s₁.mem t) b = 0 := fun b hb => by
    obtain ⟨h1, h2⟩ := D.hits_eq_zero (a := b) fun j hj hb' => by
      have := T.sound.entries_pos hj hb'
      rw [T.same] at this
      omega
    omega
  have hfresh : Fresh ((G.take f).setKind f .table) s₂ n f :=
    ⟨fun _ => setKind_self _ _ _, fun hk => by simp [hkn] at hk,
      by rw [E, T.same, hf0, hhits f hf0],
      (D.count_eq fun j hj hb => by
        have := T.sound.entries_pos hj hb
        rw [T.same] at this
        omega).trans ((congrFun T.counts f).trans T.count)⟩
  have hsound := S.redirect hn' (by rw [hmem]; exact h) (by rw [hmem]; exact hr) hfresh hw hrw
  have hrow : ∀ m, m ≠ n → m ≠ t → m ≠ f →
      ((s₂.addCount t (-1)).setWord n i w).mem m = s₁.mem m :=
    fun m hmn hmt hmf => (setWord_row hmn).trans (D.rows m hmt hmf)
  have hslot : ∀ i', i' ≠ i →
      ((s₂.addCount t (-1)).setWord n i w).mem n i' = s₁.mem n i' :=
    fun i' hi' => (setWord_of_ne (.inr hi')).trans (congrFun (D.rows n hnt hnf) i')
  have hent : ∀ b, entries ((G.take f).setKind f .table)
      ((s₂.addCount t (-1)).setWord n i w) b + (if t = b then 1 else 0) =
        entries G s b + (if f = b then 1 else 0) + (sharedHits (slot (G.take f).kind s₁.mem t) b +
          ownedHits (slot (G.take f).kind s₁.mem t) b) := fun b => by
    have he := S.entries_put_count hn' w t (-1) b
    rw [hmem, h, hw, E b, T.same] at he
    simp only [Option.some.injEq] at he
    omega
  have hout : ∀ m, G.kind m ≠ .dir → G.kind m ≠ .table → m ≠ f →
      ((s₂.addCount t (-1)).setWord n i w).mem m = s₁.mem m := by
    intro m hmd hmt hmf
    refine hrow m ?_ ?_ hmf <;> rintro rfl
    · exact hmd hd
    · exact hmt ht
  have hkeeps := T.keeps_redirect H hn h hr hcount (.inl rfl) hsound
    (fun b => ⟨_, hent b, fun hx => Nat.pos_of_ne_zero fun h0 => by
      rw [hhits b h0] at hx
      exact lt_irrefl 0 hx⟩) D.avail
    (fun m hm => hout m (by simp [H.kind_low hm]) (by simp [H.kind_low hm]) (T.ne_of_lt hm))
    (fun d i' hd' hi' => by
      by_cases hdn : d = n
      · rw [hdn]
        refine hslot i' ?_
        rintro rfl
        rw [hi] at hi'
        cases hi'
      · refine congrFun (hrow d hdn ?_ ?_) i' <;> rintro rfl
        · simp [ht₁] at hd'
        · simp at hd')
  refine T.quiet H hkeeps (by simp) (hout _ (by simp [H.kind_zero]) (by simp [H.kind_zero]) (T.ne_zero H))
    (fun m hmf hm => ⟨(setKind_of_ne hmf).trans hm, ?_⟩) fun d i' hd' hi' => ?_
  · rw [take_kind hmf] at hm
    exact hout m (by simp [hm]) (by simp [hm]) hmf
  · have h₁ : tgt (s₁.mem n i) = some t := by
      rw [T.rows n hnf]
      exact h
    refine T.sound.spaces_copy_table hd₁ ht₁ (take_kind_self G f) h₁ ?_ hrow hslot
      (fun j => ?_) (fun j => ?_) hd' hi'
    · rw [setWord_self, hw]
    · rw [setWord_row (Ne.symm hnt)]
      exact D.old_tgt (.inr ht₁)
    · rw [setWord_row (Ne.symm hnf)]
      exact D.new_tgt (.inr ht₁)

/-- **A copy of a page table that nobody else has**: its count was off, and the old one is lost. -/
theorem Taken.copy_table_alone (T : Taken c G s f s₁) (H : Sound c G s) (hd : G.kind n = .dir)
    (hi : isUser i = true) (h : tgt (s.mem n i) = some t) (hr : isRw (s.mem n i) = false)
    (hcount : s.refCounts t ≠ 1) (hone : entries G s t ≤ 1) (hw : tgt w = some f)
    (hrw : isRw w = true)
    (D : Doubled ((G.take f).setKind f .table) ((s₁.addCount t (-1)).setWord n i w) s₂ t f) :
    ∃ G', Quiet True c G s G' s₂ ∧ DataStays G G' := by
  have hn : Holds G n i := Or.inl ⟨hd, hi⟩
  have ht : G.kind t = .table := H.pde hd hi h
  have hnf : n ≠ f := T.ne hd (by simp)
  have htf : t ≠ f := T.ne ht (by simp)
  have hnt : n ≠ t := by
    rintro rfl
    simp [hd] at ht
  have ht₁ : (G.take f).kind t = .table := (take_kind htf).trans ht
  have hd₁ : (G.take f).kind n = .dir := (take_kind hnf).trans hd
  have h₁ : tgt (s₁.mem n i) = some t := by
    rw [T.rows n hnf]
    exact h
  have hr₁ : isRw (s₁.mem n i) = false := by
    rw [T.rows n hnf]
    exact hr
  have hf0 := H.not_targeted T.kind T.pool_le
  have hzrow : s₁.setRow f (fun _ => 0#32) = s₁ := by
    rw [← T.row]
    exact congrArg (fun mem => { s₁ with mem := mem }) (Function.update_eq_self f s₁.mem)
  obtain ⟨S, E⟩ := T.use (k := .table) H (fun _ => 0#32) (by simp) (by simp) (fun _ _ => tgt_zero)
  rw [hzrow] at S E
  have hkt : ((G.take f).setKind f .table).kind t = .table := (setKind_of_ne htf).trans ht₁
  have hkn : ((G.take f).setKind f .table).kind n = .dir := (setKind_of_ne hnf).trans hd₁
  have hn' : Holds ((G.take f).setKind f .table) n i := Or.inl ⟨hkn, hi⟩
  have hfresh : Fresh ((G.take f).setKind f .table) s₁ n f :=
    ⟨fun _ => setKind_self _ _ _, fun hk => by simp [hkn] at hk, (E f).trans hf0,
      (congrFun T.counts f).trans T.count⟩
  have S' := S.redirect hn' h₁ hr₁ hfresh hw hrw
  have hent : ∀ b, entries ((G.take f).setKind f .table) ((s₁.addCount t (-1)).setWord n i w) b +
      (if t = b then 1 else 0) = entries G s b + (if f = b then 1 else 0) := fun b => by
    have he := S.entries_put_count hn' w t (-1) b
    rw [h₁, hw, E b] at he
    simpa only [Option.some.injEq] using he
  have ht0 : entries ((G.take f).setKind f .table) ((s₁.addCount t (-1)).setWord n i w) t = 0 := by
    have he := hent t
    rw [if_pos rfl, if_neg (Ne.symm htf)] at he
    omega
  have hf1 : entries ((G.take f).setKind f .table) ((s₁.addCount t (-1)).setWord n i w) f ≤ 1 := by
    have he := hent f
    rw [if_pos rfl, if_neg htf, hf0] at he
    omega
  have hempty : ∀ j, tgt (((s₁.addCount t (-1)).setWord n i w).mem f j) = none := fun j => by
    rw [setWord_row (Ne.symm hnf)]
    change tgt (s₁.mem f j) = none
    rw [T.row, tgt_zero]
  have R := S'.relay D htf hkt ht0 (setKind_self _ _ _) hempty hf1
  have hrow : ∀ m, m ≠ n → m ≠ t → m ≠ f → s₂.mem m = s₁.mem m := fun m hmn hmt hmf =>
    (D.rows m hmt hmf).trans (setWord_row hmn)
  have hslot : ∀ i', i' ≠ i → s₂.mem n i' = s₁.mem n i' := fun i' hi' =>
    (congrFun (D.rows n hnt hnf) i').trans (setWord_of_ne (.inr hi'))
  have hout : ∀ m, G.kind m ≠ .dir → G.kind m ≠ .table → m ≠ f → s₂.mem m = s₁.mem m := by
    intro m hmd hmt hmf
    refine hrow m ?_ ?_ hmf <;> rintro rfl
    · exact hmd hd
    · exact hmt ht
  have hkind : ∀ m, m ≠ t → m ≠ f →
      (((G.take f).setKind f .table).setKind t .out).kind m = (G.take f).kind m := fun m hmt hmf =>
    (setKind_of_ne hmt).trans (setKind_of_ne hmf)
  -- with exact counts the table would have had another entry
  have hodd : ∀ z, ¬ Even c z (G.take f) s₁ := fun z he => by
    have hz : t ≠ c.zeroFrame := by
      rintro rfl
      rw [H.kind_zero] at ht
      cases ht
    have h2 := he.two_le T.sound (.inl ⟨hd₁, hi⟩) h₁ hr₁ (by rwa [T.counts]) hz
    rw [T.same] at h2
    omega
  have hkeeps : Keeps True c (G.take f) s₁ _ s₂ := {
    sound := R
    even := fun _ z _ he => absurd he (hodd z)
    noLeak := fun _ z _ he _ => absurd he (hodd z)
    hands := fun m hm => by
      change (((G.take f).setKind f .table).setKind t .out).kind m = .limbo at hm
      by_cases hmt : m = t
      · simp [hmt] at hm
      · by_cases hmf : m = f
        · rw [hmf, take_kind_self]
        · rwa [hkind m hmt hmf] at hm
    dirs := fun m => by
      change (((G.take f).setKind f .table).setKind t .out).kind m = .dir ↔ _
      by_cases hmt : m = t
      · rw [hmt, setKind_self, ht₁]
        simp
      · by_cases hmf : m = f
        · rw [hmf, setKind_of_ne (Ne.symm htf), setKind_self, take_kind_self]
          simp
        · rw [hkind m hmt hmf]
    low := fun m hm _ => hout m (by simp [H.kind_low hm]) (by simp [H.kind_low hm]) (T.ne_of_lt hm)
    kernel := fun d i' hd' hi' => by
      by_cases hdn : d = n
      · rw [hdn]
        refine hslot i' ?_
        rintro rfl
        rw [hi] at hi'
        cases hi'
      · refine congrFun (hrow d hdn ?_ ?_) i' <;> rintro rfl
        · simp [ht₁] at hd'
        · simp at hd' }
  refine ⟨_, T.quiet H hkeeps ?_ (hout _ (by simp [H.kind_zero]) (by simp [H.kind_zero]) (T.ne_zero H))
    (fun m hmf hm => ?_) fun d i' hd' hi' => ?_, fun m hm => ?_⟩
  · change (((G.take f).setKind f .table).setKind t .out).kind f ≠ .limbo
    rw [setKind_of_ne (Ne.symm htf), setKind_self]
    simp
  · have hmt : m ≠ t := by
      rintro rfl
      simp [ht₁] at hm
    refine ⟨(hkind m hmt hmf).trans hm, ?_⟩
    rw [take_kind hmf] at hm
    exact hout m (by simp [hm]) (by simp [hm]) hmf
  · refine T.sound.spaces_copy_table hd₁ ht₁ (take_kind_self G f) h₁ ?_ hrow hslot (fun j => ?_)
      (fun j => ?_) hd' hi'
    · rw [D.rows n hnt hnf, setWord_self, hw]
    · rw [D.old_tgt (.inr hkt), setWord_row (Ne.symm hnt)]
      rfl
    · rw [D.new_tgt (.inr hkt), setWord_row (Ne.symm hnt)]
      rfl
  · have hmt : m ≠ t := by
      rintro rfl
      simp [ht] at hm
    exact (hkind m hmt (T.ne hm (by simp))).trans (T.dataStays m hm)

end Redirect

/-! ### `COW::copy` -/

section Run

variable {b : Bool}

theorem copy_of_idle (h : tgt (s.mem n i) = none ∨ isRw (s.mem n i) = true) :
    copy n i b s = .ok ((), s) := by
  have hload : load n i s = .ok (s.mem n i, s) := rfl
  rw [copy, bind_of_eq hload, if_pos (h.imp_left tgt_eq_none.mp)]
  rfl

/-- The entry that is written over another after its frame is copied. -/
def redirected (e : Word) (f : ℕ) : Word := frameAddr f ||| (e &&& flagsMask) ||| flagRw

theorem tgt_redirected {e : Word} (hf : f < frameLimit) (h : tgt e = some a) :
    tgt (redirected e f) = some f := by
  rw [redirected, tgt_setRw, tgt_reframe hf (tgt_eq_some.mp h).1]

@[simp] theorem isRw_redirected (e : Word) (f : ℕ) : isRw (redirected e f) = true := isRw_setRw _

/-- The part of `copy` after its test. -/
theorem copy_of_ro (h : tgt (s.mem n i) = some a) (hr : isRw (s.mem n i) = false) :
    copy n i b s = (if s.refCounts a + -1 = 0 then store n i (s.mem n i ||| flagRw)
      else do
        let newFrame ← allocFrame
        if b then refTable a newFrame
        else
          let data ← loadRow a
          storeRow newFrame data
        let e ← load n i
        store n i (redirected e newFrame)) (s.addCount a (-1)) := by
  obtain ⟨hp, hpage⟩ := tgt_eq_some.mp h
  have hload : load n i s = .ok (s.mem n i, s) := rfl
  have hfetch : addFetch a (-1) s = .ok (s.refCounts a + -1, s.addCount a (-1)) := rfl
  rw [copy, bind_of_eq hload, if_neg (by simp [hp, hr]), hpage, bind_of_eq hfetch]
  rfl

theorem copy_flip (h : tgt (s.mem n i) = some a) (hr : isRw (s.mem n i) = false)
    (hone : s.refCounts a = 1) :
    copy n i b s = .ok ((), (s.addCount a (-1)).setWord n i (s.mem n i ||| flagRw)) := by
  rw [copy_of_ro h hr, if_pos (by omega)]
  rfl

theorem copy_no_frame (h : tgt (s.mem n i) = some a) (hr : isRw (s.mem n i) = false)
    (hcount : s.refCounts a ≠ 1) {e : Stop} (hs : allocFrame s = .error e) :
    copy n i b s = .error e := by
  rw [copy_of_ro h hr, if_neg (by omega)]
  have hb : ∀ g : ℕ → Code Unit, (allocFrame >>= g) (s.addCount a (-1)) = .error e := fun g => by
    have he := allocFrame_addCount_error (a := a) (-1) hs
    change (allocFrame (s.addCount a (-1)) >>= fun p => g p.1 p.2) = .error e
    rw [he]
    rfl
  exact hb _

theorem copy_data_eq (h : tgt (s.mem n i) = some a) (hr : isRw (s.mem n i) = false)
    (hcount : s.refCounts a ≠ 1) (hs : allocFrame s = .ok (f, s₁)) (hn : s₁.mem n = s.mem n)
    (hnf : n ≠ f) :
    copy n i false s =
      .ok ((), ((s₁.setRow f (s₁.mem a)).addCount a (-1)).setWord n i (redirected (s.mem n i) f)) := by
  have hsame : (s₁.setRow f (s₁.mem a)).mem n i = s₁.mem n i := congrFun (setRow_of_ne hnf) i
  rw [copy_of_ro h hr, if_neg (by omega), bind_of_eq (allocFrame_addCount (a := a) (-1) hs), ← hn, ← hsame]
  rfl

theorem copy_table_eq (h : tgt (s.mem n i) = some t) (hr : isRw (s.mem n i) = false)
    (hcount : s.refCounts t ≠ 1) (hs : allocFrame s = .ok (f, s₁)) (hn : s₁.mem n = s.mem n)
    (hnf : n ≠ f) (hnt : n ≠ t) (htf : t ≠ f) :
    copy n i true s = .ok ((), ((s₁.addCount t (-1)).double tableTurn t f (List.finRange 1024)).setWord n i
      (redirected (s.mem n i) f)) := by
  have hrow : ((s₁.addCount t (-1)).double tableTurn t f (List.finRange 1024)).mem n i = s.mem n i := by
    rw [double_row _ hnt hnf, ← hn]
    rfl
  rw [copy_of_ro h hr, if_neg (by omega), bind_of_eq (allocFrame_addCount (a := t) (-1) hs), if_pos rfl,
    bind_of_eq (refTable_eq htf _), ← hrow]
  rfl

/-- The count of the old table may go down before or after its entries are doubled. -/
theorem double_addCount (s : Vm) (T : Turn) (t f a : ℕ) (is : List Index) (x : ℤ) :
    (s.addCount a x).double T t f is = (s.double T t f is).addCount a x := by
  have hrc : ((s.addCount a x).double T t f is).refCounts =
      ((s.double T t f is).addCount a x).refCounts := by
    funext b
    by_cases hb : b = a
    · subst hb
      rw [addCount_self]
      change (s.addCount b x).refCounts b + _ = _
      rw [addCount_self]
      exact add_right_comm _ _ _
    · rw [addCount_of_ne hb]
      change (s.addCount a x).refCounts b + _ = _
      rw [addCount_of_ne hb]
      rfl
  exact congrArg (fun rc => { s.double T t f is with refCounts := rc }) hrc

/-- So may the entry of a directory be written. -/
theorem double_setWord (T : Turn) (hnt : n ≠ t) (hnf : n ≠ f) (is : List Index) :
    (s.setWord n i w).double T t f is = (s.double T t f is).setWord n i w := by
  have ht : (s.setWord n i w).mem t = s.mem t := setWord_row (Ne.symm hnt)
  have hf : (s.setWord n i w).mem f = s.mem f := setWord_row (Ne.symm hnf)
  have hmem : ((s.setWord n i w).double T t f is).mem = ((s.double T t f is).setWord n i w).mem := by
    funext m
    by_cases hmf : m = f
    · rw [hmf, setWord_row (Ne.symm hnf)]
      funext j
      rw [double_new, double_new, ht, hf]
    · by_cases hmt : m = t
      · rw [hmt, setWord_row (Ne.symm hnt)]
        funext j
        rw [double_old (hmt ▸ hmf), double_old (hmt ▸ hmf), ht]
      · rw [double_row is hmt hmf]
        by_cases hmn : m = n
        · rw [hmn]
          funext j
          by_cases hj : j = i
          · rw [hj, setWord_self, setWord_self]
          · rw [setWord_of_ne (.inr hj), setWord_of_ne (.inr hj), double_row is hnt hnf]
        · rw [setWord_row hmn, setWord_row hmn, double_row is hmt hmf]
  have hrc : ((s.setWord n i w).double T t f is).refCounts = (s.double T t f is).refCounts := by
    funext b
    change s.refCounts b + (is.map fun i' => T.gain i' ((s.setWord n i w).mem t i') b).sum = _
    rw [ht]
    rfl
  exact congrArg₂ (fun mem rc => { s.double T t f is with mem := mem, refCounts := rc }) hmem hrc

/-- **What `copy` does to an entry**: a present one becomes writable, and no user sees anything of
it. -/
structure Copied (c : Config) (G : Ghost) (s : Vm) (n : ℕ) (i : Index) (G' : Ghost) (s' : Vm) : Prop
    extends Quiet True c G s G' s' where
  absent : tgt (s.mem n i) = none → s' = s
  writable : ∀ a, tgt (s.mem n i) = some a → ∃ f, tgt (s'.mem n i) = some f ∧ isRw (s'.mem n i) = true
  kind : G'.kind n = G.kind n
  others : ∀ d i', G.kind d = .dir → d ≠ n ∨ i' ≠ i → s'.mem d i' = s.mem d i'

/-- An entry that is there and is made writable. -/
theorem Quiet.copied (Q : Quiet True c G s G' s') (h : tgt (s.mem n i) = some a)
    (hw : tgt (s'.mem n i) = some f) (hrw : isRw (s'.mem n i) = true) (hk : G'.kind n = G.kind n)
    (ho : ∀ d i', G.kind d = .dir → d ≠ n ∨ i' ≠ i → s'.mem d i' = s.mem d i') :
    Copied c G s n i G' s' where
  toQuiet := Q
  absent hn := by
    rw [h] at hn
    cases hn
  writable _ _ := ⟨f, hw, hrw⟩
  kind := hk
  others := ho

theorem Taken.copied_data (T : Taken c G s f s₁) (H : Sound c G s) (hs : allocFrame s = .ok (f, s₁))
    (hk : G.kind n = .table) (h : tgt (s.mem n i) = some a) (hr : isRw (s.mem n i) = false)
    (hcount : s.refCounts a ≠ 1) :
    ∃ s', copy n i false s = .ok ((), s') ∧ ∃ G', Copied c G s n i G' s' ∧ DataStays G G' := by
  have hnf : n ≠ f := T.ne hk (by simp)
  have hw := tgt_redirected T.lt h
  refine ⟨_, copy_data_eq h hr hcount hs (T.rows n hnf) hnf, (G.take f).setKind f .data,
    (T.copy_data H hk h hr hcount hw (isRw_redirected _ _)).copied (f := f) h ?_ ?_ ?_ fun d i' hd _ => ?_,
    fun m hm => (setKind_of_ne (T.ne hm (by simp))).trans (T.dataStays m hm)⟩
  · rw [setWord_self, hw]
  · rw [setWord_self, isRw_redirected]
  · exact (setKind_of_ne hnf).trans (take_kind hnf)
  · have hdn : d ≠ n := by
      rintro rfl
      simp [hk] at hd
    have hdf : d ≠ f := T.ne hd (by simp)
    rw [setWord_of_ne (.inl hdn), ← T.rows d hdf]
    exact congrFun (setRow_of_ne hdf) i'

theorem Taken.copied_table (T : Taken c G s f s₁) (H : Sound c G s)
    (hs : allocFrame s = .ok (f, s₁)) (hd : G.kind n = .dir) (hi : isUser i = true)
    (h : tgt (s.mem n i) = some t) (hr : isRw (s.mem n i) = false) (hcount : s.refCounts t ≠ 1) :
    ∃ s', copy n i true s = .ok ((), s') ∧ ∃ G', Copied c G s n i G' s' ∧ DataStays G G' := by
  have ht : G.kind t = .table := H.pde hd hi h
  have hnf : n ≠ f := T.ne hd (by simp)
  have htf : t ≠ f := T.ne ht (by simp)
  have hnt : n ≠ t := by
    rintro rfl
    simp [hd] at ht
  have hw := tgt_redirected T.lt h
  have hQ : ∃ G', Quiet True c G s G'
      (((s₁.addCount t (-1)).double tableTurn t f (List.finRange 1024)).setWord n i
      (redirected (s.mem n i) f)) ∧ DataStays G G' := by
    by_cases htwo : 2 ≤ entries G s t
    · rw [double_addCount]
      exact ⟨_, T.copy_table H (doubled_table ((take_kind htf).trans ht) htf) hd hi h hr hcount htwo hw
        (isRw_redirected _ _), fun m hm => (setKind_of_ne (T.ne hm (by simp))).trans (T.dataStays m hm)⟩
    · rw [← double_setWord tableTurn hnt hnf]
      exact T.copy_table_alone H hd hi h hr hcount (by omega) hw (isRw_redirected _ _)
        (doubled_table ((setKind_of_ne htf).trans ((take_kind htf).trans ht)) htf)
  obtain ⟨G', Q, hdata⟩ := hQ
  refine ⟨_, copy_table_eq h hr hcount hs (T.rows n hnf) hnf hnt htf, G',
    Q.copied (f := f) h ?_ ?_ ?_ fun d i' hd' hne => ?_, hdata⟩
  · rw [setWord_self, hw]
  · rw [setWord_self, isRw_redirected]
  · rw [hd]
    exact (Q.dirs n).mpr hd
  · have hdt : d ≠ t := by
      rintro rfl
      simp [ht] at hd'
    have hdf : d ≠ f := T.ne hd' (by simp)
    rw [setWord_of_ne hne, double_row _ hdt hdf, ← T.rows d hdf]
    rfl

/-- **`copy`**, of a page table if the entry is one of a directory, and else of a frame of data.  It
stops only if there is no frame left. -/
theorem copy_ends (H : Sound c G s) (hn : Holds G n i) :
    Ends (fun e => allocFrame s = .error e) (copy n i (decide (G.kind n = .dir))) s fun _ s' =>
      ∃ G', Copied c G s n i G' s' ∧ DataStays G G' := by
  cases h : tgt (s.mem n i) with
  | none =>
    refine ends_of_eq (copy_of_idle (.inl h))
      ⟨G, ⟨Quiet.refl H, fun _ => rfl, fun a ha => ?_, rfl, fun _ _ _ _ => rfl⟩, fun _ hf => hf⟩
    rw [h] at ha
    cases ha
  | some a =>
    by_cases hrw : isRw (s.mem n i) = true
    · exact ends_of_eq (copy_of_idle (.inr hrw))
        ⟨G, (Quiet.refl H).copied h h hrw rfl fun _ _ _ _ => rfl, fun _ hf => hf⟩
    have hr := Bool.eq_false_iff.mpr hrw
    by_cases hcount : s.refCounts a = 1
    · refine ends_of_eq (copy_flip h hr hcount)
        ⟨G, (H.promote_quiet hn h hr hcount).copied (f := a) h ?_ ?_ rfl fun d i' _ hne => ?_,
          fun _ hf => hf⟩
      · rw [setWord_self, tgt_setRw, h]
      · rw [setWord_self, isRw_setRw]
      · exact setWord_of_ne hne
    · rcases H.alloc with ⟨f, s₁, hs, T⟩ | hs
      · rcases hn with ⟨hd, hi⟩ | ht
        · obtain ⟨s', hrun, hend⟩ := T.copied_table H hs hd hi h hr hcount
          rw [decide_eq_true hd]
          exact ends_of_eq hrun hend
        · obtain ⟨s', hrun, hend⟩ := T.copied_data H hs ht h hr hcount
          rw [decide_eq_false (by simp [ht])]
          exact ends_of_eq hrun hend
      · unfold Ends
        rw [copy_no_frame h hr hcount hs]
        exact hs

theorem allocFrame_error {e : Stop} (h : allocFrame s = .error e) : OutOfFrames e := by
  rcases allocFrame_cases s with ⟨f, -, hs⟩ | ⟨-, -, hs⟩ | hs <;> rw [h] at hs
  · cases hs
  · cases hs
  · exact Except.error.inj hs

theorem copy_spec (H : Sound c G s) (hn : Holds G n i) :
    Ends OutOfFrames (copy n i (decide (G.kind n = .dir))) s fun _ s' => ∃ G',
      Copied c G s n i G' s' ∧ DataStays G G' :=
  (copy_ends H hn).weaken fun _ => allocFrame_error

end Run

end GheithOS.Vmm
