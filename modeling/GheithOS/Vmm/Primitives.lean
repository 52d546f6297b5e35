import GheithOS.Vmm.Unref

/-!
# GheithOS.Vmm.Primitives — `COW::ref`, `COW::copy` and `COW::unref` with exact counts

`Exact` is the accounting as `cow.cc` wants it: a frame has one writable entry and count zero, or
read-only entries and their number as its count, one more for the zero frame.  It is `Sound` with no
count off (`Exact.sound`, `Sound.exact`).  The three primitives keep it; what they do to the
contents that users see is in `cow_primitives`.
-/

namespace GheithOS.Vmm

open Cow Lib

variable {c : Config} {G G' : Ghost} {s s₁ s' : Vm} {n m d t f a p : ℕ} {i j : Index} {w : Word} {z : ℤ}

/-! ### Exact counts -/

/-- The read-only entries that target a frame. -/
def readers (G : Ghost) (s : Vm) (a : ℕ) : ℕ := shared (holders G.kind) (slot G.kind s.mem) a

/-- The entries with `FLAG_RW` that target a frame. -/
def writers (G : Ghost) (s : Vm) (a : ℕ) : ℕ := owned (holders G.kind) (slot G.kind s.mem) a

theorem entries_eq (G : Ghost) (s : Vm) (a : ℕ) : entries G s a = readers G s a + writers G s a := rfl

/-- **The accounting is exact.**  Directories and frames in the hands of the code have no entry
either. -/
structure Exact (c : Config) (G : Ghost) (s : Vm) : Prop extends Pool c G s, Typed c G s where
  targeted : ∀ a, 0 < entries G s a → writers G s a = 1 ∧ readers G s a = 0 ∧ s.refCounts a = 0 ∨
    writers G s a = 0 ∧ s.refCounts a = readers G s a + if a = c.zeroFrame then 1 else 0
  zero : s.refCounts c.zeroFrame = readers G s c.zeroFrame + 1
  idle : ∀ n, G.kind n = .free ∨ G.kind n = .limbo ∨ G.kind n = .dir ∨ s.avail ≤ n →
    s.refCounts n = 0 ∧ entries G s n = 0

/-- The ghost that finds no count off. -/
def Ghost.settle (G : Ghost) (s : Vm) : Ghost := G.withBias fun a => s.refCounts a - readers G s a

theorem Exact.bias_nonneg (h : Exact c G s) (ha : 0 < entries G s a) :
    0 ≤ s.refCounts a - readers G s a := by
  rcases h.targeted a ha with ⟨-, h1, h2⟩ | ⟨-, h2⟩
  · omega
  · split at h2 <;> omega

theorem Exact.sound (h : Exact c G s) : Sound c (G.settle s) s where
  toPool := { h.toPool with }
  toTyped := { h.toTyped with }
  balanced := by
    refine ⟨fun a => ?_, fun a => ?_, fun a ha => ?_⟩
    · change s.refCounts a = readers G s a + (s.refCounts a - readers G s a)
      omega
    · change writers G s a ≤ 1
      by_cases hpos : 0 < entries G s a
      · have := h.targeted a hpos
        omega
      · rw [entries_eq] at hpos
        omega
    · change 0 < writers G s a at ha
      change readers G s a = 0
      have := h.targeted a (by rw [entries_eq]; omega)
      omega
  loose a ha := by
    change s.refCounts a - readers G s a < 0 at ha
    change entries G s a ≤ 1
    by_contra hc
    have := h.bias_nonneg (a := a) (by omega)
    omega
  lone t j a hk hx ha := by
    change s.refCounts a - readers G s a < 0 at ha
    have hpos : 0 < entries G s a :=
      total_pos (Finset.mem_filter.mpr ⟨Finset.mem_range.mpr
        (h.toPool.lt_limit (by rw [show G.kind t = .table from hk]; simp)), .inr hk⟩)
        ((slot_table hk j).trans (entryRef_of_tgt hx))
    have := h.bias_nonneg hpos
    omega
  zero_bias := by
    change 1 ≤ s.refCounts c.zeroFrame - readers G s c.zeroFrame
    rw [h.zero]
    omega
  clean n hn := (h.idle n hn).1

theorem Exact.even (h : Exact c G s) : Even c 1 (G.settle s) s where
  zero := by
    change s.refCounts c.zeroFrame - readers G s c.zeroFrame = 1
    rw [h.zero]
    omega
  rest a hz ha := by
    change s.refCounts a - readers G s a = 0
    rcases h.targeted a ha with ⟨-, h1, h2⟩ | ⟨-, h2⟩
    · omega
    · rw [if_neg hz] at h2
      omega

theorem Sound.exact (H : Sound c G s) (he : Even c 1 G s) : Exact c G s where
  toPool := H.toPool
  toTyped := H.toTyped
  targeted a ha := by
    have h1 : s.refCounts a = readers G s a + G.bias a := H.balanced.count_eq a
    have h2 : writers G s a ≤ 1 := H.balanced.owner a
    have h3 : 0 < writers G s a → readers G s a = 0 := H.balanced.exclusive a
    by_cases hz : a = c.zeroFrame
    · -- the zero frame is mapped read-only
      subst hz
      have hw : writers G s c.zeroFrame = 0 := H.zero_not_owned
      rw [he.zero] at h1
      exact .inr ⟨hw, by rw [if_pos rfl, h1]⟩
    · have h4 := he.rest a hz ha
      rw [if_neg hz]
      omega
  zero := by
    have h1 : s.refCounts c.zeroFrame = readers G s c.zeroFrame + G.bias c.zeroFrame :=
      H.balanced.count_eq _
    rwa [he.zero] at h1
  idle n hn := by
    refine ⟨H.clean n hn, ?_⟩
    by_contra hc
    obtain ⟨m, hm, i, b, hx⟩ := exists_of_total_pos (Nat.pos_of_ne_zero hc)
    obtain ⟨h1, -, h2⟩ := slot_eq_some hx
    exact H.ne_target ((H.mem_holders.mp hm).imp (fun hd => ⟨hd, h2 hd⟩) id) h1 hn rfl

theorem Exact.of_withBias {bias : ℕ → ℤ} (h : Exact c (G.withBias bias) s) : Exact c G s where
  toPool := { h.toPool with }
  toTyped := { h.toTyped with }
  targeted := h.targeted
  zero := h.zero
  idle := h.idle

/-! ### `COW::ref` -/

/-- The state after a counted read-only entry is written. -/
def Vm.putShared (s : Vm) (n : ℕ) (i : Index) (w : Word) (a : ℕ) : Vm := (s.addCount a 1).setWord n i w

/-- **A counted read-only entry** is written where there is none, to a frame that no entry may
write. -/
theorem Sound.putShared (H : Sound c G s) (he : Even c z G s) (hz : 1 ≤ z) (hn : Holds G n i)
    (h : tgt (s.mem n i) = none) (hw : tgt w = some a) (hr : isRw w = false)
    (hpde : G.kind n = .dir → G.kind a = .table)
    (hpte : G.kind n = .table → a = c.zeroFrame ∨ G.kind a = .data)
    (hown : owned (holders G.kind) (slot G.kind s.mem) a = 0)
    (hb : a ≠ c.zeroFrame → G.bias a = 0) :
    Sound c G (s.putShared n i w a) ∧ Even c z G (s.putShared n i w a) := by
  have hbias : 0 ≤ G.bias a := by
    by_cases haz : a = c.zeroFrame
    · rw [haz, he.zero]
      omega
    · rw [hb haz]
  -- no frame that is targeted has a count that is too small
  have hneg : ∀ b, G.bias b < 0 → entries G s b = 0 := fun b hb' => by
    by_contra hc
    by_cases hbz : b = c.zeroFrame
    · rw [hbz, he.zero] at hb'
      omega
    · rw [he.rest b hbz (Nat.pos_of_ne_zero hc)] at hb'
      omega
  have hent : ∀ b, total (holders G.kind) (setSlot (slot G.kind s.mem) n i (entryRef w)) b =
      entries G s b + if a = b then 1 else 0 := fun b => by
    have h1 := H.entries_write hn w b
    rw [h, hw, if_neg (Option.some_ne_none b).symm, Nat.add_zero] at h1
    simpa only [Option.some.injEq] using h1
  have hbal := H.balanced.store (H.mem_of_holds hn) (hn.slot.trans (entryRef_eq_none.mpr h)) false hown
    (fun h' => by cases h') true
  rw [← entryRef_eq_some.mpr ⟨hw, hr⟩] at hbal
  simp only [Bool.true_eq_false, and_false, ite_false, sub_zero, Function.update_eq_self, and_self,
    ite_true] at hbal
  have hsound : Sound c G (s.putShared n i w a) := by
    refine H.setWord hn (fun hk t ht => ?_) (fun hk g hg => ?_) hbal (fun b hb' => ?_)
      (fun t j b hk hj hb' => ?_)
      H.zero_bias (fun b hb' => ?_)
    · rw [← Option.some.inj (hw.symm.trans ht)]
      exact hpde hk
    · rw [← Option.some.inj (hw.symm.trans hg)]
      exact (hpte hk).imp (fun h' => ⟨h', hr⟩) id
    · rw [hent, hneg b hb']
      split <;> omega
    · exfalso
      by_cases hne : t ≠ n ∨ j ≠ i
      · rw [setWord_of_ne hne] at hj
        have h1 := H.entries_pos (.inr hk) hj
        rw [hneg b hb'] at h1
        exact lt_irrefl 0 h1
      · push Not at hne
        obtain ⟨rfl, rfl⟩ := hne
        rw [setWord_self, hw] at hj
        rw [← Option.some.inj hj] at hb'
        omega
    · have hka : G.kind a = .table ∨ G.kind a = .data ∨ a = c.zeroFrame :=
        hn.elim (fun hd => .inl (hpde hd.1)) fun ht => .inr (hpte ht).symm
      exact (addCount_of_ne (H.ne_idle hka hb')).trans (H.clean b hb')
  refine ⟨hsound, he.zero, fun b hbz hpos => ?_⟩
  by_cases hba : b = a
  · rw [hba]
    exact hb (hba ▸ hbz)
  · refine he.rest b hbz ?_
    have h1 := H.entries_put_count hn w a 1 b
    rw [h, hw, if_neg (by simp), if_neg (fun h' => hba (Option.some.inj h').symm), Nat.add_zero,
      Nat.add_zero] at h1
    rw [← h1]
    exact hpos

theorem Sound.not_owned_cleared (H : Sound c G s) (hn : Holds G n i) (h : tgt (s.mem n i) = some a) :
    owned (holders G.kind) (slot G.kind (s.cleared n i).mem) a = 0 := by
  refine refs_eq_zero.mpr fun m hm j hx => ?_
  obtain ⟨h1, h2, h3⟩ := slot_eq_some (ownedTgt_eq.mp hx)
  have hne : m ≠ n ∨ j ≠ i := by
    by_contra hc
    push Not at hc
    obtain ⟨rfl, rfl⟩ := hc
    rw [cleared_self, tgt_zero] at h1
    cases h1
  have hsame : (s.cleared n i).mem m j = s.mem m j := setWord_of_ne hne
  rw [hsame] at h1 h2
  have hm' : Holds G m j := (H.mem_holders.mp hm).imp (fun hd => ⟨hd, h3 hd⟩) id
  obtain ⟨rfl, rfl⟩ := H.entry_unique (H.entries_owned hm' h1 h2).le hm' hn h1 h
  exact hne.elim (fun h' => h' rfl) fun h' => h' rfl

theorem refCounts_ref (h : tgt (s.mem n i) = some a) (b : ℕ) :
    (((s.cleared n i).addCount a 1).addCount a 1).refCounts b = s.refCounts b + refGain (s.mem n i) b := by
  obtain ⟨hp, hpage⟩ := tgt_eq_some.mp h
  by_cases hr : isRw (s.mem n i) = true
  · rw [refGain_rw hp hr, hpage]
    by_cases hb : b = a
    · rw [hb, addCount_self, addCount_self, refCounts_cleared_rw hr, if_pos rfl]
      ring
    · rw [addCount_of_ne hb, addCount_of_ne hb, refCounts_cleared_rw hr, if_neg hb, add_zero]
  · have hr' := Bool.eq_false_iff.mpr hr
    rw [refGain_ro hp hr', hpage]
    by_cases hb : b = a
    · rw [hb, addCount_self, addCount_self, refCounts_cleared_ro h hr', addCount_self, if_pos rfl]
      ring
    · rw [addCount_of_ne hb, addCount_of_ne hb, refCounts_cleared_ro h hr', addCount_of_ne hb,
        if_neg hb, add_zero]

/-- The state after `ref`. -/
def Vm.refed (s : Vm) (n : ℕ) (i : Index) : Vm :=
  (s.setWord n i (refEntry (s.mem n i))).withCounts fun a => s.refCounts a + refGain (s.mem n i) a

/-- **`ref`, with its result stored**, keeps the counts exact. -/
theorem Sound.ref_store (H : Sound c G s) (he : Even c z G s) (hz : 1 ≤ z) (hn : Holds G n i)
    (hm : Holds G m j) (hk : G.kind m = G.kind n) (h0 : tgt (s.mem m j) = none) :
    Sound c G ((s.refed n i).setWord m j (refValue (s.mem n i))) ∧
      Even c z G ((s.refed n i).setWord m j (refValue (s.mem n i))) := by
  cases h : tgt (s.mem n i) with
  | none =>
    have hp := tgt_eq_none.mp h
    -- nothing has happened but that an empty entry is overwritten
    have hs : (s.refed n i).setWord m j (refValue (s.mem n i)) = s.cleared m j := by
      have hrc : (s.refed n i).refCounts = (s.cleared m j).refCounts := by
        funext b
        change s.refCounts b + refGain (s.mem n i) b =
          s.refCounts b - if sharedTgt (entryRef (s.mem m j)) = some b then 1 else 0
        rw [refGain_absent hp, entryRef_eq_none.mpr h0]
        simp [sharedTgt]
      have hmem : ((s.refed n i).setWord m j (refValue (s.mem n i))).mem = (s.cleared m j).mem := by
        change ((s.setWord n i (refEntry (s.mem n i))).setWord m j (refValue (s.mem n i))).mem =
            (s.setWord m j 0#32).mem
        rw [refEntry, refValue, if_neg (by simp [hp]), if_neg (by simp [hp]),
          setWord_eq_self (s := s) (n := n) rfl]
      exact congrArg₂ (fun mem rc => { s with mem := mem, refCounts := rc }) hmem hrc
    rw [hs]
    exact ⟨H.clear hm, he.cleared H hm⟩
  | some a =>
    have hp := (tgt_eq_some.mp h).1
    have hne : m ≠ n ∨ j ≠ i := by
      by_contra hc
      push Not at hc
      obtain ⟨rfl, rfl⟩ := hc
      rw [h0] at h
      cases h
    have hw : tgt (s.mem n i &&& ~~~flagRw) = some a := by rw [tgt_clearRw, h]
    have hr := isRw_clearRw (s.mem n i)
    have hpde : G.kind n = .dir → G.kind a = .table := fun hd => H.pde hd (hn.user hd) h
    have hpte : G.kind n = .table → a = c.zeroFrame ∨ G.kind a = .data := fun ht => H.pte ht h
    have hb : a ≠ c.zeroFrame → G.bias a = 0 := fun haz => he.rest a haz (H.entries_pos hn h)
    obtain ⟨H₁, he₁⟩ := (H.clear hn).putShared (he.cleared H hn) hz hn
      ((congrArg tgt (cleared_self s n i)).trans tgt_zero) hw hr hpde hpte (H.not_owned_cleared hn h) hb
    have hempty : tgt (((s.cleared n i).putShared n i (s.mem n i &&& ~~~flagRw) a).mem m j) = none := by
      rw [← h0]
      exact congrArg tgt ((setWord_of_ne hne).trans (setWord_of_ne hne))
    have hself : ((s.cleared n i).putShared n i (s.mem n i &&& ~~~flagRw) a).mem n i =
        s.mem n i &&& ~~~flagRw :=
      setWord_self _ _ _ _
    have hshared := shared_pos (H₁.mem_of_holds hn)
      (hn.slot.trans (entryRef_eq_some.mpr ⟨(congrArg tgt hself).trans hw, (congrArg isRw hself).trans hr⟩))
    obtain ⟨H₂, he₂⟩ :=
      H₁.putShared he₁ hz hm hempty hw hr (fun hd => hpde (hk ▸ hd)) (fun ht => hpte (hk ▸ ht))
      (H₁.balanced.owned_eq_zero hshared) hb
    have hs : (s.refed n i).setWord m j (refValue (s.mem n i)) =
        ((s.cleared n i).putShared n i (s.mem n i &&& ~~~flagRw) a).putShared m j
          (s.mem n i &&& ~~~flagRw) a := by
      have hmem : ((s.refed n i).setWord m j (refValue (s.mem n i))).mem =
          (((s.setWord n i 0#32).setWord n i (s.mem n i &&& ~~~flagRw)).setWord m j
            (s.mem n i &&& ~~~flagRw)).mem := by
        rw [setWord_setWord]
        change ((s.setWord n i (refEntry (s.mem n i))).setWord m j (refValue (s.mem n i))).mem = _
        rw [refEntry, refValue, if_pos hp, if_pos hp]
      have hrc : (s.refed n i).refCounts = (((s.cleared n i).addCount a 1).addCount a 1).refCounts :=
        funext fun b => (refCounts_ref h b).symm
      exact congrArg₂ (fun mem rc => { s with mem := mem, refCounts := rc }) hmem hrc
    rw [hs]
    exact ⟨H₂, he₂⟩

variable {i' : Index}

theorem Sound.space_refed (H : Sound c G s) (hn : Holds G n i) (hd : G.kind d = .dir)
    (hi : isUser i' = true) : space (s.refed n i) d i' = space s d i' := by
  refine H.spaces_of_tgts (fun m j _ => ?_) (fun f hf => ?_) hd hi
  · by_cases hne : m ≠ n ∨ j ≠ i
    · exact congrArg tgt (setWord_of_ne hne)
    · push Not at hne
      obtain ⟨rfl, rfl⟩ := hne
      have hself : (s.refed m j).mem m j = refEntry (s.mem m j) := setWord_self _ _ _ _
      rw [hself, refEntry]
      split
      · exact tgt_clearRw _
      · rfl
  · have hk : G.kind f = .data ∨ G.kind f = .out := hf.imp id fun hz => by rw [hz, H.kind_zero]
    exact setWord_row (hn.ne
      (by rcases hk with hk | hk <;> simp [hk]) (by rcases hk with hk | hk <;> simp [hk]))

/-! ### `COW::unref` -/

/-- `unref(entry, is_page_table)`. -/
def unref (n : ℕ) (i : Index) (isPageTable : Bool) : Code Unit :=
  if isPageTable then unrefTable n i else unrefData n i

theorem Sound.unref (H : Sound c G s) (he : Even c z G s) (hz : 1 ≤ z) (hn : Holds G n i) :
    ∃ G' s', unref n i (decide (G.kind n = .dir)) s = .ok ((), s') ∧ Unrefed c z n [i] G s G' s' := by
  rcases hn with ⟨hd, hi⟩ | ht
  · rw [decide_eq_true hd]
    exact H.unref_table he hz hd hi
  · rw [decide_eq_false (by simp [ht])]
    obtain ⟨G', U, -⟩ := H.unref_data he hz ht i
    exact ⟨G', s.dropData n i, unrefData_eq (H.not_target_holder ht (.inr ht)), U⟩

/-- The page with directory index `i'` and table index `j` of `d` is found through entry `i` of
`n`. -/
def Through (s : Vm) (n : ℕ) (i : Index) (d : ℕ) (i' j : Index) : Prop :=
  d = n ∧ i' = i ∨ tgt (s.mem d i') = some n ∧ j = i

section Given

variable {is : List Index}

theorem Unrefed.kind_dir (U : Unrefed c z n is G s G' s') (H : Sound c G s) (hd : G.kind d = .dir) :
    G'.kind d = .dir := (U.kept d (.inr (.inl (H.entries_dir hd)))).trans hd

theorem Unrefed.dirs (U : Unrefed c z n is G s G' s') (H : Sound c G s) (d : ℕ) :
    G'.kind d = .dir ↔ G.kind d = .dir := by
  refine ⟨fun h => ?_, U.kind_dir H⟩
  by_cases hk : Kept c G s G' s' d
  · rwa [U.kept d hk] at h
  · rw [U.lost d hk] at h
    cases h

theorem Unrefed.free_iff (U : Unrefed c z n is G s G' s') (f : ℕ) : G'.kind f = .free ↔
    G.kind f = .free ∨ f ≠ c.zeroFrame ∧ 0 < entries G s f ∧ entries G' s' f = 0 := by
  have hk : ¬ Kept c G s G' s' f ↔ f ≠ c.zeroFrame ∧ 0 < entries G s f ∧ entries G' s' f = 0 := by
    unfold Kept
    omega
  rw [← hk]
  by_cases h : Kept c G s G' s' f
  · rw [U.kept f h]
    simp [h]
  · simp [h, U.lost f h]

/-- Directories keep their entries but those that are given up. -/
theorem Unrefed.pde_eq (U : Unrefed c z n is G s G' s') (H : Sound c G s) (hd : G.kind d = .dir)
    (hne : d ≠ n ∨ i' ∉ is) : s'.mem d i' = s.mem d i' := by
  by_cases hdn : d = n
  · subst hdn
    exact U.slots i' (by simpa using hne)
  · rw [U.rows d (.inr (.inl (H.entries_dir hd))) hdn]

theorem Unrefed.kept_of_target (U : Unrefed c z n is G s G' s') (hm : Holds G' m j)
    (h : tgt (s'.mem m j) = some a) : Kept c G s G' s' a := Or.inr (.inr (U.sound.entries_pos hm h))

/-- **What is not found through the entries is as before.** -/
theorem Unrefed.space_eq (U : Unrefed c z n is G s G' s') (H : Sound c G s)
    (hn : G.kind n = .dir ∨ G.kind n = .table) (hd : G.kind d = .dir) (hi : isUser i' = true)
    (hnot : ∀ i ∈ is, ¬ Through s n i d i' j) :
    space s' d i' j = space s d i' j := by
  have hpde : s'.mem d i' = s.mem d i' := U.pde_eq H hd (by
    by_contra hc
    obtain ⟨hdn, hmem⟩ := not_or.mp hc
    exact hnot i' (not_not.mp hmem) (.inl ⟨not_not.mp hdn, rfl⟩))
  have hd' : Holds G' d i' := Or.inl ⟨U.kind_dir H hd, hi⟩
  cases ht : tgt (s.mem d i') with
  | none => rw [space_none ht, space_none (by rw [hpde]; exact ht)]
  | some t =>
    have ht' : tgt (s'.mem d i') = some t := by
      rw [hpde]
      exact ht
    have hkt := U.kept_of_target hd' ht'
    have htable : G.kind t = .table := H.pde hd hi ht
    have hpte : s'.mem t j = s.mem t j := by
      by_cases htn : t = n
      · subst htn
        exact U.slots j fun hj => hnot j hj (.inr ⟨ht, rfl⟩)
      · rw [U.rows t hkt htn]
    rw [Vmm.space_eq ht, Vmm.space_eq ht', shows, shows, hpte]
    cases hf : tgt (s.mem t j) with
    | none => rfl
    | some f =>
      have hkf := U.kept_of_target (.inr ((U.kept t hkt).trans htable)) (by rw [hpte]; exact hf)
      have hfn : f ≠ n := by
        rintro rfl
        exact H.not_target_holder htable hn hf
      exact congrArg some (U.rows f hkf hfn)

theorem Unrefed.space_none (U : Unrefed c z n is G s G' s') (H : Sound c G s) (hd : G.kind d = .dir)
    (hi : isUser i' = true) (hmem : i ∈ is) (hthrough : Through s n i d i' j) :
    space s' d i' j = none := by
  have hgone : tgt (s'.mem n i) = none := U.cleared i hmem
  rcases hthrough with ⟨rfl, rfl⟩ | ⟨ht, rfl⟩
  · rw [Vmm.space_none hgone]
  · have hdn : d ≠ n := by
      rintro rfl
      have hk := H.pde hd hi ht
      rw [hd] at hk
      cases hk
    have ht' : tgt (s'.mem d i') = some n := by
      rw [U.pde_eq H hd (.inl hdn)]
      exact ht
    rw [Vmm.space_eq ht', shows, hgone]
    rfl

end Given

/-! ### The three primitives -/

/-- Every page of every directory shows what it has shown. -/
def SameSpaces (G : Ghost) (s s' : Vm) : Prop :=
  ∀ d i, G.kind d = .dir → isUser i = true → space s' d i = space s d i

/-- **The primitives of `cow.cc`**, for an entry of a directory or a table in a state with exact
counts.  `ref` is not seen, and its result in an empty entry of the same level keeps the counts
exact.  So does `copy`, which is not seen either and leaves a present entry writable, unless memory
runs out.  So does `unref`, after which only the pages behind its entry have gone, and exactly the
frames that have lost their last entry are free. -/
theorem cow_primitives (h : Exact c G s) (hn : Holds G n i) :
    (∃ w s₁, ref n i s = .ok (w, s₁) ∧ SameSpaces G s s₁ ∧
      ∀ m j, Holds G m j → G.kind m = G.kind n → tgt (s.mem m j) = none → Exact c G (s₁.setWord m j w)) ∧
    (Ends OutOfFrames (copy n i (decide (G.kind n = .dir))) s fun _ s' =>
      ∃ G', Exact c G' s' ∧ (∀ d, G'.kind d = .dir ↔ G.kind d = .dir) ∧ SameSpaces G s s' ∧
        (tgt (s.mem n i) ≠ none → tgt (s'.mem n i) ≠ none ∧ isRw (s'.mem n i) = true)) ∧
    ∃ G' s', unref n i (decide (G.kind n = .dir)) s = .ok ((), s') ∧ Exact c G' s' ∧
      (∀ d, G'.kind d = .dir ↔ G.kind d = .dir) ∧ tgt (s'.mem n i) = none ∧
      (∀ d i' j, G.kind d = .dir → isUser i' = true →
        (Through s n i d i' j → space s' d i' j = none) ∧
        (¬ Through s n i d i' j → space s' d i' j = space s d i' j)) ∧
      ∀ f, G'.kind f = .free ↔ G.kind f = .free ∨ f ≠ c.zeroFrame ∧ 0 < entries G s f ∧
        entries G' s' f = 0 := by
  have H := h.sound
  have he := h.even
  have hn' : Holds (G.settle s) n i := hn
  refine ⟨⟨_, _, ref_eq n i s, fun d i' hd hi => H.space_refed hn' hd hi, fun m j hm hk h0 => ?_⟩, ?_, ?_⟩
  · obtain ⟨H', he'⟩ := H.ref_store he le_rfl hn' hm hk h0
    exact (H'.exact he').of_withBias
  · refine (copy_spec H hn').mono ?_
    rintro _ s' ⟨G', C, -⟩
    refine ⟨G', C.sound.exact (C.even trivial 1 le_rfl he), C.dirs,
      fun d i' hd hi => C.spaces d i' hd hi, fun hne => ?_⟩
    obtain ⟨a, ha⟩ := Option.ne_none_iff_exists'.mp hne
    obtain ⟨f, hf, hrw⟩ := C.writable a ha
    exact ⟨by simp [hf], hrw⟩
  · obtain ⟨G', s', hrun, U⟩ := H.unref he le_rfl hn'
    exact ⟨G', s', hrun, U.sound.exact U.even, U.dirs H, U.cleared i (List.mem_singleton_self i),
      fun d i' j hd hi => ⟨U.space_none H hd hi (List.mem_singleton_self i),
        fun hnot => U.space_eq H (hn'.imp And.left id) hd hi (by simpa using hnot)⟩, U.free_iff⟩

/-! ### States without writable entries -/

/-- The counts are exact, and no entry may write. -/
structure ReadOnly (c : Config) (G : Ghost) (s : Vm) : Prop where
  sound : Sound c G s
  even : Even c 1 G s
  unwritable : ∀ a, writers G s a = 0
  bias : ∀ a, a ≠ c.zeroFrame → G.bias a = 0

theorem readOnly_of_empty (hP : Pool c G s) (hempty : ∀ n i, Holds G n i → tgt (s.mem n i) = none)
    (hbase : ∀ i, isUser i = true → tgt (s.mem c.baseDirectory i) = none)
    (hcount : ∀ n, s.refCounts n = if n = c.zeroFrame then 1 else 0)
    (hbias : ∀ n, G.bias n = if n = c.zeroFrame then 1 else 0) : ReadOnly c G s := by
  have hent : ∀ a, entries G s a = 0 := fun a => total_eq_zero.mpr fun n hn i b hx => by
    obtain ⟨htgt, -, huser⟩ := slot_eq_some hx
    have hholds : Holds G n i := (hP.mem_holders.mp hn).imp (fun hd => ⟨hd, huser hd⟩) id
    rw [hempty n i hholds] at htgt
    cases htgt
  have hnone : ∀ a, readers G s a = 0 ∧ writers G s a = 0 := fun a => by
    have h0 := hent a
    rw [entries_eq] at h0
    omega
  refine ⟨{
    toPool := hP
    pde := fun hk hi h => absurd h (by simp [hempty _ _ (.inl ⟨hk, hi⟩)])
    pte := fun hk h => absurd h (by simp [hempty _ _ (.inr hk)])
    zero_ro := fun hk h => absurd h (by simp [hempty _ _ (.inr hk)])
    base := hbase
    balanced := ⟨fun a => ?_, fun a => ?_, fun a ha => (hnone a).1⟩
    loose := fun a _ => by rw [hent]; omega
    lone := fun t _ _ _ _ _ => by rw [hent]; omega
    zero_bias := by rw [hbias, if_pos rfl]
    clean := fun n hn => ?_ }, ⟨by rw [hbias, if_pos rfl], fun a _ ha => ?_⟩, fun a => (hnone a).2,
      fun a ha => ?_⟩
  · have h0 := (hnone a).1
    unfold readers at h0
    rw [hcount, hbias, h0]
    simp
  · have h0 := (hnone a).2
    unfold writers at h0
    omega
  · rw [hcount, if_neg]
    rintro rfl
    have hz := hP.zero_lt
    have hle := hP.pool_le
    rw [hP.kind_zero] at hn
    simp at hn
    omega
  · rw [hent] at ha
    omega
  · rw [hbias, if_neg ha]

theorem ReadOnly.put (h : ReadOnly c G s) (hn : Holds G n i) (h0 : tgt (s.mem n i) = none)
    (hw : tgt w = some a) (hr : isRw w = false) (hpde : G.kind n = .dir → G.kind a = .table)
    (hpte : G.kind n = .table → a = c.zeroFrame ∨ G.kind a = .data) :
    ReadOnly c G (s.putShared n i w a) := by
  obtain ⟨H, he⟩ := h.sound.putShared h.even le_rfl hn h0 hw hr hpde hpte (h.unwritable a) (h.bias a)
  refine ⟨H, he, fun b => ?_, h.bias⟩
  have hwrite := owned_setSlot (slot G.kind s.mem) (h.sound.mem_of_holds hn) i (entryRef w) b
  have hnew : ownedTgt (entryRef w) ≠ some b := by
    rw [entryRef_of_tgt hw, hr]
    simp [ownedTgt]
  rw [← slot_setWord hn.user, if_neg hnew] at hwrite
  have hold := h.unwritable b
  unfold writers at hold ⊢
  show owned (holders G.kind) (slot G.kind (s.setWord n i w).mem) b = 0
  omega

/-! A directory (frame 2) whose first user entry targets a table (frame 3), which targets a frame of
data (frame 4). -/

def smallConfig : Config := ⟨0, 1, 2⟩

def smallGhost : Ghost where
  kind n := if n = 2 then .dir else if n = 3 then .table else if n = 4 then .data else .out
  free := []
  bias n := if n = 0 then 1 else 0

/-- The frames without their entries. -/
def bareState : Vm where
  mem _ _ := 0#32
  refCounts n := if n = 0 then 1 else 0
  firstFree := none
  avail := 5
  limit := 8

def smallState : Vm :=
  (bareState.putShared 2 512 (frameAddr 3 ||| flagPr) 3).putShared 3 0 (frameAddr 4 ||| flagPr) 4

theorem smallGhost_range {n : ℕ} (h : smallGhost.kind n ≠ .out) : 2 ≤ n ∧ n < 5 := by
  simp only [smallGhost] at h
  split_ifs at h
  · omega
  · omega
  · omega
  · exact absurd rfl h

theorem bareState_readOnly : ReadOnly smallConfig smallGhost bareState := by
  refine readOnly_of_empty {
    chain := trivial
    nodup := List.nodup_nil
    free_iff := fun n => ?_
    range := fun n => smallGhost_range
    pool_le := show 2 ≤ 5 by omega
    avail_le := show 5 ≤ 8 by omega
    limit_le := show 8 ≤ 1048576 by omega
    zero_lt := show 0 < 2 by omega
    base_lt := show 1 < 2 by omega } (fun _ _ _ => tgt_zero) (fun _ _ => tgt_zero)
      (fun _ => rfl) fun _ => rfl
  simp only [smallGhost, List.not_mem_nil, false_iff]
  split_ifs <;> simp

theorem smallState_readOnly : ReadOnly smallConfig smallGhost smallState := by
  have hdir : Holds smallGhost 2 512 := Or.inl ⟨rfl, by decide⟩
  have h₁ := bareState_readOnly.put hdir tgt_zero (w := frameAddr 3 ||| flagPr) (a := 3)
    (by decide) (by decide) (fun _ => rfl) (fun h => by cases h)
  have hempty : (bareState.putShared 2 512 (frameAddr 3 ||| flagPr) 3).mem 3 0 = 0#32 :=
    setWord_of_ne (by decide)
  exact h₁.put (n := 3) (i := 0) (a := 4) (.inr rfl) ((congrArg tgt hempty).trans tgt_zero)
    (w := frameAddr 4 ||| flagPr) (by decide) (by decide) (fun h => by cases h) (fun _ => .inr rfl)

theorem smallState_exact : Exact smallConfig smallGhost smallState :=
  smallState_readOnly.sound.exact smallState_readOnly.even

/-- The first entry of the directory is given up, and with it the only page. -/
theorem cow_primitives_small :
    tgt (smallState.mem 2 512) = some 3 ∧ space smallState 2 512 0 = some (fun _ => 0#32) ∧
    ∃ s', unref 2 512 true smallState = .ok ((), s') ∧ space s' 2 512 0 = none := by
  have hrow : smallState.mem 2 512 = frameAddr 3 ||| flagPr := by decide
  have hpde : tgt (smallState.mem 2 512) = some 3 := by
    rw [hrow]
    decide
  obtain ⟨-, -, G', s', hrun, -, -, -, hspace, -⟩ :=
    cow_primitives smallState_exact (n := 2) (i := 512) (.inl ⟨rfl, by decide⟩)
  refine ⟨hpde, ?_, s', hrun, (hspace 2 512 0 rfl (by decide)).1 (.inl ⟨rfl, rfl⟩)⟩
  have hpte : smallState.mem 3 0 = frameAddr 4 ||| flagPr := by decide
  have hdata : (bareState.putShared 2 512 (frameAddr 3 ||| flagPr) 3).mem 4 = bareState.mem 4 :=
    setWord_row (by decide)
  have hdata' : smallState.mem 4 = (bareState.putShared 2 512 (frameAddr 3 ||| flagPr) 3).mem 4 :=
    setWord_row (by decide)
  rw [space_eq hpde, shows, hpte, show tgt (frameAddr 4 ||| flagPr) = some 4 by decide]
  exact congrArg some (hdata'.trans hdata)

end GheithOS.Vmm
