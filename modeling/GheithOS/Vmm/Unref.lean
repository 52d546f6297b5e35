import GheithOS.Vmm.Copy

/-!
# GheithOS.Vmm.Unref — `COW::unref`

An entry is given up: its frame goes back to the pool with the last entry that targets it, and the
frames behind a page table go with the table.  The source clears the entry last; clearing it first
makes no difference, and then every step keeps the invariant (`unrefWith_eq`).  `Unrefed` is what
remains: exactly the frames without an entry are given back, and all the others are as before.
-/

namespace GheithOS.Vmm

open Cow Lib Function

variable {c : Config} {G G' G'' : Ghost} {s s₁ s' s'' : Vm} {n m d t f a p x : ℕ} {i j : Index}
  {w : Word} {z : ℤ}

/-! ### The state -/

/-- The state after `dealloc_frame`. -/
def Vm.freed (s : Vm) (p : ℕ) : Vm := { s.setWord p 0 (link s.firstFree) with firstFree := some p }

/-- The state after an entry is cleared, and its count given up if it is read-only. -/
def Vm.cleared (s : Vm) (n : ℕ) (i : Index) : Vm :=
  (s.setWord n i 0#32).withCounts fun a => s.refCounts a - if sharedTgt (entryRef (s.mem n i)) =
    some a then 1 else 0

/-- No other entry targets the frame, as `unref` finds out. -/
def Vm.isLast (s : Vm) (e : Word) : Bool := isRw e || s.refCounts (pageNumber e) = 1

theorem freed_row (h : m ≠ p) : (s.freed p).mem m = s.mem m := setWord_row h

theorem setWord_comm {i' : Index} {w' : Word} (h : n ≠ m) :
    (s.setWord n i w).setWord m i' w' = (s.setWord m i' w').setWord n i w := by
  unfold Vm.setWord
  simp only [update_of_ne h, update_of_ne (Ne.symm h)]
  rw [update_comm h]

@[simp] theorem setWord_setWord (s : Vm) (n : ℕ) (i : Index) (w w' : Word) :
    (s.setWord n i w).setWord n i w' = s.setWord n i w' := by
  unfold Vm.setWord
  simp only [update_self, update_idem]

theorem setWord_eq_self (h : s.mem n i = w) : s.setWord n i w = s := by
  subst h
  unfold Vm.setWord
  rw [update_eq_self, update_eq_self]

theorem freed_setWord (h : p ≠ n) : (s.setWord n i w).freed p = (s.freed p).setWord n i w :=
  congrArg (fun r : Vm => { r with firstFree := some p }) (setWord_comm (Ne.symm h))

/-! ### The program -/

theorem refCounts_cleared_rw (hr : isRw (s.mem n i) = true) : (s.cleared n i).refCounts = s.refCounts := by
  funext a
  have h : sharedTgt (entryRef (s.mem n i)) ≠ some a := fun h => by
    have h1 := (entryRef_eq_some.mp (sharedTgt_eq.mp h)).2
    rw [hr] at h1
    cases h1
  change s.refCounts a - (if sharedTgt (entryRef (s.mem n i)) = some a then 1 else 0) = s.refCounts a
  rw [if_neg h, sub_zero]

theorem refCounts_cleared_ro (h : tgt (s.mem n i) = some p) (hr : isRw (s.mem n i) = false) :
    (s.cleared n i).refCounts = (s.addCount p (-1)).refCounts := by
  have he : sharedTgt (entryRef (s.mem n i)) = some p := sharedTgt_eq.mpr (entryRef_eq_some.mpr ⟨h, hr⟩)
  funext a
  change s.refCounts a - (if sharedTgt (entryRef (s.mem n i)) = some a then 1 else 0) = _
  rw [he]
  by_cases ha : a = p
  · rw [if_pos (by rw [ha]), ha, addCount_self]
    rfl
  · rw [if_neg (fun h => ha (Option.some.inj h).symm), addCount_of_ne ha, sub_zero]

theorem cleared_setWord (s : Vm) (n : ℕ) (i : Index) :
    (s.cleared n i).setWord n i (s.mem n i) = s.withCounts (s.cleared n i).refCounts := by
  have hmem : ((s.cleared n i).setWord n i (s.mem n i)).mem = s.mem := by
    change ((s.setWord n i 0#32).setWord n i (s.mem n i)).mem = s.mem
    rw [setWord_setWord, setWord_eq_self rfl]
  exact congrArg (fun mem => { s with mem := mem, refCounts := (s.cleared n i).refCounts }) hmem

/-- **`unref`, as if the entry were cleared first.**  `inner` must not look at it. -/
theorem unrefWith_eq {inner : ℕ → Code Unit} (h : tgt (s.mem n i) = some p) (hpn : p ≠ n)
    (hinner : s.isLast (s.mem n i) = true →
      inner p ((s.cleared n i).setWord n i (s.mem n i)) = .ok ((), s₁.setWord n i (s.mem n i)))
    (h0 : s₁.mem n i = 0#32) :
    unrefWith inner n i s = .ok ((), if s.isLast (s.mem n i) then s₁.freed p else s.cleared n i) := by
  obtain ⟨hp, hpage⟩ := tgt_eq_some.mp h
  have hload : load n i s = .ok (s.mem n i, s) := rfl
  have htail : ∀ st last, st = (s.cleared n i).setWord n i (s.mem n i) → last = s.isLast (s.mem n i) →
      (if last then do
          inner p
          deallocFrame p
          store n i 0#32
        else store n i 0#32 : Code Unit) st =
        .ok ((), if s.isLast (s.mem n i) then s₁.freed p else s.cleared n i) := by
    rintro _ _ rfl rfl
    by_cases hb : s.isLast (s.mem n i) = true
    · have hfree : deallocFrame p (s₁.setWord n i (s.mem n i)) = .ok ((),
          (s₁.freed p).setWord n i (s.mem n i)) :=
        congrArg (fun r => Except.ok ((), r)) (freed_setWord hpn)
      have hend : ((s₁.freed p).setWord n i (s.mem n i)).setWord n i 0#32 = s₁.freed p := by
        rw [setWord_setWord]
        refine setWord_eq_self ?_
        rw [freed_row (Ne.symm hpn), h0]
      rw [if_pos hb, if_pos hb, bind_of_eq (hinner hb), bind_of_eq hfree]
      exact congrArg (fun r => Except.ok ((), r)) hend
    · rw [if_neg hb, if_neg hb]
      refine congrArg (fun r => Except.ok ((), r)) ?_
      rw [setWord_setWord]
      exact setWord_eq_self (setWord_self _ _ _ _)
  rw [unrefWith, bind_of_eq hload, if_pos hp, hpage]
  by_cases hr : isRw (s.mem n i) = true
  · rw [if_pos hr]
    refine htail s true ?_ ?_
    · rw [cleared_setWord, refCounts_cleared_rw hr]
      rfl
    · rw [Vm.isLast, hr, Bool.true_or]
  · have hr' := Bool.eq_false_iff.mpr hr
    rw [if_neg hr]
    refine htail (s.addCount p (-1)) (decide (s.refCounts p + -1 = 0)) ?_ ?_
    · rw [cleared_setWord, refCounts_cleared_ro h hr']
      rfl
    · rw [Vm.isLast, hr', Bool.false_or, hpage]
      exact decide_eq_decide.mpr (by omega)

theorem unrefWith_absent {inner : ℕ → Code Unit} (h : tgt (s.mem n i) = none) :
    unrefWith inner n i s = .ok ((), s) := by
  have hload : load n i s = .ok (s.mem n i, s) := rfl
  rw [unrefWith, bind_of_eq hload, if_neg (by simp [tgt_eq_none.mp h])]
  rfl

/-- The state after `unref(entry, false)`. -/
def Vm.dropData (s : Vm) (t : ℕ) (j : Index) : Vm :=
  if isPresent (s.mem t j) then
    if s.isLast (s.mem t j) then (s.cleared t j).freed (pageNumber (s.mem t j)) else s.cleared t j
  else s

theorem dropData_of_tgt (h : tgt (s.mem t j) = some p) :
    s.dropData t j = if s.isLast (s.mem t j) then (s.cleared t j).freed p else s.cleared t j := by
  obtain ⟨hp, hpage⟩ := tgt_eq_some.mp h
  rw [Vm.dropData, if_pos hp, hpage]

theorem dropData_of_absent (h : tgt (s.mem t j) = none) : s.dropData t j = s := by
  rw [Vm.dropData, if_neg (by simp [tgt_eq_none.mp h])]

theorem unrefData_eq (h : tgt (s.mem t j) ≠ some t) : unrefData t j s = .ok ((), s.dropData t j) := by
  cases hp : tgt (s.mem t j) with
  | none => rw [dropData_of_absent hp, unrefData, unrefWith_absent hp]
  | some p =>
    rw [dropData_of_tgt hp]
    refine unrefWith_eq hp ?_ (fun _ => rfl) (setWord_self _ _ _ _)
    rintro rfl
    exact h hp

theorem cleared_comm (h : n ≠ t) : (s.setWord n i w).cleared t j = (s.cleared t j).setWord n i w := by
  have ht : (s.setWord n i w).mem t = s.mem t := setWord_row (Ne.symm h)
  unfold Vm.cleared
  rw [ht, setWord_comm h]
  rfl

/-- An entry elsewhere does not matter. -/
theorem dropData_setWord (hnt : n ≠ t) (hna : tgt (s.mem t j) ≠ some n) :
    (s.setWord n i w).dropData t j = (s.dropData t j).setWord n i w := by
  have ht : (s.setWord n i w).mem t = s.mem t := setWord_row (Ne.symm hnt)
  cases hp : tgt (s.mem t j) with
  | none => rw [dropData_of_absent hp, dropData_of_absent (by rwa [ht])]
  | some p =>
    have hpn : p ≠ n := by
      rintro rfl
      exact hna hp
    have hlast : (s.setWord n i w).isLast (s.mem t j) = s.isLast (s.mem t j) := rfl
    rw [dropData_of_tgt hp, dropData_of_tgt (p := p) (by rw [ht]; exact hp), ht, hlast, cleared_comm hnt]
    split
    · exact freed_setWord hpn
    · rfl

/-! ### The accounting -/

/-- The frame has not lost its last entry. -/
def Kept (c : Config) (G : Ghost) (s : Vm) (G' : Ghost) (s' : Vm) (m : ℕ) : Prop :=
  m = c.zeroFrame ∨ entries G s m = 0 ∨ 0 < entries G' s' m

/-- **Entries `is` of `x` are given up**: they target nothing, exactly the frames that have lost
their last entry are free, and all the others are as they were. -/
structure Unrefed (c : Config) (z : ℤ) (x : ℕ) (is : List Index) (G : Ghost) (s : Vm) (G' : Ghost)
    (s' : Vm) : Prop where
  sound : Sound c G' s'
  even : Even c z G' s'
  bias : G'.bias = G.bias
  le : ∀ b, entries G' s' b ≤ entries G s b
  lost : ∀ m, ¬ Kept c G s G' s' m → G'.kind m = .free
  kept : ∀ m, Kept c G s G' s' m → G'.kind m = G.kind m
  avail : s'.avail = s.avail
  rows : ∀ m, Kept c G s G' s' m → m ≠ x → s'.mem m = s.mem m
  slots : ∀ j, j ∉ is → s'.mem x j = s.mem x j
  cleared : ∀ j ∈ is, tgt (s'.mem x j) = none

variable {is : List Index}

theorem Unrefed.refl (H : Sound c G s) (he : Even c z G s) (h : ∀ j ∈ is, tgt (s.mem x j) = none) :
    Unrefed c z x is G s G s where
  sound := H
  even := he
  bias := rfl
  le _ := le_rfl
  lost m h := absurd (by unfold Kept; omega) h
  kept _ _ := rfl
  avail := rfl
  rows _ _ _ := rfl
  slots _ _ := rfl
  cleared := h

variable {js : List Index}

theorem Unrefed.kept_both {y : ℕ} (h₁ : Unrefed c z x is G s G' s')
    (h₂ : Unrefed c z y js G' s' G'' s'') (h : Kept c G s G'' s'' m) :
    Kept c G s G' s' m ∧ Kept c G' s' G'' s'' m := by
  have hle₁ := h₁.le m
  have hle₂ := h₂.le m
  unfold Kept at h ⊢
  omega

theorem Unrefed.trans (h₁ : Unrefed c z x is G s G' s') (h₂ : Unrefed c z x js G' s' G'' s'') :
    Unrefed c z x (is ++ js) G s G'' s'' where
  sound := h₂.sound
  even := h₂.even
  bias := h₂.bias.trans h₁.bias
  le b := (h₂.le b).trans (h₁.le b)
  lost m h := by
    by_cases h0 : Kept c G s G' s' m
    · refine h₂.lost m fun h' => h ?_
      unfold Kept at h0 h' ⊢
      have := h₂.le m
      omega
    · have hk : Kept c G' s' G'' s'' m := by
        unfold Kept at h0 ⊢
        omega
      rw [h₂.kept m hk]
      exact h₁.lost m h0
  kept m h := by
    obtain ⟨hk₁, hk₂⟩ := h₁.kept_both h₂ h
    rw [h₂.kept m hk₂, h₁.kept m hk₁]
  avail := h₂.avail.trans h₁.avail
  rows m h hm := by
    obtain ⟨hk₁, hk₂⟩ := h₁.kept_both h₂ h
    rw [h₂.rows m hk₂ hm, h₁.rows m hk₁ hm]
  slots j hj := by
    rw [List.mem_append, not_or] at hj
    rw [h₂.slots j hj.2, h₁.slots j hj.1]
  cleared j hj := by
    by_cases hj₂ : j ∈ js
    · exact h₂.cleared j hj₂
    · rw [h₂.slots j hj₂]
      exact h₁.cleared j ((List.mem_append.mp hj).resolve_right hj₂)

theorem Sound.not_target_holder (H : Sound c G s) (ht : G.kind t = .table)
    (hm : G.kind m = .dir ∨ G.kind m = .table) :
    tgt (s.mem t j) ≠ some m := fun h => by
  rcases H.pte ht h with hk | hk
  · rw [hk, H.kind_zero] at hm
    simp at hm
  · simp [hk] at hm

theorem Sound.entries_dir (H : Sound c G s) (hd : G.kind d = .dir) : entries G s d = 0 := by
  refine H.entries_eq_zero (by simp [hd]) (by simp [hd]) ?_
  rintro rfl
  rw [H.kind_zero] at hd
  cases hd

/-- The ghost when a frame in use is given back. -/
def Ghost.release (G : Ghost) (f : ℕ) : Ghost := (G.setKind f .limbo).give f

@[simp] theorem release_kind_self (G : Ghost) (f : ℕ) : (G.release f).kind f = .free := give_kind_self _ _

theorem release_kind (h : m ≠ f) : (G.release f).kind m = G.kind m := (give_kind h).trans (setKind_of_ne h)

/-- **A frame without entries goes back to the pool.** -/
theorem Sound.release (H : Sound c G s) (hk : G.kind f = .data ∨ G.kind f = .table)
    (hempty : G.kind f = .table → ∀ j, tgt (s.mem f j) = none) (h0 : entries G s f = 0)
    (hc : s.refCounts f = 0) :
    Sound c (G.release f) (s.freed f) ∧ ∀ b, entries (G.release f) (s.freed f) b = entries G s b := by
  obtain ⟨h1, h2⟩ := H.setKind (k := .limbo) (f := f) (by rcases hk with hk | hk <;> simp [hk])
    (by rcases hk with hk | hk <;> simp [hk]) (by simp) h0 hc
    (fun j hj => by
      rcases hj with hj | hj
      · rcases hk with hk | hk <;> simp [hk] at hj
      · exact hempty hj j)
    (fun j hj => by
      rw [Holds, setKind_self] at hj
      simp at hj)
  obtain ⟨h3, h4⟩ := h1.dealloc (setKind_self G f .limbo)
  exact ⟨h3, fun b => (h4 b).trans (h2 b)⟩

theorem Sound.entries_cleared (H : Sound c G s) (hn : Holds G n i) (b : ℕ) :
    entries G (s.cleared n i) b + (if tgt (s.mem n i) = some b then 1 else 0) = entries G s b := by
  have h := H.entries_set hn 0#32
    (fun a => s.refCounts a - if sharedTgt (entryRef (s.mem n i)) = some a then 1 else 0) b
  rw [tgt_zero, if_neg (Option.some_ne_none b).symm, Nat.add_zero] at h
  rw [Vm.cleared]
  exact h

theorem Even.cleared (he : Even c z G s) (H : Sound c G s) (hn : Holds G n i) :
    Even c z G (s.cleared n i) where
  zero := he.zero
  rest b hb hpos := he.rest b hb (by
    have := H.entries_cleared hn b
    omega)

theorem cleared_row (h : m ≠ n) : (s.cleared n i).mem m = s.mem m := setWord_row h

theorem cleared_slot (h : j ≠ i) : (s.cleared n i).mem n j = s.mem n j := setWord_of_ne (.inr h)

@[simp] theorem cleared_self (s : Vm) (n : ℕ) (i : Index) : (s.cleared n i).mem n i = 0#32 :=
  setWord_self _ _ _ _

theorem Sound.last (H : Sound c G s) (he : Even c z G s) (hz : 1 ≤ z) (hn : Holds G n i)
    (h : tgt (s.mem n i) = some p) (hlast : s.isLast (s.mem n i) = true) :
    p ≠ c.zeroFrame ∧ entries G (s.cleared n i) p = 0 ∧ (s.cleared n i).refCounts p = 0 := by
  have hpage := (tgt_eq_some.mp h).2
  have hclear := H.entries_cleared hn p
  rw [if_pos h] at hclear
  have hone : p ≠ c.zeroFrame ∧ entries G s p = 1 := by
    by_cases hr : isRw (s.mem n i) = true
    · refine ⟨?_, H.entries_owned hn h hr⟩
      rintro rfl
      rcases hn with ⟨hd, hi⟩ | ht
      · have hk := H.pde hd hi h
        rw [H.kind_zero] at hk
        cases hk
      · rw [H.zero_ro ht h] at hr
        cases hr
    · have hr' := Bool.eq_false_iff.mpr hr
      have hcount : s.refCounts p = 1 := by simpa [Vm.isLast, hr', hpage] using hlast
      obtain ⟨-, hb, hent⟩ := H.single hn h hr' hcount
      refine ⟨?_, hent⟩
      rintro rfl
      rw [he.zero] at hb
      omega
  have h0 : entries G (s.cleared n i) p = 0 := by omega
  refine ⟨hone.1, h0, ?_⟩
  have hb := (H.clear hn).bias_eq h0
  rw [he.rest p hone.1 (by omega)] at hb
  exact hb.symm

theorem Sound.not_last (H : Sound c G s) (he : Even c z G s) (hn : Holds G n i)
    (h : tgt (s.mem n i) = some p) (hlast : s.isLast (s.mem n i) = false) :
    p = c.zeroFrame ∨ 0 < entries G (s.cleared n i) p := by
  by_cases hz : p = c.zeroFrame
  · exact .inl hz
  have hpage := (tgt_eq_some.mp h).2
  obtain ⟨hr, hcount⟩ : isRw (s.mem n i) = false ∧
      s.refCounts p ≠ 1 := by simpa [Vm.isLast, hpage] using hlast
  have h2 := he.two_le H hn h hr hcount hz
  have hclear := H.entries_cleared hn p
  rw [if_pos h] at hclear
  omega

/-- **An entry is cleared** whose frame has another one. -/
theorem Sound.unrefed_cleared (H : Sound c G s) (he : Even c z G s) (hn : Holds G n i)
    (h : tgt (s.mem n i) = some p) (hleft : p = c.zeroFrame ∨ 0 < entries G (s.cleared n i) p) :
    Unrefed c z n [i] G s G (s.cleared n i) where
  sound := H.clear hn
  even := he.cleared H hn
  bias := rfl
  le b := by
    have := H.entries_cleared hn b
    omega
  lost m hm := by
    refine absurd ?_ hm
    unfold Kept
    have hc := H.entries_cleared hn m
    by_cases hpm : p = m
    · subst hpm
      omega
    · rw [h, if_neg (fun h' => hpm (Option.some.inj h'))] at hc
      omega
  kept _ _ := rfl
  avail := rfl
  rows m _ hm := cleared_row hm
  slots j hj := cleared_slot (by simpa using hj)
  cleared j hj := by
    rw [List.mem_singleton.mp hj, cleared_self, tgt_zero]

/-- **The last entry is cleared, and the frame goes**, with what is behind it. -/
theorem Sound.unrefed_last (H : Sound c G s) (he : Even c z G s) (hz : 1 ≤ z) (hn : Holds G n i)
    (h : tgt (s.mem n i) = some p) (hlast : s.isLast (s.mem n i) = true)
    (hk : G.kind p = .data ∨ G.kind p = .table) (hpn : p ≠ n)
    (U : Unrefed c z p is G (s.cleared n i) G' s') (hempty : G.kind p = .table → ∀ j, j ∈ is)
    (hkept : Kept c G (s.cleared n i) G' s' n) :
    Unrefed c z n [i] G s (G'.release p) (s'.freed p) ∧
      ∀ b, entries (G'.release p) (s'.freed p) b = entries G' s' b := by
  obtain ⟨hpz, h0, hc⟩ := H.last he hz hn h hlast
  have hclear := H.entries_cleared hn
  have hkp : G'.kind p = G.kind p := U.kept p (.inr (.inl h0))
  have h0' : entries G' s' p = 0 := Nat.le_zero.mp (h0 ▸ U.le p)
  have hc' : s'.refCounts p = 0 := by
    rw [← U.sound.bias_eq h0', U.bias, (H.clear hn).bias_eq h0]
    exact hc
  obtain ⟨S, E⟩ := U.sound.release (f := p) (by rwa [hkp])
      (fun hkt j => U.cleared j (hempty (hkp ▸ hkt) j)) h0' hc'
  have hother : ∀ m, m ≠ p → entries G (s.cleared n i) m = entries G s m := fun m hm => by
    have := hclear m
    rwa [h, if_neg (fun h' => hm (Option.some.inj h').symm), Nat.add_zero] at this
  have hp : 0 < entries G s p := H.entries_pos hn h
  -- a frame that is kept is not the one that goes, and it was kept before
  have hboth : ∀ m, Kept c G s (G'.release p) (s'.freed p) m →
      m ≠ p ∧ Kept c G (s.cleared n i) G' s' m := by
    intro m hm
    unfold Kept at hm ⊢
    rw [E] at hm
    have hmp : m ≠ p := by
      rintro rfl
      omega
    rw [hother m hmp]
    exact ⟨hmp, hm⟩
  have hrow : s'.mem n = (s.cleared n i).mem n := U.rows n hkept (Ne.symm hpn)
  refine ⟨{
    sound := S
    even := ⟨U.even.zero, fun b hb hpos => U.even.rest b hb (by rwa [E] at hpos)⟩
    bias := U.bias
    le := fun b => ?_
    lost := fun m hm => ?_
    kept := fun m hm => ?_
    avail := U.avail
    rows := fun m hm hmn => ?_
    slots := fun j hj => ?_
    cleared := fun j hj => ?_ }, E⟩
  · rw [E]
    refine (U.le b).trans ?_
    have := hclear b
    omega
  · by_cases hmp : m = p
    · rw [hmp, release_kind_self]
    · rw [release_kind hmp]
      refine U.lost m fun hm' => hm ?_
      unfold Kept at hm' ⊢
      rwa [E, ← hother m hmp]
  · obtain ⟨hmp, hm'⟩ := hboth m hm
    rw [release_kind hmp, U.kept m hm']
  · obtain ⟨hmp, hm'⟩ := hboth m hm
    rw [freed_row hmp, U.rows m hm' hmp, cleared_row hmn]
  · rw [freed_row (Ne.symm hpn), hrow, cleared_slot (by simpa using hj)]
  · rw [freed_row (Ne.symm hpn), hrow, List.mem_singleton.mp hj, cleared_self, tgt_zero]

/-- **`unref` of an entry of a table.** -/
theorem Sound.unref_data (H : Sound c G s) (he : Even c z G s) (hz : 1 ≤ z) (ht : G.kind t = .table)
    (j : Index) :
    ∃ G', Unrefed c z t [j] G s G' (s.dropData t j) ∧
      ∀ m, G.kind m = .table → entries G' (s.dropData t j) m = entries G s m := by
  have hn : Holds G t j := Or.inr ht
  cases h : tgt (s.mem t j) with
  | none =>
    rw [dropData_of_absent h]
    refine ⟨G, Unrefed.refl H he fun j' hj' => ?_, fun _ _ => rfl⟩
    rw [List.mem_singleton.mp hj', h]
  | some p =>
    have htable : ∀ m, G.kind m = .table → entries G (s.cleared t j) m = entries G s m := fun m hm => by
      have hc := H.entries_cleared hn m
      rwa [if_neg (H.not_target_holder ht (.inr hm)), Nat.add_zero] at hc
    rw [dropData_of_tgt h]
    by_cases hlast : s.isLast (s.mem t j) = true
    · obtain ⟨hpz, -, -⟩ := H.last he hz hn h hlast
      have hk : G.kind p = .data := (H.pte ht h).resolve_left hpz
      have hpt : p ≠ t := by
        rintro rfl
        rw [hk] at ht
        cases ht
      have U : Unrefed c z p [] G (s.cleared t j) G (s.cleared t j) :=
        Unrefed.refl (H.clear hn) (he.cleared H hn) (by simp)
      obtain ⟨U', E⟩ := H.unrefed_last he hz hn h hlast (.inl hk) hpt U (fun hkt => by simp [hk] at hkt)
        (by unfold Kept; omega)
      rw [if_pos hlast]
      exact ⟨G.release p, U', fun m hm => (E m).trans (htable m hm)⟩
    · rw [if_neg hlast]
      have hlast' := Bool.eq_false_iff.mpr hlast
      exact ⟨G, H.unrefed_cleared he hn h (H.not_last he hn h hlast'), htable⟩

/-- **A run of `unref` over entries of a table**; an entry of a directory does not matter to it. -/
theorem Sound.unref_loop (H : Sound c G s) (he : Even c z G s) (hz : 1 ≤ z) (hd : G.kind n = .dir)
    (ht : G.kind t = .table) (e : Word) (is : List Index) :
    ∃ G' s', Unrefed c z t is G s G' s' ∧ (∀ m, G.kind m = .table → entries G' s' m = entries G s m) ∧
      is.forM (fun j => unrefData t j) s = .ok ((), s') ∧
      is.forM (fun j => unrefData t j) (s.setWord n i e) = .ok ((), s'.setWord n i e) := by
  induction is generalizing G s with
  | nil => exact ⟨G, s, Unrefed.refl H he (by simp), fun _ _ => rfl, rfl, rfl⟩
  | cons j is ih =>
    have hnt : n ≠ t := by
      rintro rfl
      rw [hd] at ht
      cases ht
    have hdir := H.not_target_holder ht (.inl hd) (j := j)
    have htab := H.not_target_holder ht (.inr ht) (j := j)
    obtain ⟨G₁, U₁, E₁⟩ := H.unref_data he hz ht j
    have hd₁ : G₁.kind n = .dir := (U₁.kept n (.inr (.inl (H.entries_dir hd)))).trans hd
    have htables : ∀ m, G.kind m = .table → G₁.kind m = .table := fun m hm => by
      refine (U₁.kept m ?_).trans hm
      have := E₁ m hm
      unfold Kept
      omega
    obtain ⟨G', s', U', E', hrun, hrun'⟩ := ih U₁.sound U₁.even hd₁ (htables t ht)
    refine ⟨G', s', U₁.trans U', fun m hm => (E' m (htables m hm)).trans (E₁ m hm), ?_, ?_⟩
    · exact (bind_of_eq (unrefData_eq htab)).trans hrun
    · have hmem : (s.setWord n i e).mem t = s.mem t := setWord_row (Ne.symm hnt)
      have hfirst : unrefData t j (s.setWord n i e) = .ok ((), (s.dropData t j).setWord n i e) := by
        rw [unrefData_eq (by rw [hmem]; exact htab), dropData_setWord hnt hdir]
      exact (bind_of_eq hfirst).trans hrun'

/-- **`unref` of an entry of a directory.** -/
theorem Sound.unref_table (H : Sound c G s) (he : Even c z G s) (hz : 1 ≤ z) (hd : G.kind n = .dir)
    (hi : isUser i = true) : ∃ G' s', unrefTable n i s = .ok ((), s') ∧ Unrefed c z n [i] G s G' s' := by
  have hn : Holds G n i := Or.inl ⟨hd, hi⟩
  cases h : tgt (s.mem n i) with
  | none =>
    refine ⟨G, s, unrefWith_absent h, Unrefed.refl H he fun j hj => ?_⟩
    rw [List.mem_singleton.mp hj, h]
  | some t =>
    have ht : G.kind t = .table := H.pde hd hi h
    have htn : t ≠ n := by
      rintro rfl
      rw [hd] at ht
      cases ht
    obtain ⟨G', s', U, -, -, hrun⟩ :=
      (H.clear hn).unref_loop (he.cleared H hn) hz hd ht (i := i) (s.mem n i)
      (List.finRange 1024)
    have hkept : Kept c G (s.cleared n i) G' s' n := Or.inr (.inl ((H.clear hn).entries_dir hd))
    have h0 : s'.mem n i = 0#32 := by
      rw [U.rows n hkept (Ne.symm htn)]
      exact setWord_self _ _ _ _
    have hrun' : unrefTable n i s = .ok ((), if s.isLast (s.mem n i) then s'.freed t else s.cleared n i) :=
      unrefWith_eq h htn (fun _ => hrun) h0
    by_cases hlast : s.isLast (s.mem n i) = true
    · rw [if_pos hlast] at hrun'
      exact ⟨G'.release t, s'.freed t, hrun', (H.unrefed_last he hz hn h hlast (.inr ht) htn U
        (fun _ j => List.mem_finRange j) hkept).1⟩
    · rw [if_neg hlast] at hrun'
      exact ⟨G, s.cleared n i, hrun', H.unrefed_cleared he hn h
        (H.not_last he hn h (Bool.eq_false_iff.mpr hlast))⟩

end GheithOS.Vmm
