import GheithOS.Vmm.Accounting

/-!
# GheithOS.Vmm.Moves — the elementary moves of the accounting

Every operation of `vmm.cc` is a sequence of few moves: a frame is taken from the pool or given
back, a frame that nobody targets changes its use, a frame is filled, an entry is written.  Here is
what each of them does to `Sound`; the operations are put together from them and never open the
invariant again.
-/

namespace GheithOS.Vmm

open Cow Lib Function

variable {c : Config} {G G' : Ghost} {s s' : Vm} {X Y : Set ℕ} {n m d t f a : ℕ} {i j : Index} {w : Word}

/-! ### States -/

section States

@[simp] theorem setWord_self (s : Vm) (n : ℕ) (i : Index) (w : Word) : (s.setWord n i w).mem n i = w := by
  simp [Vm.setWord]

theorem setWord_of_ne (h : m ≠ n ∨ j ≠ i) : (s.setWord n i w).mem m j = s.mem m j := by
  unfold Vm.setWord
  by_cases hm : m = n
  · subst hm
    simp only [update_self]
    exact update_of_ne (h.resolve_left (by simp)) _ _
  · simp only [update_of_ne hm]

theorem setWord_row (h : m ≠ n) : (s.setWord n i w).mem m = s.mem m := update_of_ne h _ _

@[simp] theorem setRow_self (s : Vm) (n : ℕ) (row : Row) : (s.setRow n row).mem n = row := update_self _ _ _

theorem setRow_of_ne {row : Row} (h : m ≠ n) : (s.setRow n row).mem m = s.mem m := update_of_ne h _ _

@[simp] theorem addCount_self (s : Vm) (n : ℕ) (k : ℤ) : (s.addCount n k).refCounts n = s.refCounts n + k :=
  update_self _ _ _

theorem addCount_of_ne {k : ℤ} (h : m ≠ n) : (s.addCount n k).refCounts m = s.refCounts m :=
  update_of_ne h _ _

/-- The state with other counts. -/
def Vm.withCounts (s : Vm) (rc : ℕ → ℤ) : Vm := { s with refCounts := rc }

/-- The entries in the eyes of the accounting, after one is written. -/
theorem slot_setWord {kind : ℕ → Kind} (h : kind n = .dir → isUser i = true) :
    slot kind (s.setWord n i w).mem = setSlot (slot kind s.mem) n i (entryRef w) := by
  funext m j
  by_cases hm : m = n ∧ j = i
  · obtain ⟨rfl, rfl⟩ := hm
    rw [setSlot_self, slot, setWord_self]
    by_cases hk : kind m = .dir
    · simp [h hk]
    · simp [hk]
  · have hne : m ≠ n ∨ j ≠ i := by
      by_contra hc
      push Not at hc
      exact hm hc
    rw [setSlot_of_ne hne, slot, slot, setWord_of_ne hne]

end States

/-! ### Rows that do not matter -/

section Rows

theorem Chain.congr {mem mem' : ℕ → Row} {p : Option ℕ} {l : List ℕ} (h : ∀ n ∈ l, mem' n = mem n)
    (hc : Chain mem p l) : Chain mem' p l := by
  induction l generalizing p with
  | nil =>
    cases p with
    | none => trivial
    | some p => exact hc
  | cons q l ih =>
    cases p with
    | none => exact hc
    | some p =>
      obtain ⟨rfl, hc⟩ := hc
      refine ⟨rfl, ?_⟩
      rw [h p List.mem_cons_self]
      exact ih (fun n hn => h n (List.mem_cons_of_mem _ hn)) hc

/-- **Rows may change** as long as the accounting sees the same entries. -/
theorem Sound.of_slots (H : Sound c G s)
    (hslot : ∀ m ∈ holders G.kind, slot G.kind s'.mem m = slot G.kind s.mem m)
    (hfree : ∀ m, G.kind m = .free → s'.mem m = s.mem m)
    (hbase : s'.mem c.baseDirectory = s.mem c.baseDirectory) (hfirst : s'.firstFree = s.firstFree)
    (havail : s'.avail = s.avail) (hlimit : s'.limit = s.limit)
    (hcounts : s'.refCounts = s.refCounts) : Sound c G s' := by
  have hdir : ∀ {m i}, G.kind m = .dir → isUser i = true →
      entryRef (s'.mem m i) = entryRef (s.mem m i) := by
    intro m i hk hi
    have h := congrFun (hslot m (H.mem_holders.mpr (.inl hk))) i
    rwa [slot_dir hi, slot_dir hi] at h
  have htable : ∀ {m i}, G.kind m = .table → entryRef (s'.mem m i) = entryRef (s.mem m i) := by
    intro m i hk
    have h := congrFun (hslot m (H.mem_holders.mpr (.inr hk))) i
    rwa [slot_table hk, slot_table hk] at h
  have hback : ∀ {w w' : Word} {a}, entryRef w' = entryRef w → tgt w' = some a → tgt w = some a ∧
      isRw w = isRw w' := by
    intro w w' a h ha
    rw [entryRef_of_tgt ha, eq_comm] at h
    exact entryRef_eq_some.mp h
  have hent : ∀ a, entries G s' a = entries G s a := fun a => by
    rw [entries, entries, total, total, shared_congr hslot, owned_congr hslot]
  exact {
    chain := by
      rw [hfirst]
      exact H.chain.congr fun m hm => hfree m ((H.free_iff m).mp hm)
    nodup := H.nodup
    free_iff := H.free_iff
    range := by
      rw [havail]
      exact H.range
    pool_le := by
      rw [havail]
      exact H.pool_le
    avail_le := by
      rw [havail, hlimit]
      exact H.avail_le
    limit_le := by
      rw [hlimit]
      exact H.limit_le
    zero_lt := H.zero_lt
    base_lt := H.base_lt
    pde := fun hk hi h => H.pde hk hi (hback (hdir hk hi) h).1
    pte := fun hk h => H.pte hk (hback (htable hk) h).1
    zero_ro := fun hk h => by
      obtain ⟨h1, h2⟩ := hback (htable hk) h
      rw [← h2]
      exact H.zero_ro hk h1
    base := fun i hi => by
      rw [hbase]
      exact H.base i hi
    balanced := by
      rw [hcounts]
      exact H.balanced.congr hslot
    loose := fun a ha => by
      rw [hent]
      exact H.loose a ha
    lone := fun t j a hk h ha => by
      rw [hent]
      exact H.lone t j a hk (hback (htable hk) h).1 ha
    zero_bias := H.zero_bias
    clean := by
      rw [havail, hcounts]
      exact H.clean }

/-- **Frames that hold no entries** may be filled with anything. -/
theorem Sound.setRow (H : Sound c G s) (row : Row) (hf : G.kind n ≠ .free) (hd : G.kind n ≠ .dir)
    (ht : G.kind n ≠ .table) (hb : n ≠ c.baseDirectory) : Sound c G (s.setRow n row) := by
  have hrow : ∀ m, m ≠ n → (s.setRow n row).mem m = s.mem m := fun m hm => setRow_of_ne hm
  refine H.of_slots (fun m hm => ?_) (fun m hm => hrow m ?_) (hrow _ (Ne.symm hb)) rfl rfl rfl rfl
  · have hmn : m ≠ n := by
      rintro rfl
      rcases H.mem_holders.mp hm with h | h
      · exact hd h
      · exact ht h
    funext i
    rw [slot, slot, hrow m hmn]
  · rintro rfl
    exact hf hm

end Rows

/-! ### Writing an entry -/

section Entry

/-- The ghost with other biases. -/
def Ghost.withBias (G : Ghost) (bias : ℕ → ℤ) : Ghost := { G with bias := bias }

theorem entries_setWord {rc : ℕ → ℤ} {bias : ℕ → ℤ} (hu : G.kind n = .dir → isUser i = true) (a : ℕ) :
    entries (G.withBias bias) ((s.setWord n i w).withCounts rc) a =
      total (holders G.kind) (setSlot (slot G.kind s.mem) n i (entryRef w)) a := by
  rw [← slot_setWord hu, entries, Ghost.withBias, Vm.withCounts]

/-- An entry that counts. -/
def Holds (G : Ghost) (n : ℕ) (i : Index) : Prop := G.kind n = .dir ∧ isUser i = true ∨ G.kind n = .table

theorem Holds.user (h : Holds G n i) : G.kind n = .dir → isUser i = true := fun hd => by
  rcases h with h | h
  · exact h.2
  · rw [h] at hd
    cases hd

/-- **An entry is written**: what has to be checked. -/
theorem Sound.setWord (H : Sound c G s) {rc bias : ℕ → ℤ} (hn : Holds G n i)
    (hpde : G.kind n = .dir → ∀ t, tgt w = some t → G.kind t = .table)
    (hpte : G.kind n = .table → ∀ f, tgt w = some f → f = c.zeroFrame ∧ isRw w = false ∨ G.kind f = .data)
    (hbal : Balanced (holders G.kind) (setSlot (slot G.kind s.mem) n i (entryRef w)) rc bias)
    (hloose : ∀ a, bias a < 0 → total (holders G.kind) (setSlot (slot G.kind s.mem) n i (entryRef w)) a ≤ 1)
    (hlone : ∀ t j a, G.kind t = .table → tgt ((s.setWord n i w).mem t j) = some a → bias a < 0 →
      total (holders G.kind) (setSlot (slot G.kind s.mem) n i (entryRef w)) t ≤ 1)
    (hzero : 1 ≤ bias c.zeroFrame)
    (hclean : ∀ n, G.kind n = .free ∨ G.kind n = .limbo ∨ G.kind n = .dir ∨ s.avail ≤ n → rc n = 0) :
    Sound c (G.withBias bias) ((s.setWord n i w).withCounts rc) := by
  have hu := hn.user
  have hfree : G.kind n ≠ .free ∧ n ≠ c.baseDirectory := by
    constructor
    · rcases hn with hn | hn
      · simp [hn.1]
      · simp [hn]
    · rintro rfl
      rw [Holds, H.kind_base] at hn
      simp at hn
  refine {
    chain := H.chain.congr fun m hm => setWord_row fun h => hfree.1 (h ▸ (H.free_iff m).mp hm)
    nodup := H.nodup
    free_iff := H.free_iff
    range := H.range
    pool_le := H.pool_le
    avail_le := H.avail_le
    limit_le := H.limit_le
    zero_lt := H.zero_lt
    base_lt := H.base_lt
    pde := fun {d' i' t} hk hi h => ?_
    pte := fun {t j f} hk h => ?_
    zero_ro := fun {t j} hk h => ?_
    base := fun i' hi => ?_
    balanced := ?_
    loose := fun a ha => ?_
    lone := fun t j a hk h ha => ?_
    zero_bias := hzero
    clean := hclean }
  · change tgt ((s.setWord n i w).mem d' i') = some t at h
    by_cases he : d' ≠ n ∨ i' ≠ i
    · rw [setWord_of_ne he] at h
      exact H.pde hk hi h
    · push Not at he
      obtain ⟨rfl, rfl⟩ := he
      rw [setWord_self] at h
      exact hpde hk t h
  · change tgt ((s.setWord n i w).mem t j) = some f at h
    by_cases he : t ≠ n ∨ j ≠ i
    · rw [setWord_of_ne he] at h
      exact H.pte hk h
    · push Not at he
      obtain ⟨rfl, rfl⟩ := he
      rw [setWord_self] at h
      exact (hpte hk f h).imp And.left id
  · change tgt ((s.setWord n i w).mem t j) = some c.zeroFrame at h
    change isRw ((s.setWord n i w).mem t j) = false
    by_cases he : t ≠ n ∨ j ≠ i
    · rw [setWord_of_ne he] at h ⊢
      exact H.zero_ro hk h
    · push Not at he
      obtain ⟨rfl, rfl⟩ := he
      rw [setWord_self] at h ⊢
      rcases hpte hk _ h with h' | h'
      · exact h'.2
      · rw [H.kind_zero] at h'
        cases h'
  · change tgt ((s.setWord n i w).mem c.baseDirectory i') = none
    rw [setWord_of_ne (.inl (Ne.symm hfree.2))]
    exact H.base i' hi
  · change Balanced (holders G.kind) (slot G.kind (s.setWord n i w).mem) rc bias
    rwa [slot_setWord hu]
  · rw [entries_setWord hu]
    exact hloose a ha
  · rw [entries_setWord hu]
    exact hlone t j a hk h ha

theorem Holds.slot (h : Holds G n i) : slot G.kind s.mem n i = entryRef (s.mem n i) := by
  rcases h with h | h
  · exact slot_dir h.2
  · exact slot_table h i

theorem Sound.mem_of_holds (H : Sound c G s) (h : Holds G n i) : n ∈ holders G.kind :=
  H.mem_holders.mpr (h.imp And.left id)

theorem map_fst_entryRef (w : Word) : (entryRef w).map Prod.fst = tgt w := by
  unfold entryRef
  cases tgt w <;> rfl

theorem Sound.entries_write (H : Sound c G s) (hn : Holds G n i) (w : Word) (a : ℕ) :
    total (holders G.kind) (setSlot (Vmm.slot G.kind s.mem) n i (entryRef w)) a +
      (if tgt (s.mem n i) = some a then 1 else 0) = entries G s a + (if tgt w = some a then 1 else 0) := by
  have h := total_setSlot (Vmm.slot G.kind s.mem) (H.mem_of_holds hn) i (entryRef w) a
  rwa [hn.slot, map_fst_entryRef, map_fst_entryRef] at h

theorem Sound.entries_pos (H : Sound c G s) (hn : Holds G n i) (h : tgt (s.mem n i) = some a) :
    0 < entries G s a :=
  total_pos (H.mem_of_holds hn) (hn.slot.trans (entryRef_of_tgt h))

theorem Sound.entry_unique (H : Sound c G s) (h1 : entries G s a ≤ 1) (hn : Holds G n i) (hm : Holds G m j)
    (hi : tgt (s.mem n i) = some a) (hj : tgt (s.mem m j) = some a) : n = m ∧ i = j :=
  H.balanced.unique h1 (H.mem_of_holds hn) (H.mem_of_holds hm) (hn.slot.trans (entryRef_of_tgt hi))
    (hm.slot.trans (entryRef_of_tgt hj))

theorem Sound.entries_owned (H : Sound c G s) (hn : Holds G n i) (h : tgt (s.mem n i) = some a)
    (hw : isRw (s.mem n i) = true) : entries G s a = 1 :=
  H.balanced.total_of_owned (H.mem_of_holds hn) (hn.slot.trans (entryRef_eq_some.mpr ⟨h, hw⟩))

/-- The count of the target of a read-only entry is one only if that is its only entry. -/
theorem Sound.single (H : Sound c G s) (hn : Holds G n i) (h : tgt (s.mem n i) = some a)
    (hr : isRw (s.mem n i) = false) (hone : s.refCounts a = 1) :
    shared (holders G.kind) (Vmm.slot G.kind s.mem) a = 1 ∧ G.bias a = 0 ∧ entries G s a = 1 := by
  have h1 : 0 < shared (holders G.kind) (Vmm.slot G.kind s.mem) a :=
    shared_pos (H.mem_of_holds hn) (hn.slot.trans (entryRef_eq_some.mpr ⟨h, hr⟩))
  have h2 := H.balanced.owned_eq_zero h1
  have h3 := H.balanced.count_eq a
  have h4 := H.loose a
  unfold entries total at h4 ⊢
  omega

theorem Sound.bias_eq (H : Sound c G s) (h : entries G s a = 0) : G.bias a = s.refCounts a := by
  have h1 := H.balanced.count_eq a
  unfold entries total at h
  omega

theorem Pool.ne_idle (H : Pool c G s) (ha : G.kind a = .table ∨ G.kind a = .data ∨ a = c.zeroFrame) {b : ℕ}
    (hb : G.kind b = .free ∨ G.kind b = .limbo ∨ G.kind b = .dir ∨ s.avail ≤ b) : b ≠ a := by
  rintro rfl
  have h1 := H.pool_le
  have h2 := H.zero_lt
  rcases ha with ha | ha | rfl
  · have h3 := H.range b (by simp [ha])
    simp only [ha, reduceCtorEq, false_or] at hb
    omega
  · have h3 := H.range b (by simp [ha])
    simp only [ha, reduceCtorEq, false_or] at hb
    omega
  · simp only [H.kind_zero, reduceCtorEq, false_or] at hb
    omega

theorem Sound.kind_target (H : Sound c G s) (hn : Holds G n i) (h : tgt (s.mem n i) = some a) :
    G.kind a = .table ∨ G.kind a = .data ∨ a = c.zeroFrame := by
  rcases hn with ⟨hd, hi⟩ | ht
  · exact .inl (H.pde hd hi h)
  · exact .inr (H.pte ht h).symm

theorem Sound.ne_target (H : Sound c G s) (hn : Holds G n i) (h : tgt (s.mem n i) = some a) {b : ℕ}
    (hb : G.kind b = .free ∨ G.kind b = .limbo ∨ G.kind b = .dir ∨ s.avail ≤ b) : b ≠ a :=
  H.ne_idle (H.kind_target hn h) hb

/-- **The flip**: the only read-only entry of a frame becomes writable. -/
theorem Sound.promote (H : Sound c G s) (hn : Holds G n i) (h : tgt (s.mem n i) = some a)
    (hr : isRw (s.mem n i) = false) (hone : s.refCounts a = 1) :
    Sound c G ((s.addCount a (-1)).setWord n i (s.mem n i ||| flagRw)) := by
  obtain ⟨h1, h2, h3⟩ := H.single hn h hr hone
  have hw : entryRef (s.mem n i ||| flagRw) = some (a, true) := entryRef_eq_some.mpr ⟨by simp [h], by simp⟩
  have hent : ∀ b, total (holders G.kind)
      (setSlot (Vmm.slot G.kind s.mem) n i (entryRef (s.mem n i ||| flagRw))) b =
      entries G s b := fun b => by
    have := H.entries_write hn (s.mem n i ||| flagRw) b
    rw [tgt_setRw] at this
    omega
  have hbal := H.balanced.promote (H.mem_of_holds hn) (hn.slot.trans (entryRef_eq_some.mpr ⟨h, hr⟩)) h1
  rw [← hw, sub_eq_add_neg] at hbal
  have hz : a ≠ c.zeroFrame := by
    rintro rfl
    have := H.zero_bias
    omega
  refine H.setWord hn (fun hk t ht => ?_) (fun hk f hf => ?_) hbal (fun b hb => ?_)
    (fun t j b hk hj hb => ?_) H.zero_bias (fun b hb => ?_)
  · rw [tgt_setRw] at ht
    exact H.pde hk (hn.user hk) ht
  · rw [tgt_setRw] at hf
    refine .inr ((H.pte hk hf).resolve_left fun h0 => hz ?_)
    rw [h] at hf
    exact (Option.some.inj hf).trans h0
  · rw [hent]
    exact H.loose b hb
  · rw [hent]
    refine H.lone t j b hk ?_ hb
    by_cases he : t ≠ n ∨ j ≠ i
    · rwa [setWord_of_ne he] at hj
    · push Not at he
      obtain ⟨rfl, rfl⟩ := he
      rwa [setWord_self, tgt_setRw] at hj
  · rw [addCount_of_ne (H.ne_target hn h hb)]
    exact H.clean b hb

/-- **An entry is cleared**; a read-only one gives its count up. -/
theorem Sound.clear (H : Sound c G s) (hn : Holds G n i) :
    Sound c G ((s.setWord n i 0#32).withCounts fun a =>
      s.refCounts a - if sharedTgt (entryRef (s.mem n i)) = some a then 1 else 0) := by
  have hent : ∀ b, total (holders G.kind) (setSlot (Vmm.slot G.kind s.mem) n i (entryRef 0#32)) b ≤
      entries G s b :=
    fun b => by
    have := H.entries_write hn 0#32 b
    simp only [tgt_zero, reduceCtorEq, ite_false] at this
    omega
  have hbal := H.balanced.clear (H.mem_of_holds hn) i
  rw [← entryRef_zero, hn.slot] at hbal
  refine H.setWord hn (fun _ t ht => ?_) (fun _ f hf => ?_) hbal (fun b hb => ?_)
    (fun t j b hk hj hb => ?_) H.zero_bias (fun b hb => ?_)
  · rw [tgt_zero] at ht
    cases ht
  · rw [tgt_zero] at hf
    cases hf
  · exact le_trans (hent b) (H.loose b hb)
  · refine le_trans (hent t) (H.lone t j b hk ?_ hb)
    by_cases he : t ≠ n ∨ j ≠ i
    · rwa [setWord_of_ne he] at hj
    · push Not at he
      obtain ⟨rfl, rfl⟩ := he
      rw [setWord_self, tgt_zero] at hj
      cases hj
  · rw [if_neg, H.clean b hb, sub_zero]
    intro hx
    exact H.ne_target hn (entryRef_eq_some.mp (sharedTgt_eq.mp hx)).1 hb rfl

/-- What an entry may come to target: a frame of the right use that nothing targets. -/
structure Fresh (G : Ghost) (s : Vm) (n f : ℕ) : Prop where
  pde : G.kind n = .dir → G.kind f = .table
  pte : G.kind n = .table → G.kind f = .data
  alone : entries G s f = 0
  count : s.refCounts f = 0

theorem Fresh.bias (hf : Fresh G s n f) (H : Sound c G s) : G.bias f = 0 :=
  (H.bias_eq hf.alone).trans hf.count

theorem Fresh.not_target (hf : Fresh G s n f) (H : Sound c G s) (hm : Holds G m j) :
    tgt (s.mem m j) ≠ some f := by
  intro h
  have h1 := H.entries_pos hm h
  have h2 := hf.alone
  omega

theorem fresh_target (hf : Fresh G s n f) (hw : tgt w = some f) :
    (G.kind n = .dir → ∀ t, tgt w = some t → G.kind t = .table) ∧
    (G.kind n = .table → ∀ f, tgt w = some f → f = c.zeroFrame ∧ isRw w = false ∨ G.kind f = .data) := by
  constructor
  · intro hk t ht
    obtain rfl : f = t := Option.some.inj (hw.symm.trans ht)
    exact hf.pde hk
  · intro hk g hg
    obtain rfl : f = g := Option.some.inj (hw.symm.trans hg)
    exact .inr (hf.pte hk)

theorem Sound.entries_put (H : Sound c G s) (hn : Holds G n i) (hf : Fresh G s n f) (hw : tgt w = some f) :
    total (holders G.kind) (setSlot (Vmm.slot G.kind s.mem) n i (entryRef w)) f = 1 ∧
    ∀ b, b ≠ f → total (holders G.kind) (setSlot (Vmm.slot G.kind s.mem) n i (entryRef w)) b ≤
      entries G s b := by
  constructor
  · have h := H.entries_write hn w f
    rw [if_neg (hf.not_target H hn), hf.alone, hw, if_pos rfl, Nat.add_zero, Nat.zero_add] at h
    exact h
  · intro b hb
    have h := H.entries_write hn w b
    rw [hw, if_neg (fun h => hb (Option.some.inj h).symm), Nat.add_zero] at h
    exact le_of_le_of_eq (Nat.le_add_right _ _) h

theorem Sound.lone_put (H : Sound c G s) (hn : Holds G n i) (hf : Fresh G s n f)
    (hw : tgt w = some f) {b : ℕ} (hk : G.kind t = .table)
    (hj : tgt ((s.setWord n i w).mem t j) = some b) (hb : G.bias b < 0) :
    total (holders G.kind) (setSlot (Vmm.slot G.kind s.mem) n i (entryRef w)) t ≤ 1 := by
  obtain ⟨h1, h2⟩ := H.entries_put hn hf hw
  by_cases htf : t = f
  · rw [htf, h1]
  · refine le_trans (h2 t htf) (H.lone t j b hk ?_ hb)
    by_cases he : t ≠ n ∨ j ≠ i
    · rw [setWord_of_ne he] at hj
      exact hj
    · push Not at he
      obtain ⟨rfl, rfl⟩ := he
      rw [setWord_self, hw] at hj
      rw [← Option.some.inj hj, hf.bias H] at hb
      omega

/-- **A private copy**: a read-only entry gives its count up and gets a fresh frame to write. -/
theorem Sound.redirect (H : Sound c G s) (hn : Holds G n i) (h : tgt (s.mem n i) = some a)
    (hr : isRw (s.mem n i) = false) (hf : Fresh G s n f) (hw : tgt w = some f) (hrw : isRw w = true) :
    Sound c G ((s.addCount a (-1)).setWord n i w) := by
  have hbal := H.balanced.redirect (H.mem_of_holds hn)
      (hn.slot.trans (entryRef_eq_some.mpr ⟨h, hr⟩)) hf.alone
  rw [← entryRef_eq_some.mpr ⟨hw, hrw⟩, sub_eq_add_neg] at hbal
  obtain ⟨hpde, hpte⟩ := fresh_target (c := c) hf hw
  obtain ⟨h1, h2⟩ := H.entries_put hn hf hw
  refine H.setWord hn hpde hpte hbal (fun b hb => ?_) (fun t j b hk hj hb => H.lone_put hn hf hw hk hj hb)
    H.zero_bias (fun b hb => ?_)
  · by_cases hbf : b = f
    · rw [hbf, h1]
    · exact le_trans (h2 b hbf) (H.loose b hb)
  · rw [addCount_of_ne (H.ne_target hn h hb)]
    exact H.clean b hb

/-- **A new entry**: an entry that targets nothing gets a fresh frame, to write or, with a count
that is then too small, to read. -/
theorem Sound.putFresh (H : Sound c G s) (hn : Holds G n i) (h : tgt (s.mem n i) = none)
    (hf : Fresh G s n f) (hw : tgt w = some f)
    (hlone : isRw w = false → G.kind n = .table → entries G s n ≤ 1) :
    Sound c (G.withBias (update G.bias f (G.bias f - if isRw w = false then 1 else 0)))
      (s.setWord n i w) := by
  have h0 : shared (holders G.kind) (Vmm.slot G.kind s.mem) f = 0 ∧
      owned (holders G.kind) (Vmm.slot G.kind s.mem) f = 0 := by
    have := hf.alone
    unfold entries total at this
    omega
  have hbal := H.balanced.store (H.mem_of_holds hn) (hn.slot.trans (entryRef_eq_none.mpr h)) (isRw w) h0.2
    (fun _ => h0.1) false
  rw [← entryRef_of_tgt hw] at hbal
  simp only [Bool.false_eq_true, and_false, ite_false, add_zero, update_eq_self, and_true] at hbal
  obtain ⟨hpde, hpte⟩ := fresh_target (c := c) hf hw
  obtain ⟨h1, h2⟩ := H.entries_put hn hf hw
  have hzf : c.zeroFrame ≠ f := by
    rintro rfl
    have h3 := H.zero_bias
    rw [hf.bias H] at h3
    omega
  refine H.setWord hn hpde hpte hbal (fun b hb => ?_) (fun t j b hk hj hb => ?_) ?_ H.clean
  · by_cases hbf : b = f
    · rw [hbf, h1]
    · rw [update_of_ne hbf] at hb
      exact le_trans (h2 b hbf) (H.loose b hb)
  · by_cases hbf : b = f
    · -- the new entry stands in `n`, which is targeted once
      subst hbf
      have he : t = n ∧ j = i := by
        by_contra hc
        have hne : t ≠ n ∨ j ≠ i := by
          by_contra h'
          push Not at h'
          exact hc h'
        rw [setWord_of_ne hne] at hj
        exact hf.not_target H (.inr hk) hj
      obtain ⟨rfl, rfl⟩ := he
      have hro : isRw w = false := by
        by_contra hrw
        rw [update_self, if_neg hrw, hf.bias H] at hb
        omega
      have htf : t ≠ b := by
        rintro rfl
        have h3 := hf.pte hk
        rw [hk] at h3
        cases h3
      exact le_trans (h2 t htf) (hlone hro hk)
    · rw [update_of_ne hbf] at hb
      exact H.lone_put hn hf hw hk hj hb
  · rw [update_of_ne hzf]
    exact H.zero_bias

theorem Sound.zero_not_owned (H : Sound c G s) :
    owned (holders G.kind) (Vmm.slot G.kind s.mem) c.zeroFrame = 0 := by
  refine refs_eq_zero.mpr fun m hm i' hx => ?_
  obtain ⟨h1, h2, h3⟩ := slot_eq_some (ownedTgt_eq.mp hx)
  rcases H.mem_holders.mp hm with hd | ht
  · have h4 := H.pde hd (h3 hd) h1
    rw [H.kind_zero] at h4
    cases h4
  · rw [H.zero_ro ht h1] at h2
    cases h2

/-- **The zero frame** is mapped read-only, with a reference taken before. -/
theorem Sound.putZero (H : Sound c G s) (hk : G.kind t = .table) (h : tgt (s.mem t j) = none)
    (hw : tgt w = some c.zeroFrame) (hr : isRw w = false) (hz : 2 ≤ G.bias c.zeroFrame) :
    Sound c (G.withBias (update G.bias c.zeroFrame (G.bias c.zeroFrame - 1))) (s.setWord t j w) := by
  have hn : Holds G t j := Or.inr hk
  have h0 := H.zero_not_owned
  have hbal := H.balanced.store (H.mem_of_holds hn) (hn.slot.trans (entryRef_eq_none.mpr h)) false h0
    (fun h => by cases h) false
  rw [← entryRef_eq_some.mpr ⟨hw, hr⟩] at hbal
  simp only [Bool.false_eq_true, and_false, ite_false, add_zero, update_eq_self, and_self, ite_true] at hbal
  have hent : ∀ b, b ≠ c.zeroFrame →
      total (holders G.kind) (setSlot (Vmm.slot G.kind s.mem) t j (entryRef w)) b = entries G s b :=
        fun b hb => by
    have := H.entries_write hn w b
    rw [h, hw, if_neg (by simp), if_neg (fun h => hb (Option.some.inj h).symm), Nat.add_zero,
      Nat.add_zero] at this
    exact this
  have hneg : ∀ b, update G.bias c.zeroFrame (G.bias c.zeroFrame - 1) b < 0 →
      b ≠ c.zeroFrame ∧ G.bias b < 0 := fun b hb => by
    by_cases hbz : b = c.zeroFrame
    · subst hbz
      rw [update_self] at hb
      omega
    · rw [update_of_ne hbz] at hb
      exact ⟨hbz, hb⟩
  refine H.setWord hn (fun hd => ?_) (fun _ f hf => ?_) hbal (fun b hb => ?_)
    (fun t' j' b hk' hj hb => ?_) ?_ H.clean
  · rw [hk] at hd
    cases hd
  · exact .inl ⟨(Option.some.inj (hw.symm.trans hf)).symm, hr⟩
  · rw [hent b (hneg b hb).1]
    exact H.loose b (hneg b hb).2
  · have htz : t' ≠ c.zeroFrame := by
      rintro rfl
      rw [H.kind_zero] at hk'
      cases hk'
    rw [hent t' htz]
    refine H.lone t' j' b hk' ?_ (hneg b hb).2
    by_cases he : t' ≠ t ∨ j' ≠ j
    · rwa [setWord_of_ne he] at hj
    · push Not at he
      obtain ⟨rfl, rfl⟩ := he
      rw [setWord_self, hw] at hj
      exact absurd (Option.some.inj hj).symm (hneg b hb).1
  · rw [update_self]
    omega

end Entry

end GheithOS.Vmm
