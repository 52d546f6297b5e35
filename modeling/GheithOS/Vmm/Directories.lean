import GheithOS.Vmm.Mapping

/-!
# GheithOS.Vmm.Directories — `new_directory`, `clone_directory` and `free_directory`

A directory comes to be empty, or as a copy that shares all page tables of another one; and it goes,
with all of its entries.  `DirAdded` and `DirRemoved` say what the other directories keep.
-/

namespace GheithOS.Vmm

open Cow Lib

variable {c : Config} {G G' : Ghost} {s s₁ s' : Vm} {z : ℤ} {n m d d' t f a : ℕ} {i i' j : Index}
  {is : List Index}

/-! ### A directory comes to be -/

section Added

/-- **Directory `d` is new**, and the others are as before. -/
structure DirAdded (ok : Prop) (c : Config) (d : ℕ) (G : Ghost) (s : Vm) (G' : Ghost) (s' : Vm) : Prop where
  sound : Sound c G' s'
  even : ok → ∀ z, Even c z G s → Even c z G' s'
  noLeak : ok → NoLeak c G s → NoLeak c G' s'
  hands : ∀ n, G'.kind n = .limbo → G.kind n = .limbo
  fresh : G.kind d ≠ .dir
  dirs : ∀ n, G'.kind n = .dir ↔ G.kind n = .dir ∨ n = d
  low : ∀ n, n < c.pool → s'.mem n = s.mem n
  kernel : ∀ d' i, G.kind d' = .dir → isUser i = false → s'.mem d' i = s.mem d' i
  spaces : ∀ d' i, G.kind d' = .dir → isUser i = true → space s' d' i = space s d' i

theorem Taken.dirAdded (T : Taken c G s d s₁) (H : Sound c G s) (S : Sound c ((G.take d).setKind d .dir) s')
    (hpos : ∀ b, 0 < entries ((G.take d).setKind d .dir) s' b → 0 < entries G s b)
    (hle : ∀ b, entries G s b ≤ entries ((G.take d).setKind d .dir) s' b) (havail : s'.avail = s₁.avail)
    (hrow : ∀ m, G.kind m ≠ .dir → m ≠ d → s'.mem m = s.mem m)
    (htgt : ∀ m i, G.kind m = .dir → tgt (s'.mem m i) = tgt (s.mem m i))
    (hkernel : ∀ m i, G.kind m = .dir → isUser i = false → s'.mem m i = s.mem m i) :
    DirAdded True c d G s ((G.take d).setKind d .dir) s' := by
  have hkind : ∀ {m}, m ≠ d → ((G.take d).setKind d .dir).kind m = G.kind m := fun hm =>
    (setKind_of_ne hm).trans (take_kind hm)
  refine ⟨S, fun _ z he => ⟨he.zero, fun b hb h => he.rest b hb (hpos b h)⟩,
    fun _ hl => ⟨fun m hm hlt => ?_, fun m hm => ?_⟩, fun m hm => ?_, ?_, fun m => ?_,
      fun m hm => ?_, hkernel, fun d' i hd' hi => ?_⟩
  · by_cases hmd : m = d
    · simp [hmd]
    · rw [hkind hmd]
      exact hl.used m hm ((T.avail m (havail ▸ hlt)).resolve_right hmd)
  · have hmd : m ≠ d := by
      rintro rfl
      simp at hm
    rw [hkind hmd] at hm
    exact lt_of_lt_of_le (hl.targeted m hm) (hle m)
  · have hmd : m ≠ d := by
      rintro rfl
      simp at hm
    rwa [hkind hmd] at hm
  · rcases T.kind with h | h <;> simp [h]
  · by_cases hmd : m = d
    · simp [hmd]
    · rw [hkind hmd]
      simp [hmd]
  · exact hrow m (by simp [H.kind_low hm]) (T.ne_of_lt hm)
  · refine H.space_congr hd' hi (htgt d' i hd') fun t ht => ?_
    refine H.shows_congr ht (fun j => ?_) fun g hg => ?_
    · rw [hrow t (by simp [ht]) (T.ne ht (by simp))]
    · rcases hg with hg | rfl
      · exact hrow g (by simp [hg]) (T.ne hg (by simp))
      · exact hrow _ (by simp [H.kind_zero]) (T.ne_zero H)

/-- **`new_directory`** returns a directory without user memory. -/
theorem newDirectory_added (H : Sound c G s) :
    Ends OutOfFrames (newDirectory c) s fun d s' => ∃ G', DirAdded True c d G s G' s' ∧
      (∀ i, isUser i = false → s'.mem d i = s.mem c.baseDirectory i) ∧ ∀ i, isUser i = true →
        tgt (s'.mem d i) = none := by
  unfold newDirectory
  refine ends_bind ((allocFrame_spec H).mono fun d s₁ T => ends_of_eq rfl ?_)
  have hbase : s₁.mem c.baseDirectory = s.mem c.baseDirectory := T.rows _ (T.ne_of_lt H.base_lt)
  have hbd : d ≠ c.baseDirectory := Ne.symm (T.ne_of_lt H.base_lt)
  have hempty : ∀ i, isUser i = true →
      tgt ((s₁.setRow d (s₁.mem c.baseDirectory)).mem d i) = none := fun i hi => by
    rw [setRow_self, hbase]
    exact H.base i hi
  have S₁ : Sound c (G.take d) (s₁.setRow d (s₁.mem c.baseDirectory)) :=
    T.sound.setRow _ (by simp) (by simp) (by simp) hbd
  have hent : ∀ b, entries (G.take d) (s₁.setRow d (s₁.mem c.baseDirectory)) b =
      entries G s b := fun b => by
    rw [← T.same b]
    refine entries_congr (fun m hm => setRow_of_ne ?_) b
    rintro rfl
    simp at hm
  obtain ⟨S, E⟩ := S₁.setKind (f := d) (k := .dir) (by simp) (by simp) (by simp)
    ((hent d).trans (H.not_targeted T.kind T.pool_le)) (S₁.clean d (.inr (.inl (take_kind_self G d))))
    (fun i hi => by simp [Holds] at hi)
    (fun i hi => hempty i (hi.user (setKind_self _ _ _)))
  have hrow : ∀ m, m ≠ d → (s₁.setRow d (s₁.mem c.baseDirectory)).mem m = s.mem m := fun m hm =>
    (setRow_of_ne hm).trans (T.rows m hm)
  have hdir : ∀ m, G.kind m = .dir → m ≠ d := fun m hm => T.ne hm (by simp)
  refine ⟨_, T.dirAdded H S (fun b hb => ?_) (fun b => ?_) rfl (fun m _ hm => hrow m hm)
    (fun m i hm => by rw [hrow m (hdir m hm)]) (fun m i hm _ => by rw [hrow m (hdir m hm)]),
      fun i _ => ?_, hempty⟩
  · rwa [E, hent] at hb
  · rw [E, hent]
  · rw [setRow_self, hbase]

/-- **`clone_directory`** returns a directory that shows what the other one shows. -/
theorem cloneDirectory_added (H : Sound c G s) (he : Even c z G s) (hz : 1 ≤ z) (hd : G.kind d = .dir) :
    Ends OutOfFrames (cloneDirectory d) s fun d' s' => ∃ G', DirAdded True c d' G s G' s' ∧
      (∀ i, isUser i = false → s'.mem d' i = s.mem d i) ∧
      ∀ i, isUser i = true → space s' d' i = space s d i ∧ tgt (s'.mem d' i) = tgt (s'.mem d i) := by
  unfold cloneDirectory
  apply ends_bind
  apply (allocFrame_spec H).mono
  intro d' s₁ T
  have hdd : d ≠ d' := T.ne hd (by simp)
  have hd₁ : (G.take d').kind d = .dir := (take_kind hdd).trans hd
  have D : Doubled (G.take d') s₁ (s₁.double cloneTurn d d' (List.finRange 1024)) d d' :=
    doubled_dir hd₁ hdd
  have hrun := cloneLoop_eq hdd s₁
  generalize hs' : s₁.double cloneTurn d d' (List.finRange 1024) = s' at D hrun
  have hreturn : (do cloneLoop d d'; return d' : Code ℕ) s₁ = .ok (d', s') := by
    rw [bind_of_eq hrun]
    rfl
  unfold Ends
  rw [hreturn]
  -- no count of a frame that is targeted is too small
  have hbias : ∀ m j a, Holds (G.take d') m j → tgt (s₁.mem m j) = some a →
      0 ≤ (G.take d').bias a := fun m j a hm ha => by
    have he' := T.even he
    by_cases haz : a = c.zeroFrame
    · rw [haz, he'.zero]
      omega
    · exact (he'.rest a haz (T.sound.entries_pos hm ha)).ge
  obtain ⟨S, E⟩ := T.sound.share D (take_kind_self G d') (fun i a hi ha => hbias d i a hi ha)
    (fun i t j a _ _ ht ha => hbias t j a (.inr ht) ha)
  rw [hd₁] at S E
  have hrow : ∀ m, m ≠ d → m ≠ d' → s'.mem m = s.mem m :=
    fun m h1 h2 => (D.rows m h1 h2).trans (T.rows m h2)
  have hold : ∀ i, isUser i = false → s'.mem d i = s.mem d i ∧ s'.mem d' i = s.mem d i := fun i hi => by
    rw [← hs', double_old hdd, double_new, if_pos (List.mem_finRange i),
      if_pos (List.mem_finRange i), T.rows d hdd]
    simp [cloneTurn, hi]
  have htgt : ∀ i, tgt (s'.mem d i) = tgt (s.mem d i) ∧ tgt (s'.mem d' i) = tgt (s.mem d i) := fun i => by
    cases hi : isUser i with
    | false => rw [(hold i hi).1, (hold i hi).2, and_self]
    | true =>
      have hh : Holds (G.take d') d i := Or.inl ⟨hd₁, hi⟩
      rw [D.old_tgt hh, D.new_tgt hh, T.rows d hdd, and_self]
  refine ⟨_, T.dirAdded H S (fun b hb => ?_) (fun b => ?_) D.avail (fun m hm hmd => hrow m ?_ hmd)
    (fun m i hm => ?_)
    (fun m i hm hi => ?_), fun i hi => (hold i hi).2, fun i hi => ⟨?_, (htgt i).2.trans (htgt i).1.symm⟩⟩
  · by_contra h0
    obtain ⟨h1, h2⟩ := D.hits_eq_zero (a := b) fun j hj hb' => by
      have := T.sound.entries_pos hj hb'
      rw [T.same] at this
      omega
    rw [E, T.same] at hb
    omega
  · rw [E, T.same]
    omega
  · rintro rfl
    exact hm hd
  · by_cases hmd : m = d
    · rw [hmd]
      exact (htgt i).1
    · rw [hrow m hmd (T.ne hm (by simp))]
  · by_cases hmd : m = d
    · rw [hmd]
      exact (hold i hi).1
    · rw [hrow m hmd (T.ne hm (by simp))]
  · have hshow : ∀ t, G.kind t = .table → shows s' t = shows s t := fun t ht => by
      have hne : ∀ m, G.kind m ≠ .dir → m ≠ d' → s'.mem m = s.mem m := fun m hm hmd => hrow m (by
        rintro rfl
        exact hm hd) hmd
      refine H.shows_congr ht (fun j => ?_) fun g hg => ?_
      · rw [hne t (by simp [ht]) (T.ne ht (by simp))]
      · rcases hg with hg | rfl
        · exact hne g (by simp [hg]) (T.ne hg (by simp))
        · exact hne _ (by simp [H.kind_zero]) (T.ne_zero H)
    cases ht : tgt (s.mem d i) with
    | none => rw [space_none ht, space_none ((htgt i).2.trans ht)]
    | some t => rw [space_eq ht, space_eq ((htgt i).2.trans ht), hshow t (H.pde hd hi ht)]

end Added

/-! ### A directory goes -/

section Removed

/-- **Directory `d` is gone**, and the others are as before. -/
structure DirRemoved (c : Config) (d : ℕ) (G : Ghost) (s : Vm) (G' : Ghost) (s' : Vm) : Prop where
  sound : Sound c G' s'
  even : ∀ z, Even c z G s → Even c z G' s'
  noLeak : NoLeak c G s → NoLeak c G' s'
  hands : ∀ n, G'.kind n = .limbo → G.kind n = .limbo
  dirs : ∀ n, G'.kind n = .dir ↔ G.kind n = .dir ∧ n ≠ d
  low : ∀ n, n < c.pool → n ≠ c.zeroFrame → s'.mem n = s.mem n
  kernel : ∀ d' i, G.kind d' = .dir → d' ≠ d → isUser i = false → s'.mem d' i = s.mem d' i
  spaces : ∀ d' i, G.kind d' = .dir → d' ≠ d → isUser i = true → space s' d' i = space s d' i

/-- **Entries of a directory** are given up one after the other. -/
theorem Sound.unref_tables (hz : 1 ≤ z) :
    ∀ (is : List Index) {G : Ghost} {s : Vm}, Sound c G s → Even c z G s →
    G.kind d = .dir → (∀ i ∈ is, isUser i = true) →
    ∃ G' s', is.forM (fun i => unrefTable d i) s = .ok ((), s') ∧ Unrefed c z d is G s G' s'
  | [], G, s, H, he, _, _ => ⟨G, s, rfl, Unrefed.refl H he (by simp)⟩
  | i :: is, G, s, H, he, hd, his => by
    obtain ⟨G₁, s₁, hrun, U⟩ := H.unref_table he hz hd (his i List.mem_cons_self)
    obtain ⟨G₂, s₂, hruns, U₂⟩ := Sound.unref_tables hz is U.sound U.even (U.kind_dir H hd)
      fun i' hi' => his i' (List.mem_cons_of_mem _ hi')
    refine ⟨G₂, s₂, ?_, U.trans U₂⟩
    show (unrefTable d i >>= fun _ => is.forM fun i => unrefTable d i) s = _
    rw [bind_of_eq hrun, hruns]

theorem Sound.release_dir (H : Sound c G s) (hd : G.kind d = .dir)
    (hempty : ∀ i, isUser i = true → tgt (s.mem d i) = none) :
    Sound c (G.release d) (s.freed d) ∧ ∀ b, entries (G.release d) (s.freed d) b = entries G s b := by
  obtain ⟨h1, h2⟩ :=
    H.setKind (k := .limbo) (f := d) (by simp [hd]) (by simp [hd]) (by simp) (H.entries_dir hd)
    (H.clean d (.inr (.inr (.inl hd))))
    (fun j hj => hempty j (hj.user hd))
    (fun j hj => by
      rw [Holds, setKind_self] at hj
      simp at hj)
  obtain ⟨h3, h4⟩ := h1.dealloc (setKind_self G d .limbo)
  exact ⟨h3, fun b => (h4 b).trans (h2 b)⟩

/-- **`free_directory`** gives up everything that the directory has. -/
theorem freeDirectory_removed (H : Sound c G s) (he : Even c z G s) (hz : 1 ≤ z) (hd : G.kind d = .dir) :
    ∃ G' s', freeDirectory c d s = .ok ((), s') ∧ DirRemoved c d G s G' s' := by
  have hpool := H.range d (by simp [hd])
  have hbase := H.base_lt
  have his : ∀ i ∈ userIndices, isUser i = true := fun i hi => (List.mem_filter.mp hi).2
  obtain ⟨G₁, s₁, hrun, U⟩ := Sound.unref_tables hz userIndices H he hd his
  have hd₁ : G₁.kind d = .dir := U.kind_dir H hd
  have hempty : ∀ i, isUser i = true → tgt (s₁.mem d i) = none := fun i hi =>
    U.cleared i (List.mem_filter.mpr ⟨List.mem_finRange i, hi⟩)
  obtain ⟨S, E⟩ := U.sound.release_dir hd₁ hempty
  have K := U.keeps H he (.inl hd) fun _ => his
  have hkind : ∀ {m}, m ≠ d → (G₁.release d).kind m = G₁.kind m := fun hm => release_kind hm
  refine ⟨G₁.release d, s₁.freed d, ?_, S, fun z' he' => ⟨?_, fun b hb hpos => ?_⟩,
    fun hl => ⟨fun m hm hlt => ?_, fun m hm => ?_⟩, fun m hm => ?_, fun m => ?_, fun m hm hmz => ?_,
      fun d' i hd' hne hi => ?_, fun d' i hd' hne hi => ?_⟩
  · rw [freeDirectory, if_neg (by omega), bind_of_eq hrun]
    rfl
  · obtain rfl : z' = z := he'.zero.symm.trans he.zero
    exact U.even.zero
  · rw [E] at hpos
    exact U.even.rest b hb hpos
  · by_cases hmd : m = d
    · simp [hmd]
    · rw [hkind hmd]
      exact (K.noLeak trivial z hz he hl).used m hm hlt
  · have hmd : m ≠ d := by
      rintro rfl
      simp at hm
    rw [hkind hmd] at hm
    rw [E]
    exact (K.noLeak trivial z hz he hl).targeted m hm
  · have hmd : m ≠ d := by
      rintro rfl
      simp at hm
    rw [hkind hmd] at hm
    exact K.hands m hm
  · by_cases hmd : m = d
    · simp [hmd]
    · rw [hkind hmd, K.dirs m]
      simp [hmd]
  · rw [freed_row (by omega)]
    exact K.low m hm hmz
  · rw [freed_row hne]
    exact K.kernel d' i hd' hi
  · have hd'₁ : G₁.kind d' = .dir := U.kind_dir H hd'
    have hrow : ∀ m, G₁.kind m ≠ .dir → (s₁.freed d).mem m = s₁.mem m := fun m hm => freed_row (by
      rintro rfl
      exact hm hd₁)
    have hfreed : space (s₁.freed d) d' i = space s₁ d' i := by
      refine U.sound.space_congr hd'₁ hi (by rw [freed_row hne]) fun t ht => ?_
      refine U.sound.shows_congr ht (fun j => by rw [hrow t (by simp [ht])]) fun g hg => hrow g ?_
      rcases hg with hg | rfl
      · simp [hg]
      · simp [U.sound.kind_zero]
    rw [hfreed]
    funext j
    refine U.space_eq H (.inl hd) hd' hi fun i' _ hthrough => ?_
    rcases hthrough with ⟨h, -⟩ | ⟨h, -⟩
    · exact hne h
    · have := H.pde hd' hi h
      simp [hd] at this

end Removed

end GheithOS.Vmm
