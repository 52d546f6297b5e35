import GheithOS.Vmm.Primitives

/-!
# GheithOS.Vmm.Unmap — `unmap_pages`

`unmap_pages` gives up whole page tables, and of the tables at the two ends of its range only the
entries inside the range.  It has read which table that is before `COW::copy` may give the directory
a table of its own, and then edits the old one.  So a table at an end of the range that others share
loses its pages for the others and not for the caller (`Round`).  The counts stay exact all the
same.
-/

namespace GheithOS.Vmm

open Cow Lib
open MemoryMapping (userMemStart sharedAddress)

variable {c : Config} {G G' : Ghost} {s s₁ s' : Vm} {z : ℤ} {d d' n m t f a p : ℕ} {i i' j : Index}
  {is : List Index}

/-! ### Entries that target the same table -/

/-- Another entry of a directory targets the same table. -/
structure Joint (G : Ghost) (s : Vm) (d : ℕ) (i : Index) (d' : ℕ) (i' : Index) : Prop where
  dir : G.kind d' = .dir
  user : isUser i' = true
  other : d' ≠ d ∨ i' ≠ i
  present : tgt (s.mem d i) ≠ none
  same : tgt (s.mem d' i') = tgt (s.mem d i)

theorem Sound.exists_joint (H : Sound c G s) (hd : G.kind d = .dir) (hi : isUser i = true)
    (h : tgt (s.mem d i) = some t) (htwo : 2 ≤ entries G s t) : ∃ d' i', Joint G s d i d' i' := by
  have hn : Holds G d i := Or.inl ⟨hd, hi⟩
  have hleft := H.entries_cleared hn t
  rw [if_pos h] at hleft
  obtain ⟨m, hm, j, b, hslot⟩ := exists_of_total_pos (show 0 < entries G (s.cleared d i) t by omega)
  obtain ⟨htgt, -, huser⟩ := slot_eq_some hslot
  have ht : G.kind t = .table := H.pde hd hi h
  have hne : m ≠ d ∨ j ≠ i := by
    by_contra hc
    obtain ⟨rfl, rfl⟩ : m = d ∧ j = i := by simpa [not_or] using hc
    rw [cleared_self, tgt_zero] at htgt
    cases htgt
  have htgt' : tgt (s.mem m j) = some t := by
    rwa [show (s.cleared d i).mem m j = s.mem m j from setWord_of_ne hne] at htgt
  have hdir : G.kind m = .dir := by
    refine (H.mem_holders.mp hm).resolve_right fun hk => ?_
    exact H.not_target_holder hk (.inr ht) htgt'
  exact ⟨m, j, hdir, huser hdir, hne, by simp [h], htgt'.trans h.symm⟩

theorem Sound.not_joint (H : Sound c G s) (hd : G.kind d = .dir) (hi : isUser i = true)
    (h : tgt (s.mem d i) = some t) (hone : entries G s t ≤ 1) : ¬ Joint G s d i d' i' := fun J => by
  obtain ⟨rfl, rfl⟩ := H.entry_unique hone (.inl ⟨J.dir, J.user⟩) (.inl ⟨hd, hi⟩) (J.same.trans h) h
  simpa using J.other

/-! ### The table of an end of the range -/

/-- **`copy` of a page table** with exact counts: one that nobody shares stays, and of a shared one
the directory gets its own copy. -/
theorem copy_pageTable (H : Sound c G s) (he : Even c z G s) (hd : G.kind d = .dir)
    (hi : isUser i = true) (h : tgt (s.mem d i) = some t) :
    Ends (fun e => allocFrame s = .error e) (copy d i true) s fun _ s₁ => ∃ G₁,
      Copied c G s d i G₁ s₁ ∧ G₁.kind t = .table ∧
      (entries G s t ≤ 1 ∧ tgt (s₁.mem d i) = some t ∨ 2 ≤ entries G s t ∧ tgt (s₁.mem d i) ≠ some t) := by
  have hn : Holds G d i := Or.inl ⟨hd, hi⟩
  have ht : G.kind t = .table := H.pde hd hi h
  have hspec := copy_ends H hn
  rw [decide_eq_true hd] at hspec
  by_cases hone : entries G s t ≤ 1
  · -- no frame is taken
    have hstay : ∃ s₁, copy d i true s = .ok ((), s₁) ∧ tgt (s₁.mem d i) = some t := by
      by_cases hrw : isRw (s.mem d i) = true
      · exact ⟨s, copy_of_idle (.inr hrw), h⟩
      · have hr := Bool.eq_false_iff.mpr hrw
        have hz : t ≠ c.zeroFrame := by
          rintro rfl
          rw [H.kind_zero] at ht
          cases ht
        have hcount : s.refCounts t = 1 := by
          by_contra hc
          have := he.two_le H hn h hr hc hz
          omega
        exact ⟨_, copy_flip h hr hcount, by rw [setWord_self, tgt_setRw, h]⟩
    obtain ⟨s₁, hrun, htgt⟩ := hstay
    obtain ⟨G₁, C, -⟩ := hspec.ok hrun
    have hd₁ : G₁.kind d = .dir := C.kind.trans hd
    exact ends_of_eq hrun ⟨G₁, C, C.sound.pde hd₁ hi htgt, .inl ⟨hone, htgt⟩⟩
  · refine hspec.mono ?_
    rintro _ s₁ ⟨G₁, C, -⟩
    obtain ⟨d', i', J⟩ := H.exists_joint hd hi h (by omega)
    -- another entry still targets the table
    have hd₁ : G₁.kind d = .dir := C.kind.trans hd
    have hd' : G₁.kind d' = .dir := (C.dirs d').mpr J.dir
    have hother : tgt (s₁.mem d' i') = some t := by rw [C.others d' i' J.dir J.other, J.same, h]
    obtain ⟨f, hf, hrw⟩ := C.writable t h
    refine ⟨G₁, C, C.sound.pde hd' J.user hother, .inr ⟨by omega, fun htgt => ?_⟩⟩
    obtain rfl := Option.some.inj (hf.symm.trans htgt)
    have hown := C.sound.entries_owned (.inl ⟨hd₁, hi⟩) hf hrw
    obtain ⟨rfl, rfl⟩ := C.sound.entry_unique (by omega) (.inl ⟨hd', J.user⟩) (.inl ⟨hd₁, hi⟩) hother hf
    simpa using J.other

/-- **Entries that are given up** with exact counts: what every operation keeps. -/
theorem Unrefed.keeps (U : Unrefed c z n is G s G' s') (H : Sound c G s) (he : Even c z G s)
    (hn : G.kind n = .dir ∨ G.kind n = .table) (his : G.kind n = .dir → ∀ i ∈ is, isUser i = true) :
    Keeps True c G s G' s' where
  sound := U.sound
  even _ z' _ he' := by
    obtain rfl : z' = z := he'.zero.symm.trans he.zero
    exact U.even
  noLeak _ _ _ _ hleak := {
    used := fun m hm hlt => by
      by_cases hk : Kept c G s G' s' m
      · rw [U.kept m hk]
        exact hleak.used m hm (U.avail ▸ hlt)
      · rw [U.lost m hk]
        simp
    targeted := fun m hm => by
      by_cases hk : Kept c G s G' s' m
      · have hm' := hm
        rw [U.kept m hk] at hm'
        have hpos := hleak.targeted m hm'
        rcases hk with rfl | hk | hk
        · rw [H.kind_zero] at hm'
          simp at hm'
        · omega
        · exact hk
      · rw [U.lost m hk] at hm
        simp at hm }
  hands m hm := by
    by_cases hk : Kept c G s G' s' m
    · rwa [U.kept m hk] at hm
    · rw [U.lost m hk] at hm
      cases hm
  dirs := U.dirs H
  low m hm hz := by
    have hk := H.kind_low hm
    refine U.rows m (.inr (.inl (H.entries_eq_zero (by simp [hk]) (by simp [hk]) hz))) ?_
    rintro rfl
    simp [hk] at hn
  kernel d i hd hi := by
    refine U.pde_eq H hd ?_
    by_cases hdn : d = n
    · refine .inr fun hmem => ?_
      rw [his (hdn ▸ hd) i hmem] at hi
      cases hi
    · exact .inl hdn

/-- A round leaves pages to the caller that it should not, and takes them from others: some other
entry targets the table, and the table has pages inside the range and outside of it. -/
def Spoiled (G : Ghost) (s : Vm) (d : ℕ) (i : Index) (inside : Index → Prop) : Prop :=
  (∃ d' i', Joint G s d i d' i') ∧ (∃ j, inside j ∧ space s d i j ≠ none) ∧ ∃ j, ¬ inside j ∧
    space s d i j ≠ none

/-- **One round of `unmap_pages`**, for the entry `i` of `d` and the pages `inside` its table. -/
structure Round (c : Config) (d : ℕ) (i : Index) (inside : Index → Prop) (G : Ghost) (s : Vm)
    (G' : Ghost) (s' : Vm) : Prop extends Keeps True c G s G' s' where
  pdes : ∀ d' i', G.kind d' = .dir → d' ≠ d ∨ i' ≠ i → s'.mem d' i' = s.mem d' i'
  /-- Nobody shares what the entry targets afterwards. -/
  alone : ∀ d' i', ¬ Joint G' s' d i d' i'
  /-- Entries that target other tables are not affected. -/
  apart : ∀ d' i', G.kind d' = .dir → isUser i' = true → d' ≠ d ∨ i' ≠ i → ¬ Joint G s d i d' i' →
    space s' d' i' = space s d' i'
  gone : ¬ Spoiled G s d i inside → ∀ j, inside j → space s' d i j = none
  stays : ¬ Spoiled G s d i inside → ∀ d' i' j, G.kind d' = .dir → isUser i' = true →
    ¬ (d' = d ∧ i' = i ∧ inside j) → space s' d' i' j = space s d' i' j
  kept : Spoiled G s d i inside → space s' d i = space s d i
  lost : Spoiled G s d i inside → ∀ d' i' j, Joint G s d i d' i' → inside j → space s' d' i' j = none

theorem space_ne_none (h : tgt (s.mem d i) = some t) : space s d i j ≠ none ↔ tgt (s.mem t j) ≠ none := by
  rw [space_eq h, shows, ne_eq, Option.map_eq_none_iff]

/-- **A whole table** is given up. -/
theorem Sound.round_whole (H : Sound c G s) (he : Even c z G s) (hz : 1 ≤ z) (hd : G.kind d = .dir)
    (hi : isUser i = true) {inside : Index → Prop} (hout : ∀ j, ¬ inside j → space s d i j = none) :
    ∃ G' s', unrefTable d i s = .ok ((), s') ∧ Round c d i inside G s G' s' := by
  obtain ⟨G', s', hrun, U⟩ := H.unref_table he hz hd hi
  have hgone : tgt (s'.mem d i) = none := U.cleared i (List.mem_singleton_self i)
  have hpdes : ∀ d' i', G.kind d' = .dir → d' ≠ d ∨ i' ≠ i → s'.mem d' i' = s.mem d' i' :=
    fun d' i' hd' hne => U.pde_eq H hd' (by simpa using hne)
  have hspaces : ∀ d' i', G.kind d' = .dir → isUser i' = true → d' ≠ d ∨ i' ≠ i →
      space s' d' i' = space s d' i' := by
    intro d' i' hd' hi' hne
    ext1 j
    refine U.space_eq H (.inl hd) hd' hi' fun k hk => ?_
    rw [List.mem_singleton.mp hk]
    rintro (⟨rfl, rfl⟩ | ⟨htgt, -⟩)
    · simp at hne
    · have hk' := H.pde hd' hi' htgt
      rw [hd] at hk'
      cases hk'
  refine ⟨G', s', hrun, {
    toKeeps := U.keeps H he (.inl hd) fun _ k hk => ?_
    pdes := hpdes
    alone := fun d' i' J => J.present hgone
    apart := fun d' i' hd' hi' hne _ => hspaces d' i' hd' hi' hne
    gone := fun _ j _ => by rw [space_none hgone]
    stays := fun _ d' i' j hd' hi' hnot => ?_
    kept := fun ⟨_, _, j, hj, hpage⟩ => absurd (hout j hj) hpage
    lost := fun ⟨_, _, j, hj, hpage⟩ => absurd (hout j hj) hpage }⟩
  · rw [List.mem_singleton.mp hk]
    exact hi
  · by_cases hne : d' ≠ d ∨ i' ≠ i
    · rw [hspaces d' i' hd' hi' hne]
    · obtain ⟨rfl, rfl⟩ : d' = d ∧ i' = i := by simpa [not_or] using hne
      rw [space_none hgone, hout j fun hj => hnot ⟨rfl, rfl, hj⟩]

/-- **Part of a table** is given up, of the one that the entry has targeted at first. -/
theorem Sound.round_part (H : Sound c G s) (he : Even c z G s) (hz : 1 ≤ z) (hd : G.kind d = .dir)
    (hi : isUser i = true) (h : tgt (s.mem d i) = some t) {inside : Index → Prop}
    (his : ∀ j, j ∈ is ↔ inside j) (hout : ∃ j, ¬ inside j ∧ space s d i j ≠ none) :
    Ends (fun e => allocFrame s = .error e) (do copy d i true; is.forM fun j => unrefData t j) s fun _ s' =>
      ∃ G', Round c d i inside G s G' s' := by
  refine ends_bind ((copy_pageTable H he hd hi h).mono ?_)
  rintro _ s₁ ⟨G₁, C, ht₁, hcases⟩
  have he₁ : Even c z G₁ s₁ := C.even trivial z hz he
  have hd₁ : ∀ d', G.kind d' = .dir → G₁.kind d' = .dir := fun d' => (C.dirs d').mpr
  obtain ⟨G', s', U, -, hrun, -⟩ := C.sound.unref_loop he₁ hz (hd₁ d hd) ht₁ (i := i) 0#32 is
  refine ends_of_eq hrun ⟨G', ?_⟩
  have hnd : ∀ d', G.kind d' = .dir → d' ≠ t := fun d' hd' heq => by
    have hk := hd₁ d' hd'
    rw [heq, ht₁] at hk
    cases hk
  have hrow : ∀ d' i', G.kind d' = .dir → s'.mem d' i' = s₁.mem d' i' := fun d' i' hd' =>
    U.pde_eq C.sound (hd₁ d' hd') (.inl (hnd d' hd'))
  -- who targets the old table after `copy` loses the pages inside
  have hlost : ∀ d' i' j, G.kind d' = .dir → isUser i' = true → tgt (s₁.mem d' i') = some t → inside j →
      space s' d' i' j = none := fun d' i' j hd' hi' htgt hj =>
    U.space_none C.sound (hd₁ d' hd') hi' ((his j).mpr hj) (.inr ⟨htgt, rfl⟩)
  have hsame : ∀ d' i' j, G.kind d' = .dir → isUser i' = true → ¬ (tgt (s₁.mem d' i') = some t ∧ inside j) →
      space s' d' i' j = space s d' i' j := by
    intro d' i' j hd' hi' hnot
    rw [← C.spaces d' i' hd' hi']
    refine U.space_eq C.sound (.inr ht₁) (hd₁ d' hd') hi' fun k hk => ?_
    rintro (⟨heq, -⟩ | ⟨htgt, rfl⟩)
    · exact hnd d' hd' heq
    · exact hnot ⟨htgt, (his j).mp hk⟩
  have hother : ∀ d' i', G.kind d' = .dir → d' ≠ d ∨ i' ≠ i → s₁.mem d' i' = s.mem d' i' := C.others
  have hkeeps : Keeps True c G s G' s' :=
    (C.toKeeps.trans (U.keeps C.sound he₁ (.inr ht₁) fun hk => by simp [ht₁] at hk)).weaken fun h => ⟨h, h⟩
  have hjoint : ∀ d' i', G.kind d' = .dir → isUser i' = true → d' ≠ d ∨ i' ≠ i → ¬ Joint G s d i d' i' →
      tgt (s₁.mem d' i') ≠ some t := by
    intro d' i' hd' hi' hne hnot htgt
    rw [hother d' i' hd' hne] at htgt
    exact hnot ⟨hd', hi', hne, by simp [h], htgt.trans h.symm⟩
  have hapart : ∀ d' i', G.kind d' = .dir → isUser i' = true → d' ≠ d ∨ i' ≠ i → ¬ Joint G s d i d' i' →
      space s' d' i' = space s d' i' := by
    intro d' i' hd' hi' hne hnot
    ext1 j
    exact hsame d' i' j hd' hi' fun hc => hjoint d' i' hd' hi' hne hnot hc.1
  obtain ⟨f, hf, hrw⟩ := C.writable t h
  rw [← hrow d i hd] at hf hrw
  have hown := U.sound.entries_owned (.inl ⟨(hkeeps.dirs d).mpr hd, hi⟩) hf hrw
  have halone : ∀ d' i', ¬ Joint G' s' d i d' i' := fun d' i' =>
    U.sound.not_joint ((hkeeps.dirs d).mpr hd) hi hf (by omega)
  have hpdes : ∀ d' i', G.kind d' = .dir → d' ≠ d ∨ i' ≠ i → s'.mem d' i' = s.mem d' i' :=
    fun d' i' hd' hne =>
    (hrow d' i' hd').trans (hother d' i' hd' hne)
  rcases hcases with ⟨hone, htgt⟩ | ⟨htwo, htgt⟩
  · -- nobody else has the table
    have hnot : ∀ d' i', ¬ Joint G s d i d' i' := fun d' i' => H.not_joint hd hi h hone
    refine ⟨hkeeps, hpdes, halone, hapart, fun _ j hj => hlost d i j hd hi htgt hj,
      fun _ d' i' j hd' hi' hc => ?_, fun ⟨⟨d', i', J⟩, _⟩ => absurd J (hnot d' i'),
        fun ⟨⟨d', i', J⟩, _⟩ => absurd J (hnot d' i')⟩
    by_cases hne : d' ≠ d ∨ i' ≠ i
    · rw [hapart d' i' hd' hi' hne (hnot d' i')]
    · obtain ⟨rfl, rfl⟩ : d' = d ∧ i' = i := by simpa [not_or] using hne
      exact hsame d' i' j hd' hi' fun hj => hc ⟨rfl, rfl, hj.2⟩
  · -- the caller has a copy, with all its pages
    have hown' : space s' d i = space s d i := by
      ext1 j
      exact hsame d i j hd hi fun hc => htgt hc.1
    have hempty : ¬ Spoiled G s d i inside → ∀ j, inside j → space s d i j = none := by
      intro hnot j hj
      by_contra hpage
      exact hnot ⟨H.exists_joint hd hi h htwo, ⟨j, hj, hpage⟩, hout⟩
    refine ⟨hkeeps, hpdes, halone, hapart, fun hnot j hj => ?_, fun hnot d' i' j hd' hi' hc => ?_,
      fun _ => hown', fun _ d' i' j J hj => hlost d' i' j J.dir J.user ?_ hj⟩
    · rw [hown']
      exact hempty hnot j hj
    · by_cases hold : tgt (s₁.mem d' i') = some t ∧ inside j
      · have hne : d' ≠ d ∨ i' ≠ i := by
          by_contra hcontra
          obtain ⟨rfl, rfl⟩ : d' = d ∧ i' = i := by simpa [not_or] using hcontra
          exact htgt hold.1
        have htgt' : tgt (s.mem d' i') = some t := by
          rw [← hother d' i' hd' hne]
          exact hold.1
        rw [hlost d' i' j hd' hi' hold.1 hold.2, space_eq htgt', ← space_eq h]
        exact (hempty hnot j hold.2).symm
      · exact hsame d' i' j hd' hi' hold
    · rw [hother d' i' J.dir J.other, J.same, h]

/-! ### The loop -/

section Loop

variable {startPage endPage startDir endDir k l pdi : ℕ}

/-- The pages of table `pdi` that are inside the range. -/
def Inside (startPage endPage pdi : ℕ) (j : Index) : Prop :=
  startPte startPage pdi ≤ j.val ∧ j.val ≤ endPte endPage pdi

theorem outOfRange_pos {row : Row} {first last : ℕ} :
    0 < outOfRange row first last ↔ ∃ j : Index, ¬ (first ≤ j.val ∧ j.val ≤ last) ∧ tgt (row j) ≠ none := by
  rw [outOfRange, List.length_pos_iff_exists_mem]
  refine exists_congr fun j => ?_
  rw [List.mem_filter, decide_eq_true_iff, ne_eq, tgt_eq_none, Bool.not_eq_false]
  simp

/-- **A round.** -/
theorem unmapTable_spec (H : Sound c G s) (he : Even c z G s) (hz : 1 ≤ z) (hd : G.kind d = .dir)
    (hi : isUser (Fin.ofNat 1024 pdi) = true)
    (hwhole : pdi ≠ startDir → pdi ≠ endDir → ∀ j, Inside startPage endPage pdi j) :
    Ends (fun e => allocFrame s = .error e) (unmapTable startPage endPage startDir endDir d pdi)
      s fun _ s' =>
      ∃ G', Round c d (Fin.ofNat 1024 pdi) (Inside startPage endPage pdi) G s G' s' := by
  have hload : load d (Fin.ofNat 1024 pdi) s = .ok (s.mem d (Fin.ofNat 1024 pdi), s) := rfl
  have hrow : ∀ t, loadRow t s = .ok (s.mem t, s) := fun _ => rfl
  unfold Ends
  rw [unmapTable, bind_of_eq hload, bind_of_eq (hrow _)]
  split_ifs with hpart
  · obtain ⟨-, hpresent, hpos⟩ := hpart
    have h : tgt (s.mem d (Fin.ofNat 1024 pdi)) = some (pageNumber (s.mem d (Fin.ofNat 1024 pdi))) := by
      rw [tgt, if_pos hpresent]
    obtain ⟨j, hj, hpage⟩ := outOfRange_pos.mp hpos
    refine H.round_part he hz hd hi h (fun j => ?_) ⟨j, hj, (space_ne_none h).mpr hpage⟩
    rw [List.mem_filter, decide_eq_true_iff]
    exact and_iff_right (List.mem_finRange j)
  · have hout : ∀ j, ¬ Inside startPage endPage pdi j → space s d (Fin.ofNat 1024 pdi) j = none := by
      intro j hj
      by_contra hpage
      have hends : pdi = startDir ∨ pdi = endDir := by
        by_contra hc
        obtain ⟨h1, h2⟩ := not_or.mp hc
        exact hj (hwhole h1 h2 j)
      obtain ⟨t, h⟩ := Option.ne_none_iff_exists'.mp fun hnone => hpage (congrFun (space_none hnone) j)
      obtain ⟨hpresent, hnumber⟩ := tgt_eq_some.mp h
      refine hpart ⟨hends, hpresent, outOfRange_pos.mpr ⟨j, hj, ?_⟩⟩
      rw [hnumber]
      exact (space_ne_none h).mp hpage
    obtain ⟨G', s', hrun, R⟩ := H.round_whole he hz hd hi hout
    rw [hrun]
    exact ⟨G', R⟩

/-- A table with pages inside the range and outside of it is targeted by an entry that no round from
`k` on has dealt with before its own. -/
def SpoiledFrom (G : Ghost) (s : Vm) (d k : ℕ) (i : Index) (inside : Index → Prop) : Prop :=
  (∃ d' i', Joint G s d i d' i' ∧ (d' = d → i'.val < k ∨ i.val < i'.val)) ∧
    (∃ j, inside j ∧ space s d i j ≠ none) ∧ ∃ j, ¬ inside j ∧ space s d i j ≠ none

theorem spoiledFrom_self {inside : Index → Prop} :
    SpoiledFrom G s d i.val i inside ↔ Spoiled G s d i inside := by
  refine and_congr_left fun _ => exists_congr fun d' => exists_congr fun i' => and_iff_left_of_imp
    fun J hd => ?_
  have hne : i' ≠ i := J.other.resolve_left (not_not.mpr hd)
  have hval := Fin.val_ne_of_ne hne
  omega

theorem Joint.symm (J : Joint G s d i d' i') (hd : G.kind d = .dir) (hi : isUser i = true) :
    Joint G s d' i' d i :=
  ⟨hd, hi, J.other.imp Ne.symm Ne.symm, J.same ▸ J.present, J.same.symm⟩

theorem Round.joint_iff {inside : Index → Prop} {i₀ : Index} {d₀ : ℕ}
    (R : Round c d i inside G s G' s') (hd₀ : G.kind d₀ = .dir) (hne₀ : d₀ ≠ d ∨ i₀ ≠ i)
    (hne : d' ≠ d ∨ i' ≠ i) : Joint G' s' d₀ i₀ d' i' ↔ Joint G s d₀ i₀ d' i' := by
  constructor
  · intro J
    have hd' := (R.dirs d').mp J.dir
    refine ⟨hd', J.user, J.other, ?_, ?_⟩
    · rw [← R.pdes d₀ i₀ hd₀ hne₀]
      exact J.present
    · rw [← R.pdes d₀ i₀ hd₀ hne₀, ← R.pdes d' i' hd' hne]
      exact J.same
  · intro J
    refine ⟨(R.dirs d').mpr J.dir, J.user, J.other, ?_, ?_⟩
    · rw [R.pdes d₀ i₀ hd₀ hne₀]
      exact J.present
    · rw [R.pdes d₀ i₀ hd₀ hne₀, R.pdes d' i' J.dir hne]
      exact J.same

theorem Round.not_joint {inside : Index → Prop} {i₀ : Index} {d₀ : ℕ} (R : Round c d i inside G s G' s')
    (hd₀ : G.kind d₀ = .dir) (hi₀ : isUser i₀ = true) : ¬ Joint G' s' d₀ i₀ d i := fun J =>
  R.alone d₀ i₀ (J.symm ((R.dirs d₀).mpr hd₀) hi₀)

/-- **The rounds that follow** find what they would have found at first. -/
theorem Round.spoiledFrom_iff {inside inside' : Index → Prop} {i₀ : Index}
    (R : Round c d i inside G s G' s') (hd : G.kind d = .dir) (hi : isUser i = true)
    (hi₀ : isUser i₀ = true) (hlt : i.val < i₀.val) (hclear : ¬ Spoiled G s d i inside) :
    SpoiledFrom G' s' d (i.val + 1) i₀ inside' ↔ SpoiledFrom G s d i.val i₀ inside' := by
  have hne₀ : i₀ ≠ i := fun heq => by
    rw [heq] at hlt
    exact Nat.lt_irrefl _ hlt
  have hspace : space s' d i₀ = space s d i₀ := by
    ext1 j
    exact R.stays hclear d i₀ j hd hi₀ fun hc => hne₀ hc.2.1
  unfold SpoiledFrom
  rw [hspace]
  refine and_congr_left fun _ => exists_congr fun d' => exists_congr fun i' => ?_
  constructor
  · rintro ⟨J, hlate⟩
    have hne : d' ≠ d ∨ i' ≠ i := by
      rw [← not_and_or]
      rintro ⟨rfl, rfl⟩
      exact R.not_joint hd hi₀ J
    refine ⟨(R.joint_iff hd (.inr hne₀) hne).mp J, fun hdd => ?_⟩
    have hval := Fin.val_ne_of_ne (hne.resolve_left (not_not.mpr hdd))
    have := hlate hdd
    omega
  · rintro ⟨J, hlate⟩
    have hne : d' ≠ d ∨ i' ≠ i := by
      rw [← not_and_or]
      rintro ⟨rfl, rfl⟩
      have := hlate rfl
      omega
    refine ⟨(R.joint_iff hd (.inr hne₀) hne).mpr J, fun hdd => ?_⟩
    have := hlate hdd
    omega

/-- No entry is spoiled in the rounds from `k` to `k + l`. -/
def Clear (G : Ghost) (s : Vm) (d startPage endPage k l : ℕ) : Prop :=
  ∀ i : Index, k ≤ i.val → i.val < k + l → ¬ SpoiledFrom G s d k i (Inside startPage endPage i.val)

/-- **The rounds from `k` to `k + l`.** -/
structure Rounds (c : Config) (d startPage endPage k l : ℕ) (G : Ghost) (s : Vm) (G' : Ghost)
    (s' : Vm) : Prop
    extends Keeps True c G s G' s' where
  /-- Entries that share with nobody are not affected. -/
  apart : ∀ d' i', G.kind d' = .dir → isUser i' = true → ¬ (d' = d ∧ k ≤ i'.val ∧ i'.val < k + l) →
    (∀ d'' i'', ¬ Joint G s d' i' d'' i'') → space s' d' i' = space s d' i'
  gone : Clear G s d startPage endPage k l → ∀ i j : Index, k ≤ i.val → i.val < k + l →
      Inside startPage endPage i.val j → space s' d i j = none
  stays : Clear G s d startPage endPage k l → ∀ d' (i' j : Index), G.kind d' = .dir → isUser i' = true →
    ¬ (d' = d ∧ (k ≤ i'.val ∧ i'.val < k + l) ∧ Inside startPage endPage i'.val j) →
    space s' d' i' j = space s d' i' j
  left : ∀ i : Index, k ≤ i.val → i.val < k + l → SpoiledFrom G s d k i (Inside startPage endPage i.val) →
    ∃ i' j : Index, k ≤ i'.val ∧ i'.val < k + l ∧ Inside startPage endPage i'.val j ∧ space s' d i' j ≠ none

theorem Rounds.nil (H : Sound c G s) (d startPage endPage k : ℕ) :
    Rounds c d startPage endPage k 0 G s G s where
  toKeeps := Keeps.refl H
  apart _ _ _ _ _ _ := rfl
  gone _ i _ hk hl _ := by omega
  stays _ _ _ _ _ _ _ := rfl
  left i hk hl _ := by omega

theorem Round.clear (R : Round c d i (Inside startPage endPage i.val) G s G' s') (hd : G.kind d = .dir)
    (huser : ∀ i' : Index, i.val ≤ i'.val → i'.val < i.val + (l + 1) → isUser i' = true)
    (h : Clear G s d startPage endPage i.val (l + 1)) :
    ¬ Spoiled G s d i (Inside startPage endPage i.val) ∧ Clear G' s' d startPage endPage (i.val + 1) l := by
  have hfirst : ¬ Spoiled G s d i (Inside startPage endPage i.val) := fun hs =>
    h i (Nat.le_refl _) (by omega) (spoiledFrom_self.mpr hs)
  refine ⟨hfirst, fun i' h1 h2 hs => h i' (by omega) (by omega) ?_⟩
  exact (R.spoiledFrom_iff hd (huser i (Nat.le_refl _) (by omega)) (huser i' (by omega) (by omega))
    (by omega) hfirst).mp hs

/-- **A round, and those that follow.** -/
theorem Round.cons {s'' : Vm} {G'' : Ghost}
    (R : Round c d i (Inside startPage endPage i.val) G s G' s') (hd : G.kind d = .dir)
    (huser : ∀ i' : Index, i.val ≤ i'.val → i'.val < i.val + (l + 1) → isUser i' = true)
    (Rs : Rounds c d startPage endPage (i.val + 1) l G' s' G'' s'') :
    Rounds c d startPage endPage i.val (l + 1) G s G'' s'' where
  toKeeps := (R.toKeeps.trans Rs.toKeeps).weaken fun h => ⟨h, h⟩
  apart d' i' hd' hi' hnot halone := by
    have hi := huser i (Nat.le_refl _) (by omega)
    have hne : d' ≠ d ∨ i' ≠ i := by
      rw [← not_and_or]
      rintro ⟨rfl, rfl⟩
      exact hnot ⟨rfl, Nat.le_refl _, by omega⟩
    have hround := R.apart d' i' hd' hi' hne fun J => halone d i (J.symm hd hi)
    rw [← hround]
    refine Rs.apart d' i' ((R.dirs d').mpr hd') hi' (fun hc => hnot ⟨hc.1, by omega⟩) fun d'' i'' J => ?_
    by_cases heq : d'' = d ∧ i'' = i
    · obtain ⟨rfl, rfl⟩ := heq
      exact R.not_joint hd' hi' J
    · exact halone d'' i'' ((R.joint_iff hd' hne (not_and_or.mp heq)).mp J)
  gone hclear i' j hk hl hin := by
    have hi := huser i (Nat.le_refl _) (by omega)
    obtain ⟨hfirst, hrest⟩ := R.clear hd huser hclear
    rcases Nat.eq_or_lt_of_le hk with heq | hlt
    · obtain rfl : i = i' := Fin.ext heq
      have hstays := Rs.stays hrest d i j ((R.dirs d).mpr hd) hi fun hc => by omega
      rw [hstays]
      exact R.gone hfirst j hin
    · exact Rs.gone hrest i' j (by omega) (by omega) hin
  stays hclear d' i' j hd' hi' hnot := by
    obtain ⟨hfirst, hrest⟩ := R.clear hd huser hclear
    rw [Rs.stays hrest d' i' j ((R.dirs d').mpr hd') hi' fun hc => hnot ⟨hc.1, by omega, hc.2.2⟩]
    refine R.stays hfirst d' i' j hd' hi' fun hc => hnot ⟨hc.1, ?_, hc.2.1 ▸ hc.2.2⟩
    rw [hc.2.1]
    omega
  left i' hk hl hspoiled := by
    have hi := huser i (Nat.le_refl _) (by omega)
    by_cases hfirst : Spoiled G s d i (Inside startPage endPage i.val)
    · -- the entry is alone with its pages when the other rounds come
      obtain ⟨-, ⟨j, hin, hpage⟩, -⟩ := id hfirst
      refine ⟨i, j, Nat.le_refl _, by omega, hin, ?_⟩
      rw [Rs.apart d i ((R.dirs d).mpr hd) hi (fun hc => by omega) R.alone, R.kept hfirst]
      exact hpage
    · have hlt : i.val < i'.val := by
        refine Nat.lt_of_le_of_ne hk fun heq => hfirst ?_
        obtain rfl : i = i' := Fin.ext heq
        exact spoiledFrom_self.mp hspoiled
      have hlater := (R.spoiledFrom_iff hd hi (huser i' (by omega) (by omega)) hlt hfirst).mpr hspoiled
      obtain ⟨i'', j, h1, h2, hin, hpage⟩ := Rs.left i' (by omega) (by omega) hlater
      exact ⟨i'', j, by omega, by omega, hin, hpage⟩

/-- **The loop of `unmap_pages`.** -/
theorem unmapLoop_spec (H : Sound c G s) (he : Even c z G s) (hz : 1 ≤ z) (hd : G.kind d = .dir)
    (hend : k + l ≤ 1024) (huser : ∀ i : Index, k ≤ i.val → i.val < k + l → isUser i = true)
   
    (hwhole : ∀ pdi, k ≤ pdi → pdi < k + l → pdi ≠ startDir → pdi ≠ endDir →
      ∀ j, Inside startPage endPage pdi j) :
    Ends OutOfFrames ((List.range' k l).forM (unmapTable startPage endPage startDir endDir d)) s fun _ s' =>
      ∃ G', Rounds c d startPage endPage k l G s G' s' := by
  induction l generalizing k s G with
  | zero => exact ends_pure ⟨G, Rounds.nil H d startPage endPage k⟩
  | succ l ih =>
    obtain ⟨i, rfl⟩ : ∃ i : Index, i.val = k := ⟨⟨k, by omega⟩, rfl⟩
    have hindex : Fin.ofNat 1024 i.val = i := Fin.ext (Nat.mod_eq_of_lt i.isLt)
    have hi := huser i (Nat.le_refl _) (by omega)
    rw [← hindex] at hi
    rw [List.range'_succ]
    show Ends OutOfFrames (unmapTable startPage endPage startDir endDir d i.val >>= fun _ =>
      (List.range' (i.val + 1) l).forM (unmapTable startPage endPage startDir endDir d)) s _
    refine ends_bind (((unmapTable_spec H he hz hd hi (hwhole i.val (by omega) (by omega))).weaken
      fun _ => allocFrame_error).mono ?_)
    rintro _ s₁ ⟨G₁, R⟩
    rw [hindex] at R
    refine (ih R.sound (R.even trivial z hz he) ((R.dirs d).mpr hd) (by omega)
      (fun i h1 h2 => huser i (by omega) (by omega))
      fun pdi h1 h2 => hwhole pdi (by omega) (by omega)).mono ?_
    rintro _ s' ⟨G', Rs⟩
    exact ⟨G', R.cons hd huser Rs⟩

/-! ### The pages of the range -/

theorem inside_iff (hs : startPage / 1024 ≤ i.val) (he : i.val ≤ endPage / 1024) :
    Inside startPage endPage i.val j ↔ startPage ≤ i.val * 1024 + j.val ∧
    i.val * 1024 + j.val ≤ endPage := by
  have hj := j.isLt
  unfold Inside startPte endPte
  split_ifs <;> omega

theorem inside_whole (hs : startPage / 1024 < pdi) (he : pdi < endPage / 1024) (j : Index) :
    Inside startPage endPage pdi j := by
  have hj := j.isLt
  unfold Inside startPte endPte
  split_ifs <;> omega

theorem isUser_iff : isUser i = true ↔ 512 ≤ i.val ∧ i.val < 960 := decide_eq_true_iff

theorem range_bounds {start size : ℕ} (hstart : userMemStart ≤ start) (hsize : 0 < size)
    (hend : start + size ≤ sharedAddress) : 512 ≤ start / frameSize / 1024 ∧
      start / frameSize ≤ (start + size - 1) / frameSize ∧ (start + size - 1) / frameSize / 1024 < 960 := by
  unfold userMemStart at hstart
  unfold sharedAddress at hend
  unfold frameSize
  omega

/-- **`unmap_pages`** of a range of user memory. -/
theorem unmapPages_spec {start size : ℕ} (H : Sound c G s) (he : Even c z G s) (hz : 1 ≤ z)
    (hd : G.kind d = .dir) (hstart : userMemStart ≤ start) (hsize : 0 < size)
    (hend : start + size ≤ sharedAddress) :
    Ends OutOfFrames (unmapPages start size d) s fun _ s' =>
      ∃ G', Rounds c d (start / frameSize) ((start + size - 1) / frameSize) (start / frameSize / 1024)
        ((start + size - 1) / frameSize / 1024 + 1 - start / frameSize / 1024) G s G' s' := by
  have hhigh : sharedAddress = 0xF0000000 := rfl
  have hlast : (start + size - 1) % 2 ^ 32 = start + size - 1 := Nat.mod_eq_of_lt (by omega)
  obtain ⟨hfirst, hle, hbelow⟩ := range_bounds hstart hsize hend
  rw [unmapPages, if_neg (by omega)]
  dsimp only
  rw [hlast]
  refine unmapLoop_spec H he hz hd (by omega) (fun i h1 h2 => isUser_iff.mpr (by omega))
    fun pdi h1 h2 h3 h4 => ?_
  exact inside_whole (by omega) (by omega)

end Loop

/-! ### One address space only -/

/-- **What `unmap_pages` is for**: the pages from `first` to `last` are gone from one directory,
everything else that users see is as before, and the counts are exact. -/
structure Unmapped (c : Config) (G : Ghost) (s s' : Vm) (d first last : ℕ) : Prop where
  exact : ∃ G', Exact c G' s' ∧ ∀ n, G'.kind n = .dir ↔ G.kind n = .dir
  gone : ∀ page, first ≤ page → page ≤ last → space s' d (dirIndex page) (tableIndex page) = none
  rest : ∀ page, userMemStart ≤ page * frameSize → page * frameSize < sharedAddress →
    ¬ (first ≤ page ∧ page ≤ last) →
    space s' d (dirIndex page) (tableIndex page) = space s d (dirIndex page) (tableIndex page)
  others : ∀ d' i, G.kind d' = .dir → d' ≠ d → isUser i = true → space s' d' i = space s d' i

theorem dirIndex_val {page : ℕ} (h : page < 2 ^ 20) : (dirIndex page).val = page / 1024 := by
  rw [dirIndex, Fin.val_ofNat]
  exact Nat.mod_eq_of_lt (by omega)

theorem tableIndex_val (page : ℕ) : (tableIndex page).val = page % 1024 := Fin.val_ofNat _ _

/-- Some table of the range is spoiled. -/
def Spoils (G : Ghost) (s : Vm) (d first last : ℕ) : Prop :=
  ∃ i : Index, first / 1024 ≤ i.val ∧ i.val ≤ last / 1024 ∧
    SpoiledFrom G s d (first / 1024) i fun j => first ≤ i.val * 1024 + j.val ∧ i.val * 1024 + j.val ≤ last

theorem spoiledFrom_congr {inside inside' : Index → Prop} {k : ℕ} (h : ∀ j, inside j ↔ inside' j) :
    SpoiledFrom G s d k i inside ↔ SpoiledFrom G s d k i inside' := by
  obtain rfl : inside = inside' := funext fun j => propext (h j)
  rfl

/-- **`unmap_pages` does what it is for exactly if no table is spoiled.** -/
theorem Rounds.unmapped_iff {first last : ℕ}
    (R : Rounds c d first last (first / 1024) (last / 1024 + 1 - first / 1024) G s G' s')
    (he : Even c 1 G s) (hd : G.kind d = .dir) (hle : first ≤ last) (hhigh : last / 1024 < 960) :
    Unmapped c G s s' d first last ↔ ¬ Spoils G s d first last := by
  have hinside : ∀ i : Index, first / 1024 ≤ i.val → i.val ≤ last / 1024 → ∀ j : Index,
      Inside first last i.val j ↔ first ≤ i.val * 1024 + j.val ∧ i.val * 1024 + j.val ≤ last :=
    fun i h1 h2 j => inside_iff h1 h2
  constructor
  · rintro hunmapped ⟨i, h1, h2, hspoiled⟩
    obtain ⟨i', j, h3, h4, hin, hpage⟩ := R.left i h1 (by omega)
      ((spoiledFrom_congr (hinside i h1 h2)).mpr hspoiled)
    have hin' := (hinside i' h3 (by omega) j).mp hin
    have hj := j.isLt
    refine hpage ?_
    have hgone := hunmapped.gone (i'.val * 1024 + j.val) hin'.1 hin'.2
    rwa [show dirIndex (i'.val * 1024 + j.val) = i' from Fin.ext (by rw [dirIndex_val (by omega)]; omega),
      show tableIndex (i'.val * 1024 + j.val) = j from Fin.ext (by rw [tableIndex_val]; omega)] at hgone
  · intro hnot
    have hclear : ∀ i : Index, first / 1024 ≤ i.val →
        i.val < first / 1024 + (last / 1024 + 1 - first / 1024) →
        ¬ SpoiledFrom G s d (first / 1024) i (Inside first last i.val) := fun i h1 h2 hspoiled =>
      hnot ⟨i, h1, by omega, (spoiledFrom_congr (hinside i h1 (by omega))).mp hspoiled⟩
    refine ⟨⟨G', R.sound.exact (R.even trivial 1 le_rfl he), R.dirs⟩, fun page h1 h2 => ?_,
      fun page h1 h2 hout => ?_, fun d' i hd' hne hi => ?_⟩
    · have hdir := dirIndex_val (show page < 2 ^ 20 by omega)
      refine R.gone hclear _ _ (by omega) (by omega) ((hinside _ (by omega) (by omega) _).mpr ?_)
      rw [hdir, tableIndex_val]
      omega
    · unfold userMemStart frameSize at h1
      unfold sharedAddress frameSize at h2
      have hdir := dirIndex_val (show page < 2 ^ 20 by omega)
      refine R.stays hclear d _ _ hd (isUser_iff.mpr (by omega)) fun hc => hout ?_
      have hin := (hinside _ hc.2.1.1 (by omega) _).mp hc.2.2
      rw [hdir, tableIndex_val] at hin
      omega
    · ext1 j
      exact R.stays hclear d' i j hd' hi fun hc => hne hc.1

theorem spoils_congr {first last : ℕ} (h : ∀ n, G'.kind n = .dir ↔ G.kind n = .dir) :
    Spoils G' s d first last ↔ Spoils G s d first last := by
  have hjoint : ∀ i d' i', Joint G' s d i d' i' ↔ Joint G s d i d' i' := fun i d' i' =>
    ⟨fun J => ⟨(h d').mp J.dir, J.user, J.other, J.present, J.same⟩,
      fun J => ⟨(h d').mpr J.dir, J.user, J.other, J.present, J.same⟩⟩
  simp only [Spoils, SpoiledFrom, hjoint]

theorem spoils_withBias {bias : ℕ → ℤ} {first last : ℕ} :
    Spoils (G.withBias bias) s d first last ↔ Spoils G s d first last :=
  spoils_congr fun _ => Iff.rfl

theorem unmapped_withBias {bias : ℕ → ℤ} {first last : ℕ} :
    Unmapped c (G.withBias bias) s s' d first last ↔ Unmapped c G s s' d first last :=
  ⟨fun h => ⟨h.exact, h.gone, h.rest, h.others⟩, fun h => ⟨h.exact, h.gone, h.rest, h.others⟩⟩

/-- **`unmap_pages` affects one address space only** exactly if no table at an end of the range,
with pages inside the range and outside of it, is targeted by another entry.  The call returns,
unless no frame is left for the copy of a table. -/
theorem unmap_pages_iff (start size : ℕ) (h : Exact c G s) (hd : G.kind d = .dir)
    (hstart : userMemStart ≤ start) (hsize : 0 < size) (hend : start + size ≤ sharedAddress) :
    Ends OutOfFrames (unmapPages start size d) s fun _ s' =>
      (Unmapped c G s s' d (start / frameSize) ((start + size - 1) / frameSize) ↔
        ¬ Spoils G s d (start / frameSize) ((start + size - 1) / frameSize)) := by
  obtain ⟨-, hle, hbelow⟩ := range_bounds hstart hsize hend
  refine (unmapPages_spec h.sound h.even le_rfl hd hstart hsize hend).mono ?_
  rintro _ s' ⟨G', R⟩
  have hiff := R.unmapped_iff h.even hd hle hbelow
  rwa [Ghost.settle, unmapped_withBias, spoils_withBias] at hiff

/-- The only page of a table that nobody shares is unmapped. -/
theorem unmap_pages_small :
    space smallState 2 512 0 ≠ none ∧ Ends OutOfFrames (unmapPages 0x80000000 4096 2) smallState
    fun _ s' => Unmapped smallConfig smallGhost smallState s' 2 (0x80000000 / frameSize)
      ((0x80000000 + 4096 - 1) / frameSize) := by
  have hpde : ∀ i, i ≠ 512 → tgt (smallState.mem 2 i) = none := fun i hi => by
    have hfirst : (bareState.putShared 2 512 (frameAddr 3 ||| flagPr) 3).mem 2 i = 0#32 :=
      setWord_of_ne (.inr hi)
    have hrow : smallState.mem 2 i = (bareState.putShared 2 512 (frameAddr 3 ||| flagPr) 3).mem 2 i :=
      setWord_of_ne (.inl (by decide))
    rw [hrow, hfirst, tgt_zero]
  have hfirst : smallState.mem 2 512 = frameAddr 3 ||| flagPr := by decide
  have hpte : smallState.mem 3 0 = frameAddr 4 ||| flagPr := by decide
  have hpage : space smallState 2 512 0 ≠ none := by
    rw [space_ne_none (t := 3) (by rw [hfirst]; decide), hpte]
    decide
  -- there is no other entry at all
  have hspoils : ¬ Spoils smallGhost smallState 2 (0x80000000 / frameSize)
      ((0x80000000 + 4096 - 1) / frameSize) := by
    rintro ⟨i, -, -, ⟨d', i', J, -⟩, -⟩
    have hdir : d' = 2 := by
      have hk := J.dir
      simp only [smallGhost] at hk
      split_ifs at hk with h1 h2 h3
      exact h1
    obtain rfl := hdir
    have hi : i = 512 := by
      by_contra hne
      exact J.present (hpde i hne)
    have hi' : i' = 512 := by
      by_contra hne
      exact J.present (J.same.symm.trans (hpde i' hne))
    exact J.other.elim (fun h => h rfl) fun h => h (hi'.trans hi.symm)
  have hexact := smallState_exact
  clear hpde hfirst hpte
  generalize smallState = s at *
  refine ⟨hpage, ?_⟩
  apply (unmap_pages_iff 0x80000000 4096 hexact rfl (by decide) (by decide) (by decide)).mono
  intro _ s' hiff
  exact hiff.mpr hspoils

/-! After a fork: two directories (frames 2 and 3) share a table (frame 4) with two pages (frames 5
and 6). -/

def forkedGhost : Ghost where
  kind n := if n = 2 ∨ n = 3 then .dir else if n = 4 then .table else if n = 5 ∨ n = 6 then .data else .out
  free := []
  bias n := if n = 0 then 1 else 0

def forkedFrames : Vm := ⟨fun _ _ => 0#32, fun n => if n = 0 then 1 else 0, none, 7, 16⟩

def forkedState : Vm :=
  (((forkedFrames.putShared 2 512 (frameAddr 4 ||| flagPr) 4).putShared 3 512
    (frameAddr 4 ||| flagPr) 4).putShared 4 0
    (frameAddr 5 ||| flagPr) 5).putShared 4 1 (frameAddr 6 ||| flagPr) 6

theorem forkedFrames_readOnly : ReadOnly smallConfig forkedGhost forkedFrames := by
  refine readOnly_of_empty {
    chain := trivial
    nodup := List.nodup_nil
    free_iff := fun n => ?_
    range := fun n hn => ?_
    pool_le := show 2 ≤ 7 by omega
    avail_le := show 7 ≤ 16 by omega
    limit_le := show 16 ≤ 1048576 by omega
    zero_lt := show 0 < 2 by omega
    base_lt := show 1 < 2 by omega } (fun _ _ _ => tgt_zero) (fun _ _ => tgt_zero)
      (fun _ => rfl) fun _ => rfl
  · simp only [forkedGhost, List.not_mem_nil, false_iff]
    split_ifs <;> simp
  · simp only [forkedGhost] at hn
    show 2 ≤ n ∧ n < 7
    split_ifs at hn
    · omega
    · omega
    · omega
    · exact absurd rfl hn

theorem forkedState_readOnly : ReadOnly smallConfig forkedGhost forkedState := by
  have hdir : ∀ n, n = 2 ∨ n = 3 → Holds forkedGhost n 512 := fun n hn => .inl ⟨if_pos hn, by decide⟩
  have htable : ∀ j, Holds forkedGhost 4 j := fun j => .inr rfl
  have h₁ := forkedFrames_readOnly.put (hdir 2 (.inl rfl)) tgt_zero (w := frameAddr 4 ||| flagPr)
    (a := 4) (by decide) (by decide) (fun _ => rfl) (fun h => by cases h)
  have h₂ := h₁.put (hdir 3 (.inr rfl)) (by decide) (w := frameAddr 4 ||| flagPr) (a := 4)
    (by decide) (by decide) (fun _ => rfl) (fun h => by cases h)
  have h₃ := h₂.put (htable 0) (by decide) (w := frameAddr 5 ||| flagPr) (a := 5) (by decide) (by decide)
    (fun h => by cases h) (fun _ => .inr rfl)
  exact h₃.put (htable 1) (by decide) (w := frameAddr 6 ||| flagPr) (a := 6) (by decide) (by decide)
    (fun h => by cases h) (fun _ => .inr rfl)

theorem unmapPages_single {start size k : ℕ} (hsize : 0 < size) (hend : start + size ≤ 2 ^ 32)
    (hfirst : start / frameSize / 1024 = k) (hlast : (start + size - 1) / frameSize / 1024 = k) :
    unmapPages start size d = (do
      unmapTable (start / frameSize) ((start + size - 1) / frameSize) k k d k
      pure ()) := by
  have hmod : (start + size - 1) % 2 ^ 32 = start + size - 1 := Nat.mod_eq_of_lt (by omega)
  rw [unmapPages, if_neg (by omega)]
  dsimp only
  rw [hmod, hfirst, hlast, Nat.add_sub_cancel_left]
  rfl

/-- **A page of a shared table**: the caller keeps the page that it unmaps, and the other directory
loses it. -/
theorem unmap_shared_table : Exact smallConfig forkedGhost forkedState ∧ space forkedState 3 512 0 ≠ none ∧
    ∃ s', unmapPages 0x80000000 4096 2 forkedState = .ok ((), s') ∧ space s' 2 512 0 ≠ none ∧
      space s' 3 512 0 = none := by
  have H := forkedState_readOnly
  have hpde : tgt (forkedState.mem 2 512) = some 4 ∧ tgt (forkedState.mem 3 512) = some 4 := by decide
  have hpages : tgt (forkedState.mem 4 0) ≠ none ∧ tgt (forkedState.mem 4 1) ≠ none := by decide
  have hspace : space forkedState 2 512 0 ≠ none := (space_ne_none hpde.1).mpr hpages.1
  have hjoint : Joint forkedGhost forkedState 2 512 3 512 :=
    ⟨rfl, by decide, .inl (by decide), by rw [hpde.1]; simp, hpde.2.trans hpde.1.symm⟩
  have hspoiled : Spoiled forkedGhost forkedState 2 512
      (Inside (0x80000000 / frameSize) ((0x80000000 + 4096 - 1) / frameSize) 512) :=
    ⟨⟨3, 512, hjoint⟩, ⟨0, ⟨by decide, by decide⟩, hspace⟩, ⟨1, fun h => absurd h.2 (by decide),
      (space_ne_none hpde.1).mpr hpages.2⟩⟩
  have halloc : ∀ e, allocFrame forkedState ≠ .error e := by
    intro e he
    cases he
  rw [unmapPages_single (k := 512) (by decide) (by decide) (by decide) (by decide)]
  generalize forkedState = s at *
  have hround : Ends (fun e => allocFrame s = .error e)
      (unmapTable (0x80000000 / frameSize) ((0x80000000 + 4096 - 1) / frameSize) 512 512 2 512)
        s fun _ s' =>
      ∃ G', Round smallConfig 2 512
        (Inside (0x80000000 / frameSize) ((0x80000000 + 4096 - 1) / frameSize) 512)
        forkedGhost s G' s' :=
    unmapTable_spec H.sound H.even le_rfl rfl (by decide) (fun h => absurd rfl h)
  obtain ⟨_, s', hrun, G', R⟩ := hround.returns fun e he => absurd he (halloc e)
  refine ⟨H.sound.exact H.even, (space_ne_none hpde.2).mpr hpages.1, s', bind_of_eq hrun, ?_,
    R.lost hspoiled 3 512 0 hjoint ⟨by decide, by decide⟩⟩
  rw [R.kept hspoiled]
  exact hspace

end GheithOS.Vmm
