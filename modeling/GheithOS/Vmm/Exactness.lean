import GheithOS.Vmm.Primitives

/-!
# GheithOS.Vmm.Exactness — the reference counts of the whole machine

What the reference counts should be, said of the machine alone: which directories are live is given,
the page tables are the frames that their user entries target, and a frame is allocated if it lies
in the used part of the pool and not on the free list.  `accounted_of_sound` derives it from the
invariant of the ghost.
-/

namespace GheithOS.Vmm

open Cow Lib

variable {c : Config} {G : Ghost} {s : Vm} {live : Finset ℕ} {n p d t a : ℕ} {i : Index}

/-! ### The entries of the machine -/

/-- The page tables of the live directories. -/
def liveTables (live : Finset ℕ) (s : Vm) : Finset ℕ :=
  live.biUnion fun d => (userIndices.filterMap fun i => tgt (s.mem d i)).toFinset

/-- The user entries of the live directories and all entries of their page tables. -/
def liveEntries (live : Finset ℕ) (s : Vm) : Finset (ℕ × Index) :=
  live ×ˢ (Finset.univ.filter fun i => isUser i = true) ∪ liveTables live s ×ˢ Finset.univ

/-- The entries that target a frame. -/
def targeting (live : Finset ℕ) (s : Vm) (a : ℕ) : Finset (ℕ × Index) :=
  (liveEntries live s).filter fun e => tgt (s.mem e.1 e.2) = some a

/-- The frames that are found on the free list, from `firstFree` through the first words. -/
inductive OnFreeList (s : Vm) : ℕ → Prop
  | head {n : ℕ} : s.firstFree = some n → OnFreeList s n
  | next {p n : ℕ} : OnFreeList s p → unlink (s.mem p 0) = some n → OnFreeList s n

/-- The frames of the pool that `alloc_frame` has given and that have not come back. -/
def Allocated (c : Config) (s : Vm) (n : ℕ) : Prop := c.pool ≤ n ∧ n < s.avail ∧ ¬ OnFreeList s n

/-- **The reference counts are exact, and no frame is leaked.** -/
structure Accounted (c : Config) (live : Finset ℕ) (s : Vm) : Prop where
  /-- What is targeted has one writable entry and no count, or read-only entries that are
  counted. -/
  counted : ∀ a, (targeting live s a).Nonempty →
    (∃ e, targeting live s a = {e} ∧ isRw (s.mem e.1 e.2) = true ∧ s.refCounts a = 0) ∨
    (∀ e ∈ targeting live s a, isRw (s.mem e.1 e.2) = false) ∧
      s.refCounts a = (targeting live s a).card + if a = c.zeroFrame then 1 else 0
  /-- What is not allocated has no count and no entry. -/
  idle : ∀ n, c.pool ≤ n → ¬ Allocated c s n → s.refCounts n = 0 ∧ targeting live s n = ∅
  /-- What is allocated is used. -/
  used : ∀ n, Allocated c s n → n ∈ live ∨ (targeting live s n).Nonempty

theorem mem_liveTables :
    t ∈ liveTables live s ↔ ∃ d ∈ live, ∃ i, isUser i = true ∧ tgt (s.mem d i) = some t := by
  simp only [liveTables, Finset.mem_biUnion, List.mem_toFinset, List.mem_filterMap, userIndices,
    List.mem_filter, List.mem_finRange, true_and]

theorem mem_liveEntries :
    (n, i) ∈ liveEntries live s ↔ n ∈ live ∧ isUser i = true ∨ n ∈ liveTables live s := by
  simp [liveEntries]

theorem mem_targeting :
    (n, i) ∈ targeting live s a ↔ (n, i) ∈ liveEntries live s ∧ tgt (s.mem n i) = some a := by
  rw [targeting, Finset.mem_filter]

/-! ### The free list -/

/-- The free list goes on behind each of its frames. -/
theorem Chain.next_mem {mem : ℕ → Row} : ∀ {q : Option ℕ} {l : List ℕ}, Chain mem q l → p ∈ l →
    unlink (mem p 0) = some n → n ∈ l
  | some q, r :: l, h, hp, hn => by
    obtain ⟨rfl, h⟩ := h
    rcases List.mem_cons.mp hp with rfl | hp
    · exact List.mem_cons_of_mem _ (h.head_mem n hn)
    · exact List.mem_cons_of_mem _ (Chain.next_mem h hp hn)
  | none, _ :: _, h, _, _ => h.elim
  | _, [], _, hp, _ => by cases hp

theorem Chain.onFreeList :
    ∀ {q : Option ℕ} {l : List ℕ}, Chain s.mem q l → (∀ n, q = some n → OnFreeList s n) →
    n ∈ l → OnFreeList s n
  | some q, r :: l, h, hq, hn => by
    obtain ⟨rfl, h⟩ := h
    rcases List.mem_cons.mp hn with rfl | hn
    · exact hq _ rfl
    · exact Chain.onFreeList h (fun m hm => (hq _ rfl).next hm) hn
  | none, _ :: _, h, _, _ => h.elim
  | _, [], _, _, hn => by cases hn

theorem Pool.onFreeList_iff (H : Pool c G s) : OnFreeList s n ↔ G.kind n = .free := by
  rw [← H.free_iff]
  constructor
  · intro h
    induction h with
    | head h => exact H.chain.head_mem _ h
    | next _ hn ih => exact H.chain.next_mem ih hn
  · exact H.chain.onFreeList fun m hm => .head hm

/-! ### The ghost and the machine -/

section Ghost

variable (H : Sound c G s) (hleak : NoLeak c G s) (hdirs : ∀ n, G.kind n = .dir ↔ n ∈ live)

include H hleak hdirs

theorem Sound.kind_table_iff : G.kind t = .table ↔ t ∈ liveTables live s := by
  rw [mem_liveTables]
  constructor
  · intro ht
    obtain ⟨m, hm, i, b, hslot⟩ := exists_of_total_pos (hleak.targeted t (.inl ht))
    obtain ⟨htgt, -, huser⟩ := slot_eq_some hslot
    have hd : G.kind m = .dir := (H.mem_holders.mp hm).resolve_right fun hk =>
      H.not_target_holder hk (.inr ht) htgt
    exact ⟨m, (hdirs m).mp hd, i, huser hd, htgt⟩
  · rintro ⟨d, hd, i, hi, htgt⟩
    exact H.pde ((hdirs d).mpr hd) hi htgt

theorem Sound.holds_iff : Holds G n i ↔ (n, i) ∈ liveEntries live s := by
  rw [mem_liveEntries, Holds, hdirs, H.kind_table_iff hleak hdirs]

theorem Sound.targeting_iff : (n, i) ∈ targeting live s a ↔ Holds G n i ∧ tgt (s.mem n i) = some a := by
  rw [mem_targeting, H.holds_iff hleak hdirs]

theorem Sound.targeting_nonempty : (targeting live s a).Nonempty ↔ 0 < entries G s a := by
  constructor
  · rintro ⟨⟨n, i⟩, he⟩
    obtain ⟨hn, ha⟩ := (H.targeting_iff hleak hdirs).mp he
    exact H.entries_pos hn ha
  · intro hpos
    obtain ⟨n, hn, i, b, hslot⟩ := exists_of_total_pos hpos
    obtain ⟨htgt, -, huser⟩ := slot_eq_some hslot
    refine ⟨(n, i), (H.targeting_iff hleak hdirs).mpr ⟨?_, htgt⟩⟩
    rcases H.mem_holders.mp hn with hd | ht
    · exact .inl ⟨hd, huser hd⟩
    · exact .inr ht

/-- Where no entry may write, the readers are all the entries. -/
theorem Sound.readers_eq_card (hro : ∀ e ∈ targeting live s a, isRw (s.mem e.1 e.2) = false) :
    readers G s a = (targeting live s a).card := by
  rw [readers, shared, refs_eq_card]
  refine congrArg Finset.card (Finset.ext ?_)
  rintro ⟨n, i⟩
  rw [Finset.mem_filter, Finset.mem_product, H.targeting_iff hleak hdirs]
  constructor
  · rintro ⟨⟨hn, -⟩, hx⟩
    obtain ⟨htgt, -, huser⟩ := slot_eq_some (sharedTgt_eq.mp hx)
    refine ⟨?_, htgt⟩
    rcases H.mem_holders.mp hn with hd | ht
    · exact .inl ⟨hd, huser hd⟩
    · exact .inr ht
  · rintro ⟨hn, htgt⟩
    refine ⟨⟨H.mem_of_holds hn, Finset.mem_univ i⟩, sharedTgt_eq.mpr (hn.slot.trans ?_)⟩
    exact entryRef_eq_some.mpr ⟨htgt, hro (n, i) ((H.targeting_iff hleak hdirs).mpr ⟨hn, htgt⟩)⟩

/-- **The invariant says what the counts are.** -/
theorem accounted_of_sound (heven : Even c 1 G s) (hhands : ∀ n, G.kind n ≠ .limbo) :
    Accounted c live s where
  counted a hne := by
    by_cases hrw : ∃ e ∈ targeting live s a, isRw (s.mem e.1 e.2) = true
    · obtain ⟨⟨n, i⟩, he, hw⟩ := hrw
      obtain ⟨hn, ha⟩ := (H.targeting_iff hleak hdirs).mp he
      have hone := H.entries_owned hn ha hw
      refine .inl ⟨(n, i), Finset.eq_singleton_iff_unique_mem.mpr ⟨he, ?_⟩, hw, ?_⟩
      · rintro ⟨m, j⟩ hm
        obtain ⟨hm, hb⟩ := (H.targeting_iff hleak hdirs).mp hm
        obtain ⟨rfl, rfl⟩ := H.entry_unique hone.le hm hn hb ha
        rfl
      · have hwrite : 0 < writers G s a :=
          owned_pos (H.mem_of_holds hn) (hn.slot.trans (entryRef_eq_some.mpr ⟨ha, hw⟩))
        rcases (H.exact heven).targeted a (by omega) with ⟨-, -, h⟩ | ⟨h, -⟩
        · exact h
        · omega
    · have hro : ∀ e ∈ targeting live s a, isRw (s.mem e.1 e.2) = false := fun e he =>
        Bool.eq_false_iff.mpr fun hw => hrw ⟨e, he, hw⟩
      refine .inr ⟨hro, ?_⟩
      have hcard := H.readers_eq_card hleak hdirs hro
      have hpos := (H.targeting_nonempty hleak hdirs).mp hne
      rcases (H.exact heven).targeted a hpos with ⟨-, h, -⟩ | ⟨-, h⟩
      · have := Finset.card_pos.mpr hne
        omega
      · rw [h, hcard]
  idle n hn hna := by
    have hkind : G.kind n = .free ∨ s.avail ≤ n := by
      by_contra hc
      push Not at hc
      exact hna ⟨hn, hc.2, fun h => hc.1 (H.onFreeList_iff.mp h)⟩
    obtain ⟨hcount, hentries⟩ := (H.exact heven).idle n (by tauto)
    refine ⟨hcount, Finset.not_nonempty_iff_eq_empty.mp fun h => ?_⟩
    have := (H.targeting_nonempty hleak hdirs).mp h
    omega
  used n hn := by
    obtain ⟨hpool, hlt, hfree⟩ := hn
    have hout := hleak.used n hpool hlt
    rw [H.onFreeList_iff] at hfree
    have hlimbo := hhands n
    rw [H.targeting_nonempty hleak hdirs]
    cases hk : G.kind n with
    | out => exact absurd hk hout
    | free => exact absurd hk hfree
    | limbo => exact absurd hk hlimbo
    | dir => exact .inl ((hdirs n).mp hk)
    | table => exact .inr (hleak.targeted n (.inl hk))
    | data => exact .inr (hleak.targeted n (.inr hk))

end Ghost

end GheithOS.Vmm
