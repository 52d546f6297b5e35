import GheithOS.BitTree.Share

/-!
# GheithOS.BitTree.Release — `BitTreeNode::free`

A released reference is a pending one.  If it was the last, the node dies and its own references
become pending, to be released in turn: so `free` is an induction on the level with a loop over
pending references inside (`free_spec`).  Slots never change on the way, so the values of the nodes
that stay are untouched.
-/

namespace GheithOS.BitTree

open Lib Store

universe u

variable {T : Type u} {S S' : Store T} {L L' : Finset ℕ} {lvl lvl' : ℕ → ℕ} {P Q R E D X : List ℕ} {top : ℕ}
  {n c : ℕ} {i : Fin 32}

/-- The release of the pending references `P` down to `Q`.  `Z` are nodes that are not on the heap,
and `X` the nodes that have died but are still to be deleted. -/
structure Freed (S S' : Store T) (L L' : Finset ℕ) (lvl : ℕ → ℕ) (P Q R : List ℕ) (top : ℕ)
    (Z X : List ℕ) : Prop where
  good : Good S' L' lvl Q R top
  items : ∀ held, Items S L P held → Items S' L' Q held
  logged : ∀ D, Logged S L Z D → Logged S' L' Z (X ++ D)
  sub : L' ⊆ L
  less : ∀ t ∈ Q, t ∈ P
  kept : ∀ t ∈ Q, t ∈ L → t ∈ L'
  rows : ∀ m, (S'.node m).pointers = (S.node m).pointers ∧ (S'.node m).presentBits = (S.node m).presentBits
  same : S'.next = S.next ∧ S'.item = S.item ∧ S'.newItems = S.newItems

variable {Z : List ℕ}

theorem Freed.refl (G : Good S L lvl P R top) : Freed S S L L lvl P P R top Z [] :=
  ⟨G, fun _ => id, fun _ => id, Finset.Subset.refl L, fun _ => id, fun _ _ => id,
    fun _ => ⟨rfl, rfl⟩, ⟨rfl, rfl, rfl⟩⟩

theorem Freed.trans {S₁ : Store T} {L₁ : Finset ℕ} {P₁ : List ℕ}
    (h₁ : Freed S S₁ L L₁ lvl P P₁ R top Z X) (h₂ : Freed S₁ S' L₁ L' lvl P₁ Q R top Z []) :
    Freed S S' L L' lvl P Q R top Z X :=
  ⟨h₂.good, fun a h => h₂.items a (h₁.items a h), fun D h => h₂.logged _ (h₁.logged D h),
    h₂.sub.trans h₁.sub, fun t ht => h₁.less t (h₂.less t ht),
      fun t ht hL => h₂.kept t ht (h₁.kept t (h₂.less t ht) hL),
    fun m => ⟨(h₂.rows m).1.trans (h₁.rows m).1, (h₂.rows m).2.trans (h₁.rows m).2⟩,
    ⟨h₂.same.1.trans h₁.same.1, h₂.same.2.1.trans h₁.same.2.1, h₂.same.2.2.trans h₁.same.2.2⟩⟩

/-! ### Single references -/

theorem decRef_rows (S : Store T) (c m : ℕ) : ((S.decRef c).node m).pointers = (S.node m).pointers ∧
    ((S.decRef c).node m).presentBits = (S.node m).presentBits := by
  unfold decRef
  rw [setNode_node]
  split <;> simp_all

theorem slots_decRef (S : Store T) (c : ℕ) : slots (S.decRef c) = slots S :=
  funext fun m => (decRef_rows S c m).1

/-- A reference that is not the last. -/
theorem Freed.dropRef (G : Good S L lvl (c :: P) R top) (hc : c ∈ L) (hR : c ∉ R)
    (h1 : 1 < (S.node c).refCount) : Freed S (S.decRef c) L L lvl (c :: P) P R top Z [] := by
  refine ⟨G.dropRef hc hR h1, ?_, fun _ h => ⟨h.fresh, h.nodup, h.deleted, h.live, h.apart⟩,
    Finset.Subset.refl L, fun t ht => by simp [ht], fun _ _ => id, decRef_rows S c, ⟨rfl, rfl, rfl⟩⟩
  intro held I
  refine ⟨I.fresh, I.nodup, I.deleted, I.client, fun x hx => ?_⟩
  have h0 := I.stored x hx
  rw [List.count_cons_of_ne (by rintro rfl; exact hx hc)] at h0
  rw [refsTo, slots_decRef]
  exact h0

theorem Freed.retire (G : Good S L lvl (c :: P) R top) (hc : c ∈ L) (hR : c ∉ R)
    (h1 : (S.node c).refCount = 1) :
    Good (S.decRef c) (L.erase c) lvl (targets (slots S c) ++ P) R top ∧
    (∀ held, Items S L (c :: P) held → Items (S.decRef c) (L.erase c) (targets (slots S c) ++ P) held) ∧
    (∀ D, Logged S L Z D →
      Logged (S.decRef c) (L.erase c) Z ((if c ∈ Z then [] else [c]) ++ D)) ∧ c ∉ P := by
  have hcount := (G.count c hc hR).1
  rw [h1, List.count_cons_self] at hcount
  have hP : P.count c = 0 := by omega
  have hrefs : refs L (slots S) c = 0 := by
    have : refsTo S L c = 0 := by omega
    exact this
  refine ⟨G.retire hc hR h1, fun held I => ?_, fun D h => ?_, List.count_eq_zero.mp hP⟩
  · refine ⟨fun x hx => ⟨(I.fresh x hx).1, fun h => (I.fresh x hx).2 (Finset.mem_of_mem_erase h)⟩,
      I.nodup, I.deleted, I.client, fun x hx => ?_⟩
    have he : hits (slots S c) x + refs (L.erase c) (slots S) x = refs L (slots S) x := refs_erase hc
    rw [refsTo, slots_decRef, List.count_append, count_targets]
    by_cases hxc : x = c
    · subst hxc
      rw [hrefs] at he
      rw [hP, if_neg (fun h => (I.fresh x h.1).2 hc)]
      omega
    · have h0 := I.stored x fun h => hx (Finset.mem_erase.mpr ⟨hxc, h⟩)
      rw [List.count_cons_of_ne (Ne.symm hxc), refsTo] at h0
      rw [← Nat.add_assoc, Nat.add_comm _ (hits (slots S c) x), he]
      exact h0
  · refine ⟨h.fresh, h.nodup, h.deleted, fun m => ?_, fun m hm => ?_⟩
    · have hm := h.live m
      rw [Finset.mem_erase, List.mem_append]
      show _ ↔ m ∈ S.newNodes ∧ m ∉ S.deletedNodes
      by_cases hmc : m = c
      · subst hmc
        by_cases hZ : m ∈ Z <;> simpa [hZ, hc] using hm
      · by_cases hZ : c ∈ Z <;> simpa [hZ, hmc] using hm
    · rcases List.mem_append.mp hm with hm | hm
      · have hmc : m = c := by
          by_cases hZ : c ∈ Z <;> simp [hZ] at hm
          exact hm
        simp [hmc]
      · exact fun h1 => h.apart m hm (Finset.mem_of_mem_erase h1)

theorem Freed.dropItem (G : Good S L lvl (c :: P) R top) (hc : c ∉ L) :
    Freed S (S.deleteItem c) L L lvl (c :: P) P R top Z [] := by
  refine ⟨?_, ?_, fun _ h => ⟨h.fresh, h.nodup, h.deleted, h.live, h.apart⟩, Finset.Subset.refl L,
    fun t ht => by simp [ht], fun _ _ => id, fun _ => ⟨rfl, rfl⟩, ⟨rfl, rfl, rfl⟩⟩
  · refine ⟨G.fresh, G.level, G.bits, G.target, G.child, G.leaf,
      fun t ht => G.pending t (by simp [ht]), ?_, ?_⟩
    · intro r hr
      obtain ⟨h1, h2, h3, h4⟩ := G.root r hr
      exact ⟨h1, h2, h3, fun h => h4 (by simp [h])⟩
    · intro d hd hdR
      have := G.count d hd hdR
      rwa [List.count_cons_of_ne (by rintro rfl; exact hc hd)] at this
  · intro held I
    -- the reference that goes was the only one
    have h0 := I.stored c hc
    rw [List.count_cons_self] at h0
    have hlive : c ∈ S.newItems ∧ c ∉ S.deletedItems ∧ c ∉ held := by
      by_contra h
      rw [if_neg h] at h0
      omega
    rw [if_pos hlive] at h0
    refine ⟨I.fresh, ⟨I.nodup.1, List.nodup_cons.mpr ⟨hlive.2.1, I.nodup.2.1⟩, I.nodup.2.2⟩, ?_,
      I.client, ?_⟩
    · intro x hx
      rcases List.mem_cons.mp hx with rfl | hx
      · exact ⟨hlive.1, hlive.2.2⟩
      · exact I.deleted x hx
    · intro x hx
      show refsTo S L x + P.count x = if x ∈ S.newItems ∧ x ∉ c :: S.deletedItems ∧ x ∉ held then 1 else 0
      by_cases hxc : x = c
      · subst hxc
        rw [if_neg (fun h => h.2.1 (by simp))]
        omega
      · have h1 := I.stored x hx
        rw [List.count_cons_of_ne (Ne.symm hxc)] at h1
        simpa [hxc] using h1

theorem Logged.delete (h : Logged S L Z (c :: D)) (hD : c ∉ D) : Logged (S.deleteNode c) L Z D := by
  obtain ⟨h1, h2⟩ := (h.live c).mp (.inr (by simp))
  have hc := h.apart c (by simp)
  refine ⟨h.fresh, ⟨h.nodup.1, List.nodup_cons.mpr ⟨h2, h.nodup.2⟩⟩, ?_, fun m => ?_,
    fun m hm => h.apart m (by simp [hm])⟩
  · intro m hm
    rcases List.mem_cons.mp hm with rfl | hm
    · exact h1
    · exact h.deleted m hm
  · show (m ∈ L ∧ m ∉ Z) ∨ m ∈ D ↔ m ∈ S.newNodes ∧ m ∉ c :: S.deletedNodes
    by_cases hmc : m = c
    · subst hmc
      simp [hc, hD]
    · simpa [hmc] using h.live m

/-! ### The recursion -/

/-- One round of the loop of `free`. -/
def freeSlot (level n : ℕ) (S : Store T) (i : Fin 32) : Store T :=
  match (S.node n).pointers i with
  | none => S
  | some c =>
    if level = 0 then S.deleteItem c
    else if (S.free true level c).1 then (S.free true level c).2.deleteNode c else (S.free true level c).2

theorem free_succ (S : Store T) (level n : ℕ) :
    S.free true (level + 1) n =
      if 0 < ((S.decRef n).node n).refCount then (false, S.decRef n)
      else (true, (List.finRange 32).foldl (freeSlot level n) (S.decRef n)) := by
  rw [Store.free]
  rfl

/-- The release of a node, as the loop uses it. -/
def FreeSpec (T : Type u) (lvl : ℕ → ℕ) (R Z : List ℕ) (top level : ℕ) : Prop :=
  ∀ (S : Store T) (L : Finset ℕ) (c : ℕ) (P : List ℕ), Good S L lvl (c :: P) R top → c ∈ L → c ∉ R →
    lvl c = level →
    (∀ r ∈ Z, r ∈ L → lvl r = top) → ∃ L', ((S.free true level c).1 = true ↔ c ∉ L') ∧
      Freed S (S.free true level c).2 L L' lvl (c :: P) P R top Z
        (if (S.free true level c).1 = true ∧ c ∉ Z then [c] else [])

variable {Z : List ℕ} {level : ℕ} {row : Fin 32 → Option ℕ}

/-- A pending reference from a dead node is released, and the node deleted if it was the last. -/
theorem freeChild_spec (ih : FreeSpec T lvl R Z top level) (hl : level < top)
    (G : Good S L lvl (c :: P) R top) (hc : c ∈ L) (hcl : lvl c = level)
    (hZ : ∀ r ∈ Z, r ∈ L → lvl r = top) :
    ∃ L', Freed S (if (S.free true level c).1 then (S.free true level c).2.deleteNode c
      else (S.free true level c).2)
      L L' lvl (c :: P) P R top Z [] := by
  have hcR : c ∉ R := fun h => by
    have := (G.root c h).2.1
    omega
  have hcZ : c ∉ Z := fun h => by
    have := hZ c h hc
    omega
  obtain ⟨L', hlast, F⟩ := ih S L c P G hc hcR hcl hZ
  refine ⟨L', ?_⟩
  by_cases h : (S.free true level c).1 = true
  · rw [if_pos h]
    rw [if_pos ⟨h, hcZ⟩] at F
    refine ⟨F.good.of_node_eq rfl rfl, ?_, ?_, F.sub, F.less, F.kept, F.rows, F.same⟩
    · exact fun held I => ⟨(F.items held I).fresh, (F.items held I).nodup, (F.items held I).deleted,
        (F.items held I).client, (F.items held I).stored⟩
    · intro D hD
      exact (F.logged D hD).delete fun h => hD.apart c h hc
  · rw [if_neg h]
    rwa [if_neg (fun h' => h h'.1)] at F

/-- **The loop** releases what the slots of the dead node `n` refer to. -/
theorem freeSlot_spec (ih : level ≠ 0 → FreeSpec T lvl R Z top level) (hl : level < top) :
    ∀ (js : List (Fin 32)) (S : Store T) (L : Finset ℕ), (S.node n).pointers = row →
      Good S L lvl (js.filterMap row ++ P) R top → (∀ r ∈ Z, r ∈ L → lvl r = top) →
      (∀ t ∈ js.filterMap row, if level = 0 then t ∉ L else t ∈ L ∧ lvl t = level) →
      ∃ L', Freed S (js.foldl (freeSlot level n) S) L L' lvl (js.filterMap row ++ P) P R top Z []
  | [], S, L, _, G, _, _ => ⟨L, Freed.refl G⟩
  | j :: js, S, L, hrow, G, hZ, ht => by
    rw [List.foldl_cons]
    cases hj : row j with
    | none =>
      rw [List.filterMap_cons_none hj] at G ht ⊢
      rw [show freeSlot level n S j = S by rw [freeSlot, hrow, hj]]
      exact freeSlot_spec ih hl js S L hrow G hZ ht
    | some t =>
      rw [List.filterMap_cons_some hj] at G ht ⊢
      have h0 := ht t (by simp)
      -- the first reference, then the others
      obtain ⟨L₁, F⟩ : ∃ L₁, Freed S (freeSlot level n S j) L L₁ lvl (t :: (js.filterMap row ++ P))
          (js.filterMap row ++ P)
          R top Z [] := by
        rw [freeSlot, hrow, hj]
        by_cases hz : level = 0
        · rw [if_pos hz] at h0
          simp only [hz, ite_true]
          exact ⟨L, Freed.dropItem G h0⟩
        · rw [if_neg hz] at h0
          simp only [hz, ite_false]
          exact freeChild_spec (ih hz) hl G h0.1 h0.2 hZ
      obtain ⟨L', F'⟩ := freeSlot_spec ih hl js (freeSlot level n S j) L₁ ((F.rows n).1.trans hrow) F.good
        (fun r hr h => hZ r hr (F.sub h)) fun s hs => by
          have h1 := ht s (by simp [hs])
          by_cases hz : level = 0
          · rw [if_pos hz] at h1 ⊢
            exact fun h => h1 (F.sub h)
          · rw [if_neg hz] at h1 ⊢
            exact ⟨F.kept s (by simp [hs]) h1.1, h1.2⟩
      exact ⟨L', F.trans F'⟩

theorem free_step (ih : level ≠ 0 → FreeSpec T lvl R Z top level) : FreeSpec T lvl R Z top (level + 1) := by
  intro S L c P G hc hcR hcl hZ
  have hcount : ((S.decRef c).node c).refCount = (S.node c).refCount - 1 := by simp [decRef]
  have hpos := (G.count c hc hcR).2
  rw [free_succ]
  by_cases h1 : 1 < (S.node c).refCount
  · rw [if_pos (by omega)]
    exact ⟨L, by simp [hc], by simpa using Freed.dropRef G hc hcR h1⟩
  · rw [if_neg (by omega)]
    obtain ⟨G₁, I₁, hlog, hcP⟩ := Freed.retire (Z := Z) G hc hcR (by omega)
    have htop := (G.level c hc).2
    obtain ⟨L', F⟩ := freeSlot_spec (P := P) ih (by omega) (List.finRange 32) (S.decRef c) (L.erase c)
      (decRef_rows S c c).1 G₁ (fun r hr h => hZ r hr (Finset.mem_of_mem_erase h)) fun t ht => by
        obtain ⟨i, hi⟩ := mem_targets.mp ht
        split
        · exact fun h => G.leaf c hc i t hi (by omega) (Finset.mem_of_mem_erase h)
        · obtain ⟨htL, htl⟩ := G.child c hc i t hi (by omega)
          exact ⟨Finset.mem_erase.mpr ⟨by rintro rfl; omega, htL⟩, by omega⟩
    have hcL' : c ∉ L' := fun h => by simpa using F.sub h
    refine ⟨L', by simp [hcL'], F.good, fun held I => F.items held (I₁ held I), fun D hD => ?_,
      F.sub.trans (Finset.erase_subset c L), fun t ht => by simp [ht], ?_, ?_, F.same⟩
    · have := F.logged _ (hlog D hD)
      by_cases hcZ : c ∈ Z <;> simpa [hcZ] using this
    · intro t ht htL
      exact F.kept t ht (Finset.mem_erase.mpr ⟨fun h => hcP (h ▸ ht), htL⟩)
    · exact fun m => ⟨(F.rows m).1.trans (decRef_rows S c m).1, (F.rows m).2.trans (decRef_rows S c m).2⟩

/-- **`free`** drops one reference to a node of its level. -/
theorem free_spec : ∀ level : ℕ, FreeSpec T lvl R Z top (level + 1)
  | 0 => free_step fun h => absurd rfl h
  | level + 1 => free_step fun _ => free_spec level

end GheithOS.BitTree
