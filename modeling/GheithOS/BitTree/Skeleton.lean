import GheithOS.BitTree.Release
import GheithOS.BitTree.Checked

/-!
# GheithOS.BitTree.Skeleton — the nodes of a store, whatever its clients put there

Which nodes live does not depend on the items: the same pointer may be stored twice, and null may be
stored.  Seen with empty leaves (`Store.bare`) every store that the operations build satisfies
`Good`, so the moves of `Moves` apply to it.  `Standing` adds that live nodes are in the store and,
exceptions `E` apart, not empty.

`free_live` is the first consequence: `free` touches only nodes that are in the store.
-/

namespace GheithOS.BitTree

open Lib Store

variable {T : Type} {S S' : Store T} {L L' : Finset ℕ} {lvl lvl' : ℕ → ℕ} {P Q R E : List ℕ} {top : ℕ}
  {n m c : ℕ} {i : Fin 32}

attribute [ext] BitTreeNode

/-! ### Empty leaves -/

/-- A leaf as far as the other nodes are concerned. -/
def BitTreeNode.bare (v : BitTreeNode) : BitTreeNode := ⟨v.refCount, 0, fun _ => none⟩

/-- The store with its leaves empty. -/
def Store.bare (S : Store T) (lvl : ℕ → ℕ) : Store T :=
  { S with node := fun n => if lvl n = 1 then (S.node n).bare else S.node n }

theorem bare_leaf (h : lvl n = 1) : (S.bare lvl).node n = (S.node n).bare := if_pos h

theorem bare_inner (h : lvl n ≠ 1) : (S.bare lvl).node n = S.node n := if_neg h

@[simp] theorem bare_refCount (S : Store T) (lvl : ℕ → ℕ) (n : ℕ) :
    ((S.bare lvl).node n).refCount = (S.node n).refCount := by
  by_cases h : lvl n = 1
  · rw [bare_leaf h]
    rfl
  · rw [bare_inner h]

@[simp] theorem bare_next (S : Store T) (lvl : ℕ → ℕ) : (S.bare lvl).next = S.next := rfl

/-- A leaf may change as it likes, but for its count. -/
theorem bare_congr (hl : lvl' n = lvl n) (hr : (S'.node n).refCount = (S.node n).refCount)
    (hi : lvl n ≠ 1 → S'.node n = S.node n) : (S'.bare lvl').node n = (S.bare lvl).node n := by
  by_cases h : lvl n = 1
  · rw [bare_leaf h, bare_leaf (hl.trans h)]
    unfold BitTreeNode.bare
    rw [hr]
  · rw [bare_inner h, bare_inner (hl ▸ h), hi h]

/-- Inner nodes are written alike. -/
theorem bare_setPtr (h : lvl n ≠ 1) (x : Option ℕ) (m : ℕ) :
    ((S.setPtr n i x).bare lvl).node m = ((S.bare lvl).setPtr n i x).node m := by
  by_cases hm : m = n
  · subst hm
    rw [bare_inner h, setPtr, setPtr, setNode_node, if_pos rfl, setNode_node, if_pos rfl, bare_inner h]
  · rw [setPtr, setPtr, setNode_node, if_neg hm]
    refine bare_congr rfl ?_ fun _ => ?_
    · rw [setNode_node, if_neg hm]
    · rw [setNode_node, if_neg hm]

theorem writeSlot_node_congr {A B : Store T} (h : A.node m = B.node m) (n : ℕ) (i : Fin 32)
    (x : Option ℕ) : (A.writeSlot n i x).node m = (B.writeSlot n i x).node m := by
  by_cases hm : m = n
  · subst hm
    unfold writeSlot setPtr setBit clearBit
    cases x <;> simp [h]
  · rw [writeSlot_node_of_ne _ _ _ hm, writeSlot_node_of_ne _ _ _ hm, h]

theorem bare_writeSlot (h : lvl n ≠ 1) (x : Option ℕ) (m : ℕ) :
    ((S.writeSlot n i x).bare lvl).node m = ((S.bare lvl).writeSlot n i x).node m := by
  by_cases hm : m = n
  · subst hm
    rw [bare_inner h]
    exact writeSlot_node_congr (bare_inner h).symm _ _ _
  · rw [writeSlot_node_of_ne _ _ _ hm]
    exact bare_congr rfl (by rw [writeSlot_refCount]) fun _ => writeSlot_node_of_ne _ _ _ hm

theorem bare_decRef (S : Store T) (lvl : ℕ → ℕ) (c n : ℕ) :
    ((S.decRef c).bare lvl).node n = ((S.bare lvl).decRef c).node n := by
  by_cases hn : n = c
  · subst hn
    by_cases h : lvl n = 1
    · simp [decRef, bare_leaf h, BitTreeNode.bare]
    · simp [decRef, bare_inner h]
  · by_cases h : lvl n = 1
    · simp [decRef, bare_leaf h, hn]
    · simp [decRef, bare_inner h, hn]

/-- The invariant is about the live nodes: `S'` has the same ones, and addresses for all that they
refer to. -/
theorem Good.transfer (G : Good S L lvl P R top) (hnode : ∀ n ∈ L, S'.node n = S.node n)
    (hlvl : ∀ n ∈ L, lvl' n = lvl n) (hfresh : ∀ n ∈ L, n < S'.next)
    (htarget : ∀ n ∈ L, ∀ i c, (S.node n).pointers i = some c → c < S'.next)
    (hpending : ∀ c ∈ P, c < S'.next) : Good S' L lvl' P R top := by
  refine ⟨hfresh, ?_, ?_, ?_, ?_, ?_, hpending, ?_, ?_⟩
  · intro n hn
    rw [hlvl n hn]
    exact G.level n hn
  · intro n hn
    rw [hnode n hn]
    exact G.bits n hn
  · intro n hn
    rw [hnode n hn]
    exact htarget n hn
  · intro n hn i c hc h2
    rw [hnode n hn] at hc
    rw [hlvl n hn] at h2 ⊢
    obtain ⟨h3, h4⟩ := G.child n hn i c hc h2
    exact ⟨h3, by rw [hlvl c h3, h4]⟩
  · intro n hn i c hc h1
    rw [hnode n hn] at hc
    rw [hlvl n hn] at h1
    exact G.leaf n hn i c hc h1
  · intro r hr
    obtain ⟨h1, h2, h3, h4⟩ := G.root r hr
    exact ⟨h1, by rw [hlvl r h1, h2], by rw [hnode r h1, h3], h4⟩
  · intro c hc hR
    have hrefs : refsTo S' L c = refsTo S L c := refs_congr fun n hn => by
      unfold slots
      rw [hnode n hn]
    rw [hnode c hc, hrefs]
    exact G.count c hc hR

theorem Good.congr (G : Good S L lvl P R top) (hnode : ∀ n ∈ L, S'.node n = S.node n)
    (hnext : S.next ≤ S'.next) (hlvl : ∀ n ∈ L, lvl' n = lvl n) : Good S' L lvl' P R top :=
  G.transfer hnode hlvl (fun n hn => (G.fresh n hn).trans_le hnext)
    (fun n hn i c hc => (G.target n hn i c hc).trans_le hnext) fun c hc => (G.pending c hc).trans_le hnext

/-! ### The invariant -/

/-- The live nodes `L` of a store are in it, and none is empty but roots and those in `E`. -/
structure Standing (S : Store T) (L : Finset ℕ) (lvl : ℕ → ℕ) (P R E : List ℕ) (top : ℕ) : Prop where
  good : Good (S.bare lvl) L lvl P R top
  full : Full S L R E
  live : ∀ n ∈ L, n ∉ S.deletedNodes
  old : ∀ n ∈ S.deletedNodes, n < S.next

namespace Standing

variable (W : Standing S L lvl P R E top)
include W

theorem child (hn : n ∈ L) (h2 : 2 ≤ lvl n) (hc : (S.node n).pointers i = some c) :
    c ∈ L ∧ lvl c + 1 = lvl n := by
  refine W.good.child n hn i c ?_ h2
  rw [bare_inner (by omega)]
  exact hc

theorem child_not_root (hn : n ∈ L) (h2 : 2 ≤ lvl n) (hc : (S.node n).pointers i = some c) : c ∉ R := by
  refine W.good.child_not_root hn (i := i) ?_ h2
  rw [bare_inner (by omega)]
  exact hc

theorem bits (hn : n ∈ L) (h2 : 2 ≤ lvl n) (i : Fin 32) :
    (S.node n).presentBits.getLsbD i = ((S.node n).pointers i).isSome := by
  have h := W.good.bits n hn i
  rwa [bare_inner (by omega)] at h

theorem lt_next (hn : n ∈ L) : n < S.next := W.good.fresh n hn

theorem next_not_mem : S.next ∉ L := fun h => absurd (W.lt_next h) (lt_irrefl _)

theorem next_not_deleted : S.next ∉ S.deletedNodes := fun h => absurd (W.old _ h) (lt_irrefl _)

end Standing

/-! ### Accesses -/

theorem node_live (h : n ∉ S.deletedNodes) : Checked.node n S = .ok (S.node n, S) := by
  have hn : S.nodes n = some (S.node n) := if_neg h
  unfold Checked.node
  rw [bind_of_eq (show (get : Prog Gone (Store T) (Store T)) S = .ok (S, S) from rfl), hn]
  rfl

theorem node_gone (h : n ∈ S.deletedNodes) : Checked.node n S = .error ⟨n⟩ := by
  have hn : S.nodes n = none := if_pos h
  unfold Checked.node
  rw [bind_of_eq (show (get : Prog Gone (Store T) (Store T)) S = .ok (S, S) from rfl), hn]
  rfl

theorem update_live (h : n ∉ S.deletedNodes) (f : Store T → Store T) :
    Checked.update n f S = .ok ((), f S) := by
  unfold Checked.update
  rw [bind_of_eq (node_live h)]
  rfl

/-! ### Releasing references -/

/-- The pending references `P` are released down to `Q`; what is deleted on the way was live. -/
structure Released (S S' : Store T) (L L' : Finset ℕ) (lvl : ℕ → ℕ) (P Q R : List ℕ) (top : ℕ) : Prop where
  good : Good (S'.bare lvl) L' lvl Q R top
  sub : L' ⊆ L
  less : ∀ t ∈ Q, t ∈ P
  kept : ∀ t ∈ Q, t ∈ L → t ∈ L'
  rows : ∀ m, (S'.node m).pointers = (S.node m).pointers ∧ (S'.node m).presentBits = (S.node m).presentBits
  next : S'.next = S.next
  deleted : ∀ m ∈ S'.deletedNodes, m ∈ S.deletedNodes ∨ m ∈ L ∧ m ∉ L'

theorem Released.refl (G : Good (S.bare lvl) L lvl P R top) : Released S S L L lvl P P R top :=
  ⟨G, Finset.Subset.refl L, fun _ => id, fun _ _ => id, fun _ => ⟨rfl, rfl⟩, rfl, fun _ h => .inl h⟩

theorem Released.trans {S₁ : Store T} {L₁ : Finset ℕ} {P₁ : List ℕ} (h₁ : Released S S₁ L L₁ lvl P P₁ R top)
    (h₂ : Released S₁ S' L₁ L' lvl P₁ Q R top) : Released S S' L L' lvl P Q R top := by
  refine ⟨h₂.good, h₂.sub.trans h₁.sub, fun t ht => h₁.less t (h₂.less t ht),
    fun t ht hL => h₂.kept t ht (h₁.kept t (h₂.less t ht) hL),
    fun m => ⟨(h₂.rows m).1.trans (h₁.rows m).1, (h₂.rows m).2.trans (h₁.rows m).2⟩,
      h₂.next.trans h₁.next, ?_⟩
  intro m hm
  rcases h₂.deleted m hm with hm | ⟨hm, hm'⟩
  · rcases h₁.deleted m hm with hm | ⟨hm, hm'⟩
    · exact .inl hm
    · exact .inr ⟨hm, fun h => hm' (h₂.sub h)⟩
  · exact .inr ⟨h₁.sub hm, hm'⟩

theorem Released.live (h : Released S S' L L' lvl P Q R top) (hL : ∀ n ∈ L, n ∉ S.deletedNodes) :
    ∀ n ∈ L', n ∉ S'.deletedNodes := by
  intro n hn hd
  rcases h.deleted n hd with hd | hd
  · exact hL n (h.sub hn) hd
  · exact hd.2 hn

/-- The items are none of its business. -/
theorem Released.of_node_eq {S₁ : Store T} (h : Released S S' L L' lvl P Q R top)
    (hnode : S₁.node = S'.node) (hnext : S₁.next = S'.next)
    (hdel : S₁.deletedNodes = S'.deletedNodes) : Released S S₁ L L' lvl P Q R top := by
  refine ⟨h.good.congr (fun m _ => bare_congr rfl (by rw [hnode]) fun _ => by rw [hnode]) ?_
    fun _ _ => rfl, h.sub, h.less, h.kept, ?_, hnext.trans h.next, ?_⟩
  · rw [bare_next, bare_next, hnext]
  · rw [hnode]
    exact h.rows
  · rw [hdel]
    exact h.deleted

/-- A node whose last reference is gone is deleted. -/
theorem Released.delete (h : Released S S' L L' lvl P Q R top) (hc : c ∈ L) (hc' : c ∉ L') :
    Released S (S'.deleteNode c) L L' lvl P Q R top := by
  refine ⟨h.good.congr (fun _ _ => rfl) le_rfl fun _ _ => rfl, h.sub, h.less, h.kept, h.rows, h.next, ?_⟩
  intro m hm
  rcases List.mem_cons.mp hm with rfl | hm
  · exact .inr ⟨hc, hc'⟩
  · exact h.deleted m hm

/-- One round of the loop of `free`. -/
def freeRound (freeData : Bool) (level n : ℕ) (S : Store T) (i : Fin 32) : Store T :=
  match (S.node n).pointers i with
  | none => S
  | some c =>
    if level = 0 then if freeData then S.deleteItem c else S
    else if (S.free freeData level c).1 then (S.free freeData level c).2.deleteNode c
        else (S.free freeData level c).2

theorem free_round (S : Store T) (freeData : Bool) (level n : ℕ) :
    S.free freeData (level + 1) n =
      if 0 < ((S.decRef n).node n).refCount then (false, S.decRef n)
      else (true, (List.finRange 32).foldl (freeRound freeData level n) (S.decRef n)) := by
  rw [Store.free]
  rfl

/-- The round as a program. -/
def Checked.freeRound (freeData : Bool) (level n : ℕ) (i : Fin 32) : Prog Gone (Store T) Unit := do
  match (← Checked.node n).pointers i with
  | none => return ()
  | some c =>
    if level = 0 then modify fun S => if freeData then S.deleteItem c else S
    else if ← Checked.free freeData level c then Checked.update c (deleteNode · c)
    else return ()

theorem checked_free_round (freeData : Bool) (level n : ℕ) :
    (Checked.free freeData (level + 1) n : Prog Gone (Store T) Bool) = (do
      Checked.update n (decRef · n)
      if 0 < (← Checked.node n).refCount then return false
      else
        (List.finRange 32).forM (Checked.freeRound freeData level n)
        return true) := by
  rw [Checked.free]
  rfl

/-- `free` drops a reference to a live node of its level and touches only what is in the store. -/
def FreesLive (T : Type) (freeData : Bool) (lvl : ℕ → ℕ) (R : List ℕ) (top level : ℕ) : Prop :=
  ∀ (S : Store T) (L : Finset ℕ) (c : ℕ) (P : List ℕ), Good (S.bare lvl) L lvl (c :: P) R top →
    (∀ n ∈ L, n ∉ S.deletedNodes) → c ∈ L → c ∉ R → lvl c = level →
    Checked.free freeData level c S = .ok (S.free freeData level c) ∧
    c ∉ (S.free freeData level c).2.deletedNodes ∧
      ∃ L', ((S.free freeData level c).1 = true ↔ c ∉ L') ∧
        Released S (S.free freeData level c).2 L L' lvl (c :: P) P R top

section Free

variable {freeData : Bool} {level : ℕ}

theorem freeRound_live (ih : level ≠ 0 → FreesLive T freeData lvl R top level)
    (hn : n ∉ S.deletedNodes) (hl : lvl n = level + 1) (hlevel : level < top)
    (G : Good (S.bare lvl) L lvl ((((S.bare lvl).node n).pointers i).toList ++ P) R top)
    (hslot : ∀ c, ((S.bare lvl).node n).pointers i = some c → c ∈ L ∧ lvl c = level)
    (hL : ∀ n ∈ L, n ∉ S.deletedNodes) :
    Checked.freeRound freeData level n i S = .ok ((), freeRound freeData level n S i) ∧
      ∃ L', Released S (freeRound freeData level n S i) L L' lvl
        ((((S.bare lvl).node n).pointers i).toList ++ P) P R top := by
  unfold Checked.freeRound freeRound
  rw [bind_of_eq (node_live hn)]
  by_cases h0 : level = 0
  · -- the items of a leaf
    have hb : (((S.bare lvl).node n).pointers i).toList = [] := by
      rw [bare_leaf (by omega)]
      rfl
    rw [hb] at G ⊢
    cases hc : (S.node n).pointers i with
    | none => exact ⟨rfl, L, .refl G⟩
    | some c =>
      dsimp only
      rw [if_pos h0, if_pos h0]
      refine ⟨rfl, L, (Released.refl G).of_node_eq ?_ ?_ ?_⟩
      all_goals cases freeData <;> rfl
  · have hb : (S.bare lvl).node n = S.node n := bare_inner (by omega)
    rw [hb] at G hslot ⊢
    cases hc : (S.node n).pointers i with
    | none =>
      rw [hc] at G
      exact ⟨rfl, L, .refl G⟩
    | some c =>
      rw [hc] at G
      dsimp only
      rw [if_neg h0, if_neg h0]
      obtain ⟨hcL, hcl⟩ := hslot c hc
      have hcR : c ∉ R := fun h => by
        have := (G.root c h).2.1
        omega
      obtain ⟨hfree, hcd, L', hlast, F⟩ := ih h0 S L c P G hL hcL hcR hcl
      rw [bind_of_eq hfree]
      by_cases hb : (S.free freeData level c).1 = true
      · rw [if_pos hb, if_pos hb, update_live hcd]
        exact ⟨rfl, L', F.delete hcL (hlast.mp hb)⟩
      · rw [if_neg hb, if_neg hb]
        exact ⟨rfl, L', F⟩

/-- **The loop** releases what the dead node `n` refers to. -/
theorem freeRounds_live (ih : level ≠ 0 → FreesLive T freeData lvl R top level)
    (hn : n ∉ S.deletedNodes) (hnL : n ∉ L) (hl : lvl n = level + 1) (hlevel : level < top)
    (G : Good (S.bare lvl) L lvl (targets ((S.bare lvl).node n).pointers ++ P) R top)
    (hslot : ∀ i c, ((S.bare lvl).node n).pointers i = some c → c ∈ L ∧ lvl c = level)
    (hL : ∀ n ∈ L, n ∉ S.deletedNodes) :
    (List.finRange 32).forM (Checked.freeRound freeData level n) S =
        .ok ((), (List.finRange 32).foldl (freeRound freeData level n) S) ∧
      ∃ L', Released S ((List.finRange 32).foldl (freeRound freeData level n) S) L L' lvl
        (targets ((S.bare lvl).node n).pointers ++ P) P R top := by
  generalize hrow : ((S.bare lvl).node n).pointers = row at *
  -- the references of the slots to come are still pending
  refine forM_of_step (fun is S' => ∃ L',
    Released S S' L L' lvl (targets row ++ P) (is.filterMap row ++ P) R top)
    (fun i is S' h => ?_) (List.finRange 32) ⟨L, .refl G⟩
  obtain ⟨L₁, F⟩ := h
  have hrow' : ((S'.bare lvl).node n).pointers = row := by
    rw [← hrow]
    by_cases h : lvl n = 1
    · rw [bare_leaf h, bare_leaf h]
      rfl
    · rw [bare_inner h, bare_inner h, (F.rows n).1]
  have hcons : (i :: is).filterMap row = (row i).toList ++ is.filterMap row := by
    cases h : row i with
    | none => rw [List.filterMap_cons_none h]; rfl
    | some c => rw [List.filterMap_cons_some h]; rfl
  have hn' : n ∉ S'.deletedNodes := fun h => (F.deleted n h).elim hn fun h => hnL h.1
  rw [hcons, List.append_assoc] at F
  have hslot' : ∀ c, ((S'.bare lvl).node n).pointers i = some c → c ∈ L₁ ∧ lvl c = level := by
    intro c hc
    rw [hrow'] at hc
    obtain ⟨hcL, hcl⟩ := hslot i c hc
    exact ⟨F.kept c (by simp [hc]) hcL, hcl⟩
  obtain ⟨hround, L₂, F₂⟩ := freeRound_live (i := i) ih hn' hl hlevel (hrow' ▸ F.good) hslot' (F.live hL)
  rw [hrow'] at F₂
  exact ⟨hround, L₂, F.trans F₂⟩

theorem free_step_live (ih : level ≠ 0 → FreesLive T freeData lvl R top level) :
    FreesLive T freeData lvl R top (level + 1) := by
  intro S L c P G hL hc hcR hcl
  have hcount : ((S.decRef c).node c).refCount = (S.node c).refCount - 1 := by simp [decRef]
  have hpos := (G.count c hc hcR).2
  rw [bare_refCount] at hpos
  have hcd := hL c hc
  have hbare : ∀ m ∈ L, ((S.decRef c).bare lvl).node m = ((S.bare lvl).decRef c).node m :=
    fun m _ => bare_decRef S lvl c m
  rw [checked_free_round, free_round, bind_of_eq (update_live hcd _),
    bind_of_eq (node_live (S := S.decRef c) hcd)]
  by_cases h1 : 1 < (S.node c).refCount
  · rw [if_pos (by omega), if_pos (by omega)]
    refine ⟨rfl, hcd, L, by simp [hc], ?_⟩
    have G' := (G.dropRef hc hcR (by simpa using h1)).congr hbare le_rfl fun _ _ => rfl
    exact ⟨G', Finset.Subset.refl L, fun t ht => by simp [ht], fun _ _ => id, decRef_rows S c, rfl,
      fun m hm => .inl hm⟩
  · rw [if_neg (by omega), if_neg (by omega)]
    have hcP : c ∉ P := by
      have h := (G.count c hc hcR).1
      rw [bare_refCount, List.count_cons_self] at h
      exact List.count_eq_zero.mp (by omega)
    have hrow : slots (S.bare lvl) c = (((S.decRef c).bare lvl).node c).pointers := by
      rw [bare_decRef]
      exact (congrFun (slots_decRef (S.bare lvl) c) c).symm
    have G' := (G.retire hc hcR (by simp; omega)).congr
      (fun m hm => hbare m (Finset.mem_of_mem_erase hm)) le_rfl fun _ _ => rfl
    rw [hrow] at G'
    have htop := (G.level c hc).2
    have hslot : ∀ i t, (((S.decRef c).bare lvl).node c).pointers i = some t → t ∈ L.erase c ∧
        lvl t = level := by
      intro i t ht
      rw [← hrow] at ht
      have h2 : 2 ≤ lvl c := by
        by_contra h
        have h1 : lvl c = 1 := by omega
        unfold slots at ht
        rw [bare_leaf h1] at ht
        cases ht
      obtain ⟨htL, htl⟩ := G.child c hc i t ht h2
      exact ⟨Finset.mem_erase.mpr ⟨by rintro rfl; omega, htL⟩, by omega⟩
    obtain ⟨hloop, L', F⟩ :=
      freeRounds_live (P := P) ih (S := S.decRef c) (L := L.erase c) hcd (by simp) hcl (by omega)
      G' hslot fun m hm => hL m (Finset.mem_of_mem_erase hm)
    rw [bind_of_eq hloop]
    have hdel : ∀ m ∈ ((List.finRange 32).foldl (freeRound freeData level c) (S.decRef c)).deletedNodes,
        m ∈ S.deletedNodes ∨ (m ∈ L ∧ m ≠ c) ∧ m ∉ L' := fun m hm =>
      (F.deleted m hm).imp_right fun h => ⟨⟨Finset.mem_of_mem_erase h.1, Finset.ne_of_mem_erase h.1⟩, h.2⟩
    have hcL' : c ∉ L' := fun h => by simpa using F.sub h
    refine ⟨rfl, fun h => (hdel c h).elim hcd fun h => h.1.2 rfl, L', by simp [hcL'], F.good,
      F.sub.trans (Finset.erase_subset c L), fun t ht => by simp [ht], ?_, ?_, F.next, ?_⟩
    · exact fun t ht htL => F.kept t ht (Finset.mem_erase.mpr ⟨fun h => hcP (h ▸ ht), htL⟩)
    · exact fun m => ⟨(F.rows m).1.trans (decRef_rows S c m).1, (F.rows m).2.trans (decRef_rows S c m).2⟩
    · exact fun m hm => (hdel m hm).imp_right fun h => ⟨h.1.1, h.2⟩

variable (freeData) in
/-- **`free`** touches only nodes that are in the store. -/
theorem free_live : ∀ level : ℕ, FreesLive T freeData lvl R top (level + 1)
  | 0 => free_step_live fun h => absurd rfl h
  | level + 1 => free_step_live fun _ => free_live level

end Free

end GheithOS.BitTree
