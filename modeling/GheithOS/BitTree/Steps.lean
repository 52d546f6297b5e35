import GheithOS.BitTree.Skeleton

/-!
# GheithOS.BitTree.Steps — the steps of `get_entry_ref` on nodes that exist

What an edit does on its way down and back: a shared node is copied (`Standing.copyOnWrite`), a
missing child is added (`Standing.descend`), and a child that has become empty is released
(`Standing.prune`).  Each step, as a program, returns what the model says, so it has touched only
nodes that are in the store, and keeps `Standing`.
-/

namespace GheithOS.BitTree

open Lib Store Function

variable {T : Type} {S S' : Store T} {L L' : Finset ℕ} {lvl lvl' : ℕ → ℕ} {P Q R E : List ℕ} {top : ℕ}
  {n m c : ℕ} {i : Fin 32}

/-! ### A copy of a node -/

/-- What the copy of a node does to the child in a slot. -/
def addSlotRef (v : BitTreeNode) (isLastLevel : Bool) (S : Store T) (i : Fin 32) : Store T :=
  match v.pointers i with
  | some child => if isLastLevel then S else S.addRef child
  | none => S

theorem addSlotRef_live {v : BitTreeNode} {isLastLevel : Bool}
    (h : isLastLevel = false → ∀ c, v.pointers i = some c → c ∉ S.deletedNodes) :
    Checked.addSlotRef v isLastLevel i S = .ok ((), addSlotRef v isLastLevel S i) ∧
      (addSlotRef v isLastLevel S i).deletedNodes = S.deletedNodes := by
  unfold Checked.addSlotRef addSlotRef
  cases hc : v.pointers i with
  | none => exact ⟨rfl, rfl⟩
  | some c =>
    cases isLastLevel with
    | true => exact ⟨rfl, rfl⟩
    | false => exact ⟨update_live (h rfl c hc) _, rfl⟩

theorem copyNode_live (hn : n ∉ S.deletedNodes) (isLastLevel : Bool)
    (hchild : isLastLevel = false → ∀ i c, (S.node n).pointers i = some c → c ∉ S.deletedNodes) :
    Checked.copyNode n isLastLevel S = .ok ((S.copyNode n isLastLevel).2,
      (S.copyNode n isLastLevel).1) := by
  have hloop := (forM_of_step (g := addSlotRef (S.node n) isLastLevel)
    (fun _ (S' : Store T) => S'.deletedNodes = S.deletedNodes) (fun i is S' h => by
      obtain ⟨hi, hd⟩ := addSlotRef_live (S := S') (i := i) fun h1 c hc => h ▸ hchild h1 i c hc
      exact ⟨hi, hd.trans h⟩) (List.finRange 32) rfl).1
  unfold Checked.copyNode
  rw [bind_of_eq (node_live hn), bind_of_eq hloop]
  rfl

/-- The items of a leaf are copied: new items, and other pointers in the leaf. -/
structure LeafOnly (S S' : Store T) (n : ℕ) : Prop where
  next : S.next ≤ S'.next
  node : ∀ m, m ≠ n → S'.node m = S.node m
  here : (S'.node n).refCount = (S.node n).refCount ∧ (S'.node n).presentBits = (S.node n).presentBits
  deleted : S'.deletedNodes = S.deletedNodes

theorem copyItem_leafOnly {S₁ : Store T} (h : LeafOnly S S₁ n) (i : Fin 32) :
    LeafOnly S (copyItem n S₁ i) n := by
  cases hx : (S₁.node n).pointers i with
  | none =>
    rw [copyItem, hx]
    exact h
  | some x =>
    rw [copyItem_some hx]
    refine ⟨Nat.le_succ_of_le h.next, fun m hm => ?_, ?_, h.deleted⟩
    · rw [setPtr, setNode_node, if_neg hm]
      exact h.node m hm
    · rw [setPtr_refCount, setPtr_presentBits]
      exact h.here

theorem copyItem_live (hn : n ∉ S.deletedNodes) (i : Fin 32) :
    Checked.copyItem n i S = .ok ((), copyItem n S i) := by
  unfold Checked.copyItem
  rw [bind_of_eq (node_live hn)]
  cases hx : (S.node n).pointers i with
  | none =>
    rw [copyItem, hx]
    rfl
  | some x =>
    have hnew : Checked.newItemFrom x S = .ok (S.next, (S.newItem (S.item x)).1) := rfl
    rw [copyItem_some hx]
    dsimp only
    rw [bind_of_eq hnew]
    exact update_live (S := (S.newItem (S.item x)).1) hn _

theorem copyItems_live (hn : n ∉ S.deletedNodes) :
    Checked.copyItems 1 n S = .ok ((), S.copyItems n) ∧ LeafOnly S (S.copyItems n) n :=
  forM_of_step (g := copyItem n) (fun _ S' => LeafOnly S S' n)
    (fun i _ _ h => ⟨copyItem_live (h.deleted ▸ hn) i, copyItem_leafOnly h i⟩) (List.finRange 32)
    ⟨le_rfl, fun _ _ => rfl, ⟨rfl, rfl⟩, rfl⟩

/-- The nodes when `S.next` has become a copy of `n`. -/
structure CopyMade (S S' : Store T) (level n : ℕ) : Prop where
  next : S.next < S'.next
  old : ∀ m < S.next, S'.node m = { S.node m with
    refCount := (if m = n then (S.node n).refCount - 1 else (S.node m).refCount) +
      if level = 1 then 0 else hits (slots S n) m }
  here : (S'.node S.next).refCount = 1 ∧ (S'.node S.next).presentBits = (S.node n).presentBits
  inner : level ≠ 1 → (S'.node S.next).pointers = (S.node n).pointers
  deleted : S'.deletedNodes = S.deletedNodes

theorem copyOf_made (level : ℕ) (hnext : S.next ∉ S.deletedNodes) :
    CopyMade S (copyOf S level n) level n := by
  generalize hS₂ : (((S.decRef n).copyNode n (level == 1)).1.newNode
      ((S.decRef n).copyNode n (level == 1)).2).1 = S₂
  obtain ⟨hS₂n, hnode, -, -, -, hdel, -⟩ := newNode_copy level hS₂
  have hcopy : S₂.node S.next = { S.node n with refCount := 1 } := by rw [hnode, if_pos rfl]
  have hS' : copyOf S level n = if level = 1 then S₂.copyItems S.next else S₂ := by rw [← hS₂]; rfl
  have H : LeafOnly S₂ (copyOf S level n) S.next ∧ (level ≠ 1 → copyOf S level n = S₂) := by
    rw [hS']
    by_cases h1 : level = 1
    · rw [if_pos h1]
      exact ⟨(copyItems_live (hdel ▸ hnext)).2, fun h => absurd h1 h⟩
    · rw [if_neg h1]
      exact ⟨⟨le_rfl, fun _ _ => rfl, ⟨rfl, rfl⟩, rfl⟩, fun _ => rfl⟩
  refine ⟨lt_of_lt_of_le (by omega) H.1.next, fun m hm => ?_, ?_, fun h1 => ?_, H.1.deleted.trans hdel⟩
  · rw [H.1.node m (by omega), hnode, if_neg (by omega)]
  · rw [H.1.here.1, H.1.here.2, hcopy]
    exact ⟨rfl, rfl⟩
  · rw [H.2 h1, hcopy]

/-! ### One step of the copying -/

section Step

variable {root level p n' : ℕ} {j : Fin 32} {nodeRef : NodeRef}

theorem Standing.copyOf_bare (W : Standing S L lvl [] R E top) (hn : n ∈ L) (hl : lvl n = level)
    (hm : m ∈ insert S.next L) :
    ((copyOf S level n).bare (update lvl S.next level)).node m = (copyOf (S.bare lvl) level n).node m := by
  have M := copyOf_made (n := n) level W.next_not_deleted
  have H := copyOf_spec (S := S.bare lvl) (n := n) level (W.good.target n hn)
  have hbits := H.here.2
  have hcount := H.here.1
  rw [bare_next] at hbits hcount
  rcases Finset.mem_insert.mp hm with rfl | hm
  · by_cases h1 : level = 1
    · rw [bare_leaf (hl.trans h1)] at hbits
      rw [bare_leaf (by rw [update_self, h1])]
      refine BitTreeNode.ext (M.here.1.trans hcount.symm) hbits.symm (funext fun i => (H.none i ?_).symm)
      rw [bare_leaf (hl.trans h1)]
      rfl
    · have hn1 : lvl n ≠ 1 := hl ▸ h1
      have hrow := (H.inner h1).1
      rw [bare_inner hn1] at hbits hrow
      rw [bare_inner (by rw [update_self]; exact h1)]
      exact BitTreeNode.ext (M.here.1.trans hcount.symm) (M.here.2.trans hbits.symm)
        ((M.inner h1).trans hrow.symm)
  · have hm' := W.lt_next hm
    have hlm : update lvl S.next level m = lvl m := update_of_ne (by omega) _ _
    have hhits : (if level = 1 then 0 else hits (slots (S.bare lvl) n) m) =
        if level = 1 then 0 else hits (slots S n) m := by
      by_cases h1 : level = 1
      · rw [if_pos h1, if_pos h1]
      · rw [if_neg h1, if_neg h1]
        unfold slots
        rw [bare_inner (by omega)]
    rw [H.old m hm', bare_refCount, bare_refCount, hhits]
    by_cases h1 : lvl m = 1
    · rw [bare_leaf (hlm.trans h1), bare_leaf h1, M.old m hm']
      rfl
    · rw [bare_inner (hlm ▸ h1), bare_inner h1, M.old m hm']

/-- A shared node is replaced by its copy in the slot `j` of `p`. -/
theorem Standing.redirect (W : Standing S L lvl [] R E top) (hp : p ∈ L) (hpl : lvl p = level + 1)
    (hl : 1 ≤ level) (hj : (S.node p).pointers j = some n) (hc : 1 < (S.node n).refCount) :
    Good (((copyOf S level n).setPtr p j (some S.next)).bare (update lvl S.next level)) (insert S.next L)
      (update lvl S.next level) [] R top := by
  obtain ⟨hn, hnl⟩ := W.child hp (by omega) hj
  have hpb : (S.bare lvl).node p = S.node p := bare_inner (by omega)
  have G := W.good.redirect hp hpl hl (by rw [hpb]; exact hj) (by simpa using hc)
    (copyOf_spec (S := S.bare lvl) (n := n) level (W.good.target n hn))
  rw [bare_next] at G
  have hlt : ∀ m ∈ insert S.next L, m < (copyOf S level n).next := by
    intro m hm
    have hnext := (copyOf_made (n := n) level W.next_not_deleted).next
    rcases Finset.mem_insert.mp hm with rfl | hm
    · exact hnext
    · exact (W.lt_next hm).trans hnext
  have hlp : update lvl S.next level p ≠ 1 := by
    rw [update_of_ne (by have := W.lt_next hp; omega)]
    omega
  have hnode : ∀ m ∈ insert S.next L, (((copyOf S level n).setPtr p j (some S.next)).bare
      (update lvl S.next level)).node m =
        ((copyOf (S.bare lvl) level n).setPtr p j (some S.next)).node m := by
    intro m hm
    rw [bare_setPtr hlp]
    exact writeRef_node_congr (W.copyOf_bare hn (by omega) hm) (.slot p j) S.next
  refine G.transfer hnode (fun _ _ => rfl) hlt (fun m hm i c hc => ?_) (by simp)
  -- the slots of inner nodes lead to live nodes, and leaves have no slots here
  by_cases h1 : update lvl S.next level m = 1
  · have hm' := hnode m hm
    rw [bare_leaf h1] at hm'
    rw [← hm'] at hc
    cases hc
  · have hl1 := (G.level m hm).1
    exact hlt c (G.child m hm i c hc (by omega)).1

/-- An edit has come through `nodeRef` to the node `n'` of the given level.  The node is private and
may be empty; above it only the slot `nodeRef` has changed. -/
structure Arrived (S S' : Store T) (L L' : Finset ℕ) (lvl lvl' : ℕ → ℕ) (R : List ℕ)
    (top root level n' : ℕ) (nodeRef : NodeRef) : Prop where
  standing : Standing S' L' lvl' [] R [n'] top
  here : n' ∈ L' ∧ lvl' n' = level ∧ (S'.node n').refCount ≤ 1
  ref : RefOk S' L' lvl' R root level n' nodeRef
  above : ∀ m ∈ L, level < lvl m → m ∈ L' ∧ lvl' m = lvl m ∧ S'.node m = (S.writeRef nodeRef n').node m

/-- Down from `n`, now `n'`, a walk finds what it found before. -/
structure SameBelow (S S' : Store T) (L : Finset ℕ) (lvl : ℕ → ℕ) (level n n' : ℕ) : Prop where
  bits : (S'.node n').presentBits = (S.node n).presentBits
  pointers : level ≠ 1 → (S'.node n').pointers = (S.node n).pointers
  rows : ∀ m ∈ L, lvl m ≤ level → (S'.node m).pointers = (S.node m).pointers ∧
    (S'.node m).presentBits = (S.node m).presentBits

/-- The branch that copies, as a program. -/
theorem Standing.checked_copyOf (W : Standing S L lvl [] R E top) (hp : p ∈ L)
    (hpl : lvl p = level + 1) (hl : 1 ≤ level) (hj : (S.node p).pointers j = some n)
    (hc : 1 < (S.node n).refCount) :
    Checked.copyOnWrite level (.slot p j) n S = .ok (S.next,
      (copyOf S level n).setPtr p j (some S.next)) := by
  obtain ⟨hn, hnl⟩ := W.child hp (by omega) hj
  have hnd := W.live n hn
  have hcopy := copyNode_live (S := S.decRef n) (n := n) hnd (level == 1) fun h1 i c hi => by
    rw [(decRef_rows S n n).1] at hi
    have h2 : level ≠ 1 := by simpa using h1
    exact W.live c (W.child hn (by omega) hi).1
  have hnext : ((S.decRef n).copyNode n (level == 1)).1.next = S.next := by
    rw [copyNode_eq]
    rfl
  generalize hS₂ : (((S.decRef n).copyNode n (level == 1)).1.newNode
      ((S.decRef n).copyNode n (level == 1)).2).1 = S₂
  obtain ⟨-, -, -, -, -, hdel, -⟩ := newNode_copy level hS₂
  have hnew : Checked.newNode ((S.decRef n).copyNode n (level == 1)).2
      ((S.decRef n).copyNode n (level == 1)).1 =
      .ok (S.next, S₂) := by
    rw [← hS₂, ← hnext]
    rfl
  have hitems : Checked.copyItems level S.next S₂ = .ok ((), copyOf S level n) := by
    have hof : copyOf S level n = if level = 1 then S₂.copyItems S.next else S₂ := by rw [← hS₂]; rfl
    rw [hof]
    by_cases h1 : level = 1
    · rw [if_pos h1, h1]
      exact (copyItems_live (hdel ▸ W.next_not_deleted)).1
    · rw [if_neg h1, Checked.copyItems, if_neg h1]
      rfl
  have hpd : p ∉ (copyOf S level n).deletedNodes := by
    rw [(copyOf_made (n := n) level W.next_not_deleted).deleted]
    exact W.live p hp
  unfold Checked.copyOnWrite Checked.writeRef
  rw [bind_of_eq (node_live hnd), if_pos hc, bind_of_eq (update_live hnd _), bind_of_eq hcopy,
    bind_of_eq hnew, bind_of_eq hitems, bind_of_eq (update_live hpd _)]
  rfl

/-- **One step of the copying** touches only nodes that exist. -/
theorem Standing.copyOnWrite (W : Standing S L lvl [] R [n] top)
    (hempty : (S.node n).presentBits ≠ 0 ∨ (S.node n).refCount ≤ 1) (hn : n ∈ L)
    (hl : lvl n = level) (hl1 : 1 ≤ level) (href : RefOk S L lvl R root level n nodeRef) :
    ∃ S' n' L' lvl', S.copyOnWrite level nodeRef n = (S', n') ∧
      Checked.copyOnWrite level nodeRef n S = .ok (n', S') ∧
      Arrived S S' L L' lvl lvl' R top root level n' nodeRef ∧ SameBelow S S' L lvl level n n' := by
  by_cases h1 : (S.node n).refCount ≤ 1
  · refine ⟨S, n, L, lvl, copyOnWrite_of_le level nodeRef h1, ?_,
      ⟨W, ⟨hn, hl, h1⟩, href, fun m hm _ => ?_⟩, rfl, fun _ => rfl, fun _ _ _ => ⟨rfl, rfl⟩⟩
    · unfold Checked.copyOnWrite
      rw [bind_of_eq (node_live (W.live n hn)), if_neg (by omega)]
      rfl
    · rw [writeRef_self href]
      exact ⟨hm, rfl, rfl⟩
  · have h1 : 1 < (S.node n).refCount := by omega
    cases nodeRef with
    | rootNode =>
      have := (W.good.root root href.2).2.2.1
      rw [bare_refCount, ← href.1] at this
      omega
    | slot p j =>
      obtain ⟨hp, hpl, hj⟩ := href
      have M := copyOf_made (n := n) level W.next_not_deleted
      have hfresh : ∀ m ∈ L, m ≠ S.next := fun m hm h => W.next_not_mem (h ▸ hm)
      have hlvl : ∀ m ∈ L, update lvl S.next level m = lvl m := fun m hm =>
        update_of_ne (hfresh m hm) _ _
      have hold : ∀ m ∈ L, ((copyOf S level n).node m).pointers = (S.node m).pointers ∧
          ((copyOf S level n).node m).presentBits = (S.node m).presentBits := fun m hm => by
        rw [M.old m (W.lt_next hm)]
        exact ⟨rfl, rfl⟩
      refine ⟨_, _, insert S.next L, update lvl S.next level, copyOnWrite_of_lt level _ h1,
        W.checked_copyOf hp hpl hl1 hj h1,
          ⟨⟨W.redirect hp hpl hl1 hj h1, ?_, ?_, ?_⟩, ⟨?_, ?_, ?_⟩, ?_, ?_⟩, ?_, ?_, ?_⟩
      · intro c hc hcR hcE
        have hcL := (Finset.mem_insert.mp hc).resolve_left fun h => hcE (by simp [h])
        rw [writeRef, setPtr_presentBits, (hold c hcL).2]
        by_cases hcn : c = n
        · rw [hcn]
          exact hempty.resolve_right (by omega)
        · exact W.full c hcL hcR (by simpa using hcn)
      · intro m hm
        show m ∉ (copyOf S level n).deletedNodes
        rw [M.deleted]
        rcases Finset.mem_insert.mp hm with rfl | hm
        · exact W.next_not_deleted
        · exact W.live m hm
      · intro m hm
        have hm : m ∈ (copyOf S level n).deletedNodes := hm
        rw [M.deleted] at hm
        exact (W.old m hm).trans M.next
      · exact Finset.mem_insert_self _ _
      · exact update_self _ _ _
      · rw [writeRef, setPtr_refCount, M.here.1]
      · refine ⟨Finset.mem_insert_of_mem hp, by rw [hlvl p hp, hpl], ?_⟩
        rw [writeRef, setPtr_pointers, if_pos rfl, update_self]
      · intro m hm hml
        refine ⟨Finset.mem_insert_of_mem hm, hlvl m hm, writeRef_node_congr ?_ _ _⟩
        have h0 : (if level = 1 then 0 else hits (slots S n) m) = 0 := by
          split
          · rfl
          · refine hits_eq_zero.mpr fun i hi => ?_
            have := (W.child hn (by omega) hi).2
            omega
        rw [M.old m (W.lt_next hm), if_neg (by rintro rfl; omega), h0]
        rfl
      · rw [writeRef, setPtr_presentBits, M.here.2]
      · intro hl2
        rw [writeRef, setPtr_pointers, if_neg (hfresh p hp).symm, M.inner hl2]
      · intro m hm hml
        rw [writeRef, setPtr_pointers, if_neg (by rintro rfl; omega), setPtr_presentBits]
        exact hold m hm

end Step

/-! ### A missing child -/

/-- `get_entry_ref` has made sure that there is a child in the slot `i` of `n`. -/
structure Descended (S S' : Store T) (L L' : Finset ℕ) (lvl lvl' : ℕ → ℕ) (R : List ℕ) (top n c : ℕ)
    (i : Fin 32) : Prop where
  standing : Standing S' L' lvl' [] R [c] top
  slot : (S'.node n).pointers i = some c
  empty : (S'.node c).presentBits ≠ 0 ∨ (S'.node c).refCount ≤ 1
  count : (S'.node n).refCount = (S.node n).refCount
  old : ∀ m ∈ L, m ∈ L' ∧ lvl' m = lvl m ∧ (m ≠ n → S'.node m = S.node m)
  same : ∀ c', (S.node n).pointers i = some c' → S' = S ∧ c' = c

theorem Standing.addChild {l : ℕ} (W : Standing S L lvl [] R [n] top) (hn : n ∈ L) (hl1 : 1 ≤ l)
    (hl : lvl n = l + 1) (h0 : (S.node n).pointers i = none) :
    Descended S (S.addChild n i) L (insert S.next L) lvl (update lvl S.next l) R top n S.next i := by
  have hfresh : ∀ m ∈ L, m ≠ S.next := fun m hm h => W.next_not_mem (h ▸ hm)
  have hlvl : ∀ m ∈ L, update lvl S.next l m = lvl m := fun m hm => update_of_ne (hfresh m hm) _ _
  have hb : (S.bare lvl).node n = S.node n := bare_inner (by omega)
  have G := W.good.addChild (i := i) hn hl1 hl (by rw [hb]; exact h0)
  rw [bare_next] at G
  have hnew : ∀ m ∈ insert S.next L, ((S.newNode .empty).1.bare (update lvl S.next l)).node m =
      ((S.bare lvl).newNode .empty).1.node m := by
    intro m hm
    rw [newNode_node, bare_next]
    rcases Finset.mem_insert.mp hm with rfl | hm
    · rw [if_pos rfl]
      by_cases h1 : update lvl S.next l S.next = 1
      · rw [bare_leaf h1, newNode_node, if_pos rfl]
        rfl
      · rw [bare_inner h1, newNode_node, if_pos rfl]
    · have hnode : (S.newNode .empty).1.node m = S.node m := by rw [newNode_node, if_neg (hfresh m hm)]
      rw [if_neg (hfresh m hm)]
      exact bare_congr (hlvl m hm) (by rw [hnode]) fun _ => hnode
  have hchild : (S.addChild n i).node S.next = .empty := by
    rw [addChild_eq, writeSlot_node_of_ne _ _ _ (hfresh n hn).symm, newNode_node, if_pos rfl]
  refine ⟨⟨?_, ?_, ?_, ?_⟩, ?_, .inr (by rw [hchild]; exact le_rfl), ?_, ?_, ?_⟩
  · refine G.congr (fun m hm => ?_) le_rfl fun _ _ => rfl
    rw [addChild_eq, bare_writeSlot (by rw [hlvl n hn]; omega), addChild_eq]
    exact writeSlot_node_congr (hnew m hm) _ _ _
  · intro d hd hdR hdE
    have hdL := (Finset.mem_insert.mp hd).resolve_left fun h => hdE (by simp [h])
    by_cases hdn : d = n
    · rw [hdn]
      refine (presentBits_ne_zero_iff _).mpr ⟨i, ?_⟩
      rw [addChild_eq, writeSlot_bit, if_pos ⟨rfl, rfl⟩]
      rfl
    · rw [addChild_node_of_ne _ _ hdn (hfresh d hdL)]
      exact W.full d hdL hdR (by simpa using hdn)
  · intro m hm
    rcases Finset.mem_insert.mp hm with rfl | hm
    · exact W.next_not_deleted
    · exact W.live m hm
  · exact fun m hm => Nat.lt_succ_of_lt (W.old m hm)
  · rw [addChild_eq, writeSlot_pointers, if_pos rfl, update_self]
  · rw [addChild_eq, writeSlot_refCount, newNode_node, if_neg (hfresh n hn)]
  · exact fun m hm => ⟨Finset.mem_insert_of_mem hm, hlvl m hm,
      fun hmn => addChild_node_of_ne _ _ hmn (hfresh m hm)⟩
  · intro c' hc'
    rw [h0] at hc'
    cases hc'

theorem Standing.descend {level : ℕ} (W : Standing S L lvl [] R [n] top) (hn : n ∈ L)
    (hl : lvl n = level + 2) (i : Fin 32) :
    ∃ S' L' lvl' c, (if (S.node n).pointers i = none then S.addChild n i else S) = S' ∧
      Checked.ensureChild n i S = .ok ((), S') ∧ Descended S S' L L' lvl lvl' R top n c i := by
  have hnd := W.live n hn
  unfold Checked.ensureChild
  rw [bind_of_eq (node_live hnd)]
  cases hc : (S.node n).pointers i with
  | none =>
    rw [if_pos rfl, if_pos rfl]
    refine ⟨_, _, _, _, rfl, ?_, W.addChild hn (show 1 ≤ level + 1 by omega) hl hc⟩
    have hnew : Checked.newNode .empty S = .ok (S.next, (S.newNode .empty).1) := rfl
    have hbit := update_live (S := (S.newNode .empty).1) hnd (setBit · n i)
    unfold Checked.addChild
    rw [bind_of_eq hnew, bind_of_eq hbit]
    exact update_live (S := (S.newNode .empty).1.setBit n i) hnd _
  | some c =>
    rw [if_neg (by simp), if_neg (by simp)]
    obtain ⟨hcL, hcl⟩ := W.child hn (by omega) hc
    have hne : c ≠ n := by
      rintro rfl
      omega
    have hfull : (S.node c).presentBits ≠ 0 :=
      W.full c hcL (W.child_not_root hn (by omega) hc) (by simpa using hne)
    have hnfull : (S.node n).presentBits ≠ 0 := by
      refine (presentBits_ne_zero_iff _).mpr ⟨i, ?_⟩
      rw [W.bits hn (by omega), hc]
      rfl
    refine ⟨S, L, lvl, c, rfl, rfl, ⟨W.good, fun d hd hdR _ => ?_, W.live, W.old⟩, hc, .inl hfull, rfl,
      fun m hm => ⟨hm, rfl, fun _ => rfl⟩, fun c' hc' => ⟨rfl, Option.some_inj.mp (hc'.symm.trans hc)⟩⟩
    by_cases hdn : d = n
    · rw [hdn]
      exact hnfull
    · exact W.full d hd hdR (by simpa using hdn)

/-! ### An empty child -/

theorem checked_free_of_empty {l : ℕ} (hc : c ∉ S.deletedNodes) (h1 : (S.node c).refCount = 1)
    (h0 : l = 0 ∨ ∀ j, (S.node c).pointers j = none) :
    Checked.free false (l + 1) c S = .ok (true, S.decRef c) := by
  have hcount : ((S.decRef c).node c).refCount = 0 := by simp [decRef, h1]
  have hround : ∀ j, Checked.freeRound false l c j (S.decRef c) = .ok ((), S.decRef c) := by
    intro j
    unfold Checked.freeRound
    rw [bind_of_eq (node_live (S := S.decRef c) hc), (decRef_rows S c c).1]
    cases hj : (S.node c).pointers j with
    | none => rfl
    | some x =>
      have hl : l = 0 := h0.resolve_right fun h => by
        rw [h j] at hj
        cases hj
      dsimp only
      rw [if_pos hl]
      rfl
  have hloop := (forM_of_step (g := fun S _ => S) (fun _ S' => S' = S.decRef c)
    (fun j _ S' h => ⟨h ▸ hround j, h⟩) (List.finRange 32) rfl).1
  rw [show (List.finRange 32).foldl (fun (S : Store T) _ => S) (S.decRef c) = S.decRef c from
    List.foldl_fixed' (fun _ => rfl) _] at hloop
  rw [checked_free_round, bind_of_eq (update_live hc _),
    bind_of_eq (node_live (S := S.decRef c) hc), hcount, if_neg (lt_irrefl 0), bind_of_eq hloop]
  rfl

/-- **The release of an empty child** touches only nodes that exist. -/
theorem Standing.prune {root l : ℕ} (W : Standing S L lvl [] R [c] top) (hn : n ∈ L) (hl : lvl n = l + 2)
    (hc : (S.node n).pointers i = some c) (h1 : (S.node c).refCount ≤ 1) (hroot : root ∈ R) :
    Checked.prune root (l + 1) n i S = .ok ((), S.prune root (l + 1) n i) ∧
      ((S.node c).presentBits ≠ 0 → S.prune root (l + 1) n i = S) ∧
      ((S.node c).presentBits = 0 →
        S.prune root (l + 1) n i = ((S.writeSlot n i none).decRef c).deleteNode c ∧
        Standing (S.prune root (l + 1) n i) (L.erase c) lvl [] R [n] top) := by
  obtain ⟨hcL, hcl⟩ := W.child hn (by omega) hc
  have hcR := W.child_not_root hn (by omega) hc
  have hnd := W.live n hn
  have hcd := W.live c hcL
  have hcn : c ≠ n := by
    rintro rfl
    omega
  have hcroot : c ≠ root := fun h => hcR (h ▸ hroot)
  unfold Checked.prune
  rw [bind_of_eq (node_live hnd), hc]
  dsimp only
  rw [bind_of_eq (node_live hcd)]
  by_cases hb : (S.node c).presentBits = 0
  · have hcount : (S.node c).refCount = 1 := by
      have := (W.good.count c hcL hcR).2
      rw [bare_refCount] at this
      omega
    have h0 : l = 0 ∨ ∀ j, (S.node c).pointers j = none := by
      by_cases hl0 : l = 0
      · exact .inl hl0
      · refine .inr fun j => ?_
        have := W.bits hcL (by omega) j
        rw [hb] at this
        simpa using this
    have hprune := prune_eq hc hcn hcroot hcount hb h0
    have hcb : (S.clearBit n i).node c = S.node c := by simp [clearBit, hcn]
    have hfree := checked_free_of_empty (S := S.clearBit n i) (l := l) hcd (by rw [hcb, hcount])
        (by rw [hcb]; exact h0)
    have hfree' : (S.clearBit n i).free false (l + 1) c = (true, (S.clearBit n i).decRef c) := by
      refine free_of_empty false l (by rw [hcb, hcount]) ?_
      rw [hcb]
      exact h0.imp_left fun h => ⟨h, rfl⟩
    have hfreeNode : Checked.freeNode root false (l + 1) c (S.clearBit n i) =
        .ok ((), (S.clearBit n i).freeNode root false (l + 1) c) := by
      unfold Checked.freeNode Store.freeNode
      rw [bind_of_eq hfree, hfree']
      dsimp only
      rw [if_pos hcroot, if_pos hcroot]
      exact update_live (S := (S.clearBit n i).decRef c) hcd _
    have hnd' : n ∉ ((S.clearBit n i).freeNode root false (l + 1) c).deletedNodes := by
      unfold Store.freeNode
      rw [hfree']
      dsimp only
      rw [if_pos hcroot]
      intro h
      exact (List.mem_cons.mp h).elim (fun h => hcn h.symm) hnd
    refine ⟨?_, fun h => absurd hb h, fun _ => ⟨hprune, ?_⟩⟩
    · rw [if_pos hb, bind_of_eq (update_live hnd _), bind_of_eq hfreeNode, update_live hnd']
      unfold Store.prune
      rw [hc]
      dsimp only
      rw [if_pos hb]
    · rw [hprune]
      have hnb : (S.bare lvl).node n = S.node n := bare_inner (by omega)
      have hcz : ((S.bare lvl).node c).presentBits = 0 := by
        by_cases h1 : lvl c = 1
        · rw [bare_leaf h1]
          rfl
        · rw [bare_inner h1, hb]
      have G := (W.good.dropChild (i := i) hn (by omega)
        (by rw [hnb]; exact hc) (by simpa using hcount) hcz).1
      have hlogs := writeSlot_logs S n i none
      refine ⟨?_, ?_, ?_, ?_⟩
      · refine G.congr (fun m hm => ?_) (le_of_eq ?_) fun _ _ => rfl
        · have hmc := Finset.ne_of_mem_erase hm
          rw [decRef_deleteNode_node _ hmc, ← bare_writeSlot (by omega)]
          exact bare_congr rfl (by rw [decRef_deleteNode_node _ hmc]) fun _ => decRef_deleteNode_node _ hmc
        · show ((S.bare lvl).writeSlot n i none).next = (S.writeSlot n i none).next
          rw [writeSlot_next, writeSlot_next, bare_next]
      · intro d hd hdR hdE
        have hdc := Finset.ne_of_mem_erase hd
        rw [decRef_deleteNode_node _ hdc, writeSlot_node_of_ne _ _ _ (by simpa using hdE)]
        exact W.full d (Finset.mem_of_mem_erase hd) hdR (by simpa using hdc)
      · intro m hm
        show m ∉ c :: (S.writeSlot n i none).deletedNodes
        rw [hlogs.2.1, List.mem_cons, not_or]
        exact ⟨Finset.ne_of_mem_erase hm, W.live m (Finset.mem_of_mem_erase hm)⟩
      · intro m hm
        have hm : m ∈ c :: (S.writeSlot n i none).deletedNodes := hm
        show m < (S.writeSlot n i none).next
        rw [hlogs.2.1] at hm
        rw [writeSlot_next]
        rcases List.mem_cons.mp hm with rfl | hm
        · exact W.lt_next hcL
        · exact W.old m hm
  · have hid : S.prune root (l + 1) n i = S := by
      unfold Store.prune
      rw [hc]
      dsimp only
      rw [if_neg hb]
    rw [if_neg hb, hid]
    exact ⟨rfl, fun _ => rfl, fun h => absurd h hb⟩

end GheithOS.BitTree
