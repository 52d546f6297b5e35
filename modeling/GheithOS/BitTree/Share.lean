import GheithOS.BitTree.Entry

/-!
# GheithOS.BitTree.Share — the copying of shared nodes

Values are compared by content: `value` is the content of the item under a key.  Replacing a shared
node by a copy of its own changes no value (`copyOnWrite_spec`), and after all nodes of a path are
private `get_entry_ref` goes on as if it had found them so (`privatise_spec`).  A step of this kind
is `Copied`, a relation that composes.
-/

namespace GheithOS.BitTree

open Lib Store Function

universe u

variable {T : Type u} {S S' : Store T} {L L' : Finset ℕ} {lvl lvl' : ℕ → ℕ} {P R E D : List ℕ} {top : ℕ}
  {n : ℕ} {i : Fin 32}

/-! ### Values -/

/-- The content of the item under the key `k` below `n`. -/
def value (S : Store T) (level n k : ℕ) : Option T := (contents S level n k).map S.item

theorem value_leaf (S : Store T) (n k : ℕ) :
    value S 1 n k = ((S.node n).pointers (getLevelIndex k 1)).map S.item := by
  rw [value, contents_leaf]

theorem value_node (S : Store T) (level n k : ℕ) :
    value S (level + 2) n k =
      ((S.node n).pointers (getLevelIndex k (level + 2))).bind fun c => value S (level + 1) c k := by
  rw [value, contents_node, Option.map_bind]
  rfl

/-! ### A copy of a node -/

/-- One more reference to each node of a list. -/
theorem foldl_addRef (cs : List ℕ) (S : Store T) :
    cs.foldl addRef S =
      { S with node := fun m => { S.node m with refCount := (S.node m).refCount + cs.count m } } := by
  induction cs generalizing S with
  | nil => rfl
  | cons c cs ih =>
    rw [List.foldl_cons, ih]
    simp only [addRef, setNode, update_apply, Store.mk.injEq, and_self, and_true]
    funext m
    by_cases hm : m = c
    · subst hm
      simp only [ite_true, List.count_cons_self]
      congr 1
      omega
    · rw [if_neg hm, List.count_cons_of_ne (Ne.symm hm)]

theorem copyNode_eq (S : Store T) (n : ℕ) (isLastLevel : Bool) :
    S.copyNode n isLastLevel = ({ S with node := fun m => { S.node m with
      refCount := (S.node m).refCount + if isLastLevel then 0 else hits (slots S n) m } },
      { S.node n with refCount := 1 }) := by
  unfold copyNode
  simp only [Prod.mk.injEq, and_true]
  cases isLastLevel with
  | true =>
    rw [foldl_targets (slots S n) (g := fun S _ => S)
      (fun S' i (h : (S.node n).pointers i = none) => by simp [h])
      (fun S' i c (h : (S.node n).pointers i = some c) => by simp [h])]
    generalize targets (slots S n) = cs
    induction cs with
    | nil => simp
    | cons c cs ih => exact ih
  | false =>
    rw [foldl_targets (slots S n) (g := addRef) (fun S' i (h : (S.node n).pointers i = none) => by simp [h])
      (fun S' i c (h : (S.node n).pointers i = some c) => by simp [h]), foldl_addRef]
    simp only [count_targets, Bool.false_eq_true, ite_false]

/-- What one round of `copyItems` does. -/
def copyItem (n : ℕ) (S : Store T) (i : Fin 32) : Store T :=
  match (S.node n).pointers i with
  | some x => (S.newItem (S.item x)).1.setPtr n i (some S.next)
  | none => S

/-- The slots `is` of the node `n` hold copies of their items, in new objects. -/
structure ItemsCopied (S S' : Store T) (n : ℕ) (is : List (Fin 32)) : Prop where
  next : S.next ≤ S'.next
  node : ∀ m, m ≠ n → S'.node m = S.node m
  here : (S'.node n).refCount = (S.node n).refCount ∧ (S'.node n).presentBits = (S.node n).presentBits
  rest : ∀ i, i ∉ is → (S'.node n).pointers i = (S.node n).pointers i
  none : ∀ i ∈ is, (S.node n).pointers i = none → (S'.node n).pointers i = none
  some : ∀ i ∈ is, ∀ x, (S.node n).pointers i = some x → ∃ y, (S'.node n).pointers i = some y ∧
    S.next ≤ y ∧ y < S'.next ∧ S'.item y = S.item x
  item : ∀ z < S.next, S'.item z = S.item z
  newItems : S'.newItems = (is.filterMap (slots S' n)).reverse ++ S.newItems
  nodup : (is.filterMap (slots S' n)).Nodup
  logs : S'.newNodes = S.newNodes ∧ S'.deletedNodes = S.deletedNodes ∧ S'.deletedItems = S.deletedItems

theorem copyItem_some {x : ℕ} (hx : (S.node n).pointers i = some x) :
    copyItem n S i = (S.newItem (S.item x)).1.setPtr n i (some S.next) := by
  rw [copyItem, hx]

theorem copyItem_spec : ∀ (is : List (Fin 32)) (S : Store T), is.Nodup →
    (∀ i ∈ is, ∀ x, (S.node n).pointers i = some x → x < S.next) →
      ItemsCopied S (is.foldl (copyItem n) S) n is
  | [], S, _, _ => ⟨le_rfl, fun _ _ => rfl, ⟨rfl, rfl⟩, fun _ _ => rfl, by simp, by simp,
      fun _ _ => rfl, rfl, .nil, ⟨rfl, rfl, rfl⟩⟩
  | i :: is, S, hnd, hlt => by
    obtain ⟨hi, hnd⟩ := List.nodup_cons.mp hnd
    rw [List.foldl_cons]
    cases hx : (S.node n).pointers i with
    | none =>
      rw [show copyItem n S i = S by rw [copyItem, hx]]
      have H := copyItem_spec is S hnd fun j hj => hlt j (by simp [hj])
      have hi' : slots (is.foldl (copyItem n) S) n i = none := (H.rest i hi).trans hx
      refine ⟨H.next, H.node, H.here, fun j hj => H.rest j (fun h => hj (by simp [h])), ?_, ?_,
        H.item, ?_, ?_, H.logs⟩
      · intro j hj h0
        rcases List.mem_cons.mp hj with rfl | hj
        · exact hi'
        · exact H.none j hj h0
      · intro j hj x hjx
        rcases List.mem_cons.mp hj with rfl | hj
        · simp [hx] at hjx
        · exact H.some j hj x hjx
      · rw [List.filterMap_cons_none hi', H.newItems]
      · rw [List.filterMap_cons_none hi']
        exact H.nodup
    | some x =>
      rw [copyItem_some hx]
      generalize hS₁ : (S.newItem (S.item x)).1.setPtr n i (some S.next) = S₁
      have hnext : S₁.next = S.next + 1 := by rw [← hS₁]; rfl
      have hitem : S₁.item = update S.item S.next (S.item x) := by rw [← hS₁]; rfl
      have hnew : S₁.newItems = S.next :: S.newItems := by rw [← hS₁]; rfl
      have hnode : ∀ m, m ≠ n → S₁.node m = S.node m := fun m hm => by
        rw [← hS₁, setPtr, setNode_node, if_neg hm]
        rfl
      have hrow : (S₁.node n).pointers = update (S.node n).pointers i (some S.next) := by
        rw [← hS₁, setPtr_pointers, if_pos rfl]
        rfl
      have hrest : ∀ j, j ≠ i → (S₁.node n).pointers j = (S.node n).pointers j := fun j hj => by
        rw [hrow, update_of_ne hj]
      have hne : ∀ j ∈ is, j ≠ i := fun j hj h => hi (h ▸ hj)
      have H := copyItem_spec is S₁ hnd fun j hj y hy => by
        rw [hrest j (hne j hj)] at hy
        have := hlt j (by simp [hj]) y hy
        omega
      have hi' : slots (is.foldl (copyItem n) S₁) n i = some S.next := by
        have := H.rest i hi
        rw [hrow, update_self] at this
        exact this
      have hitem₁ : ∀ z < S.next, S₁.item z = S.item z := fun z hz => by
        rw [hitem, update_of_ne (by omega)]
      have hn1 := H.next
      refine ⟨by omega, fun m hm => (H.node m hm).trans (hnode m hm), ?_, ?_, ?_, ?_, ?_, ?_, ?_, ?_⟩
      · rw [H.here.1, H.here.2, ← hS₁, setPtr_refCount, setPtr_presentBits]
        exact ⟨rfl, rfl⟩
      · intro j hj
        simp only [List.mem_cons, not_or] at hj
        rw [H.rest j hj.2, hrest j hj.1]
      · intro j hj h0
        rcases List.mem_cons.mp hj with rfl | hj
        · simp [hx] at h0
        · exact H.none j hj ((hrest j (hne j hj)).trans h0)
      · intro j hj y hy
        rcases List.mem_cons.mp hj with rfl | hj
        · obtain rfl : x = y := Option.some.inj (hx.symm.trans hy)
          refine ⟨S.next, hi', le_rfl, by omega, ?_⟩
          rw [H.item _ (by omega), hitem, update_self]
        · obtain ⟨z, hz, h1, h2, h3⟩ := H.some j hj y ((hrest j (hne j hj)).trans hy)
          exact ⟨z, hz, by omega, h2, h3.trans (hitem₁ y (hlt j (by simp [hj]) y hy))⟩
      · exact fun z hz => (H.item z (by omega)).trans (hitem₁ z hz)
      · rw [List.filterMap_cons_some hi', H.newItems, hnew]
        simp
      · rw [List.filterMap_cons_some hi', List.nodup_cons]
        refine ⟨fun hm => ?_, H.nodup⟩
        -- later copies lie above
        obtain ⟨j, hj, hjy⟩ := List.mem_filterMap.mp hm
        cases hy : (S₁.node n).pointers j with
        | none =>
          have : slots (is.foldl (copyItem n) S₁) n j = none := H.none j hj hy
          simp [this] at hjy
        | some y =>
          obtain ⟨z, hz, h1, -⟩ := H.some j hj y hy
          have hzs : z = S.next := Option.some.inj (hz.symm.trans hjy)
          omega
      · rw [H.logs.1, H.logs.2.1, H.logs.2.2, ← hS₁]
        exact ⟨rfl, rfl, rfl⟩

theorem copyItems_spec (h : ∀ i x, (S.node n).pointers i = some x → x < S.next) :
    ItemsCopied S (S.copyItems n) n (List.finRange 32) :=
  copyItem_spec (List.finRange 32) S (List.nodup_finRange 32) fun i _ => h i

/-- The store after the copying, before the slot is redirected. -/
def copyOf (S : Store T) (level n : ℕ) : Store T :=
  let S₁ := S.decRef n
  let S₂ := ((S₁.copyNode n (level == 1)).1.newNode (S₁.copyNode n (level == 1)).2).1
  if level = 1 then S₂.copyItems S.next else S₂

theorem copyOnWrite_of_lt (level : ℕ) (nodeRef : NodeRef) (h : 1 < (S.node n).refCount) :
    S.copyOnWrite level nodeRef n = ((copyOf S level n).writeRef nodeRef S.next, S.next) := by
  rw [copyOnWrite, if_pos h]
  simp only [copyOf, copyNode_eq]
  rfl

/-- `S.next` is a copy of the node `n` of the given level; a leaf has copied its items, another node
shares its children. -/
structure IsCopy (S S' : Store T) (level n : ℕ) : Prop where
  next : S.next < S'.next
  old : ∀ m < S.next, S'.node m = { S.node m with
    refCount := (if m = n then (S.node n).refCount - 1 else (S.node m).refCount) +
      if level = 1 then 0 else hits (slots S n) m }
  here : (S'.node S.next).refCount = 1 ∧ (S'.node S.next).presentBits = (S.node n).presentBits
  inner : level ≠ 1 → (S'.node S.next).pointers = (S.node n).pointers ∧ S'.newItems = S.newItems
  none : ∀ i, (S.node n).pointers i = none → (S'.node S.next).pointers i = none
  leaf : level = 1 → ∀ i x, (S.node n).pointers i = some x → ∃ y, (S'.node S.next).pointers i = some y ∧
    S.next < y ∧ y < S'.next ∧ S'.item y = S.item x
  item : ∀ z < S.next, S'.item z = S.item z
  newItems : level = 1 → S'.newItems = (targets (slots S' S.next)).reverse ++ S.newItems ∧
    (targets (slots S' S.next)).Nodup
  logs : S'.newNodes = S.next :: S.newNodes ∧ S'.deletedNodes = S.deletedNodes ∧
      S'.deletedItems = S.deletedItems

/-- The new node of `copyOf`, before a leaf copies its items. -/
theorem newNode_copy {S₂ : Store T} (level : ℕ)
    (hS₂ : (((S.decRef n).copyNode n (level == 1)).1.newNode
      ((S.decRef n).copyNode n (level == 1)).2).1 = S₂) :
    S₂.next = S.next + 1 ∧
    (∀ m, S₂.node m = if m = S.next then { S.node n with refCount := 1 } else { S.node m with
      refCount := (if m = n then (S.node n).refCount - 1 else (S.node m).refCount) +
        if level = 1 then 0 else hits (slots S n) m }) ∧
    S₂.item = S.item ∧ S₂.newItems = S.newItems ∧ S₂.newNodes = S.next :: S.newNodes ∧
      S₂.deletedNodes = S.deletedNodes ∧ S₂.deletedItems = S.deletedItems := by
  have hrow : slots (S.decRef n) n = slots S n := by simp [slots, decRef]
  refine ⟨?_, fun m => ?_, ?_⟩
  · rw [← hS₂, copyNode_eq]
    rfl
  · rw [← hS₂, newNode_node, copyNode_eq, hrow]
    simp only [decRef, setNode_next, setNode_node, ite_true, beq_iff_eq]
    split
    · rfl
    · split
      · rename_i h
        rw [h]
      · rfl
  · rw [← hS₂, copyNode_eq]
    exact ⟨rfl, rfl, rfl, rfl, rfl⟩

theorem copyOf_spec (level : ℕ)
    (ht : ∀ i x, (S.node n).pointers i = some x → x < S.next) : IsCopy S (copyOf S level n) level n := by
  -- the node as it is copied
  generalize hS₂ : (((S.decRef n).copyNode n (level == 1)).1.newNode
      ((S.decRef n).copyNode n (level == 1)).2).1 = S₂
  obtain ⟨hnext, hnode, hlogs⟩ := newNode_copy level hS₂
  have hcopy : S₂.node S.next = { S.node n with refCount := 1 } := by rw [hnode, if_pos rfl]
  have hold : ∀ m < S.next, S₂.node m = { S.node m with
      refCount := (if m = n then (S.node n).refCount - 1 else (S.node m).refCount) +
        if level = 1 then 0 else hits (slots S n) m } := fun m hm => by rw [hnode, if_neg (by omega)]
  have hS' : copyOf S level n = if level = 1 then S₂.copyItems S.next else S₂ := by rw [← hS₂]; rfl
  rw [hS']
  by_cases h1 : level = 1
  · rw [if_pos h1]
    have H := copyItems_spec (S := S₂) (n := S.next) fun i x hx => by
      rw [hcopy] at hx
      have := ht i x hx
      omega
    have hH := H.next
    refine ⟨by omega, ?_, ?_, fun h => absurd h1 h, ?_, ?_, ?_, ?_, ?_⟩
    · intro m hm
      rw [H.node m (by omega), hold m hm]
    · rw [H.here.1, H.here.2, hcopy]
      exact ⟨rfl, rfl⟩
    · intro i hi
      exact H.none i (List.mem_finRange i) (by rw [hcopy]; exact hi)
    · intro _ i x hx
      obtain ⟨y, h2, h3, h4, h5⟩ := H.some i (List.mem_finRange i) x (by rw [hcopy]; exact hx)
      exact ⟨y, h2, by omega, h4, by rw [h5, hlogs.1]⟩
    · intro z hz
      rw [H.item z (by omega), hlogs.1]
    · intro _
      rw [H.newItems, hlogs.2.1]
      exact ⟨rfl, H.nodup⟩
    · rw [H.logs.1, H.logs.2.1, H.logs.2.2]
      exact hlogs.2.2
  · rw [if_neg h1]
    refine ⟨by omega, hold, by rw [hcopy]; exact ⟨rfl, rfl⟩, fun _ => ⟨by rw [hcopy], hlogs.2.1⟩,
      ?_, fun h => absurd h h1, fun z _ => by rw [hlogs.1], fun h => absurd h h1, hlogs.2.2⟩
    intro i hi
    rw [hcopy]
    exact hi

/-! ### Stores with the same values -/

/-- `S'` has the live nodes of `S` with the same values, and perhaps more; nothing was released. -/
structure Copied (S S' : Store T) (L L' : Finset ℕ) (lvl lvl' : ℕ → ℕ) (R : List ℕ) (top : ℕ) : Prop where
  good : Good S' L' lvl' [] R top
  full : Full S L R [] → Full S' L' R []
  logged : Logged S L R [] → Logged S' L' R []
  items : ∀ held, Items S L [] held → Items S' L' [] held
  sub : L ⊆ L'
  levels : ∀ m ∈ L, lvl' m = lvl m
  values : ∀ m ∈ L, ∀ k, value S' (lvl m) m k = value S (lvl m) m k
  next : S.next ≤ S'.next
  item : ∀ z < S.next, S'.item z = S.item z

theorem Copied.refl (G : Good S L lvl [] R top) : Copied S S L L lvl lvl R top :=
  ⟨G, id, id, fun _ => id, Finset.Subset.refl L, fun _ _ => rfl, fun _ _ _ => rfl, le_rfl, fun _ _ => rfl⟩

theorem Copied.trans {S₁ : Store T} {L₁ : Finset ℕ} {lvl₁ : ℕ → ℕ} (h₁ : Copied S S₁ L L₁ lvl lvl₁ R top)
    (h₂ : Copied S₁ S' L₁ L' lvl₁ lvl' R top) : Copied S S' L L' lvl lvl' R top := by
  refine ⟨h₂.good, fun h => h₂.full (h₁.full h), fun h => h₂.logged (h₁.logged h),
    fun a h => h₂.items a (h₁.items a h), h₁.sub.trans h₂.sub,
      fun m hm => (h₂.levels m (h₁.sub hm)).trans (h₁.levels m hm), ?_, h₁.next.trans h₂.next, ?_⟩
  · intro m hm k
    have := h₂.values m (h₁.sub hm) k
    rw [h₁.levels m hm] at this
    exact this.trans (h₁.values m hm k)
  · exact fun z hz => (h₂.item z (lt_of_lt_of_le hz h₁.next)).trans (h₁.item z hz)

/-- The invariant is about the nodes and the bound of the addresses only. -/
theorem Good.of_node_eq (G : Good S L lvl P R top) (hnode : S'.node = S.node)
    (hnext : S'.next = S.next) : Good S' L lvl P R top := by
  have hslots : slots S' = slots S := by
    unfold slots
    rw [hnode]
  obtain ⟨h1, h2, h3, h4, h5, h6, h7, h8, h9⟩ := G
  refine ⟨?_, h2, ?_, ?_, ?_, ?_, ?_, ?_, ?_⟩
  · rwa [hnext]
  · rwa [hnode]
  · rwa [hnode, hnext]
  · rwa [hnode]
  · rwa [hnode]
  · rwa [hnext]
  · rwa [hnode]
  · unfold refsTo
    rwa [hnode, hslots]

theorem setBit_of_present (h : (S.node n).presentBits.getLsbD i = true) : S.setBit n i = S := by
  have hb : (S.node n).presentBits ||| 1#32 <<< i.val = (S.node n).presentBits := by
    apply BitVec.eq_of_getLsbD_eq
    intro j hj
    rw [BitVec.getLsbD_or, getLsbD_one_shiftLeft i ⟨j, hj⟩]
    by_cases hij : (⟨j, hj⟩ : Fin 32) = i
    · subst hij
      simp [h]
    · simp [hij]
  unfold setBit setNode
  rw [hb]
  simp

section CopyOnWrite

variable {level p : ℕ} {j : Fin 32}

/-- Where the slot `j` of `p` holds a shared node `n`, the slot is redirected to a copy. -/
theorem Good.redirect (G : Good S L lvl [] R top) (hp : p ∈ L) (hpl : lvl p = level + 1) (hl : 1 ≤ level)
    (hj : (S.node p).pointers j = some n) (hc : 1 < (S.node n).refCount) (H : IsCopy S S' level n) :
    Good (S'.setPtr p j (some S.next)) (insert S.next L) (update lvl S.next level) [] R top := by
  obtain ⟨hn, hnl⟩ := G.child p hp j n hj (by omega)
  have hlt : ∀ {m : ℕ}, m ∈ L → m < S.next := fun hm => G.fresh _ hm
  have hfresh : S.next ∉ L := fun h => absurd (hlt h) (lt_irrefl _)
  have hnext := H.next
  have hpn : p ≠ n := by rintro rfl; omega
  have hn0 : ¬ ∃ i, (S.node n).pointers i = some n := by
    rintro ⟨i, hi⟩
    by_cases h2 : 2 ≤ lvl n
    · have := (G.child n hn i n hi h2).2
      omega
    · exact G.leaf n hn i n hi (by omega) hn
  have hnn : hits (slots S n) n = 0 := hits_eq_zero.mpr fun i hi => hn0 ⟨i, hi⟩
  have hnode_n : S'.node n = { S.node n with refCount := (S.node n).refCount - 1 } := by
    rw [H.old n (hlt hn), if_pos rfl, hnn]
    simp
  -- the children as the copy has them
  have hslot : ∀ i x, (S'.node S.next).pointers i = some x → (2 ≤ level → (S.node n).pointers i = some x) ∧
      (level = 1 → S.next < x ∧ x < S'.next) := by
    intro i x hx
    refine ⟨fun h2 => ?_, fun h1 => ?_⟩
    · rwa [(H.inner (by omega)).1] at hx
    · cases hy : (S.node n).pointers i with
      | none => simp [H.none i hy] at hx
      | some y =>
        obtain ⟨z, hz, h2, h3, -⟩ := H.leaf h1 i y hy
        obtain rfl : z = x := Option.some.inj (hz.symm.trans hx)
        exact ⟨h2, h3⟩
  have hhits : ∀ c ∈ L, hits (slots S' S.next) c = if level = 1 then 0 else hits (slots S n) c := by
    intro c hcL
    by_cases h1 : level = 1
    · rw [if_pos h1]
      refine hits_eq_zero.mpr fun i hi => ?_
      have := ((hslot i c hi).2 h1).1
      have := hlt hcL
      omega
    · rw [if_neg h1]
      unfold slots
      rw [(H.inner h1).1]
  -- first the copy, with the count of `n` still as it was
  have G₁ : Good (S'.addRef n) (insert S.next L) (update lvl S.next level) [S.next] R top := by
    have hcopy : (S'.addRef n).node S.next = S'.node S.next := by
      unfold addRef
      rw [setNode_node, if_neg (by have := hlt hn; omega)]
    have hrow : slots (S'.addRef n) S.next = slots S' S.next := by
      unfold slots
      rw [hcopy]
    refine G.addNode hfresh (by simp) (G.refs_fresh le_rfl) (le_of_lt hnext) hnext
      ⟨hl, by have := (G.level p hp).2; omega⟩ ?_ ?_ ?_ ?_ ?_
    · intro c hcL
      rw [hrow, hhits c hcL]
      unfold addRef
      rw [setNode_node]
      by_cases hcn : c = n
      · subst hcn
        rw [if_pos rfl, hnode_n, hnn]
        refine ⟨rfl, rfl, ?_⟩
        simp only [ite_self, Nat.add_zero]
        omega
      · rw [if_neg hcn, H.old c (hlt hcL), if_neg hcn]
        exact ⟨rfl, rfl, rfl⟩
    · intro r hr
      obtain ⟨hrL, hrl, -⟩ := G.root r hr
      rw [hrow, hhits r hrL]
      split
      · rfl
      · refine hits_eq_zero.mpr fun i hi => G.child_not_root hn hi ?_ hr
        omega
    · intro i
      rw [hcopy, H.here.2, G.bits n hn]
      cases hx : (S.node n).pointers i with
      | none => rw [H.none i hx]
      | some x =>
        by_cases h1 : level = 1
        · obtain ⟨y, hy, -⟩ := H.leaf h1 i x hx
          rw [hy]
          rfl
        · rw [(H.inner h1).1, hx]
    · rw [hcopy]
      exact H.here.1
    · intro i c hi
      rw [hcopy] at hi
      obtain ⟨g1, g2⟩ := hslot i c hi
      by_cases h1 : level = 1
      · have := g2 h1
        refine ⟨this.2, by omega, fun h => by omega, fun _ h => ?_⟩
        have := hlt h
        omega
      · have hci := g1 (by omega)
        obtain ⟨hcL, hcl⟩ := G.child n hn i c hci (by omega)
        have := hlt hcL
        exact ⟨by show c < S'.next; omega, by omega, fun _ => ⟨hcL, by omega⟩, fun h => absurd h h1⟩
  have hpS : (S'.addRef n).node p = S'.node p := by
    unfold addRef
    rw [setNode_node, if_neg hpn]
  have hp0 : hits (slots S n) p = 0 ∨ level = 1 := by
    by_cases h1 : level = 1
    · exact .inr h1
    · refine .inl (hits_eq_zero.mpr fun i hi => ?_)
      have := (G.child n hn i p hi (by omega)).2
      omega
  have hpS' : S'.node p = S.node p := by
    rw [H.old p (hlt hp), if_neg hpn]
    rcases hp0 with h0 | h1
    · rw [h0]
      simp
    · simp [h1]
  have hlvl : ∀ m ∈ L, update lvl S.next level m = lvl m := fun m hm =>
    update_of_ne (by have := hlt hm; omega) _ _
  -- then the slot, and at last the reference that it held
  have G₂ : Good ((S'.addRef n).writeSlot p j (some S.next)) (insert S.next L)
      (update lvl S.next level) [n] R top := by
    refine G₁.writeNode (Finset.mem_insert_of_mem hp) (by rw [hlvl p hp]; omega) ?_ ?_ ?_ ?_
    · rintro c hc
      obtain rfl : S.next = c := by simpa using hc
      exact ⟨Finset.mem_insert_self _ _, by rw [update_self, hlvl p hp, hpl]⟩
    · intro c hc
      rw [List.mem_singleton.mp hc]
      exact (hlt hn).trans hnext
    · intro r hr h
      rw [List.mem_singleton.mp h] at hr
      exact G.child_not_root hp hj (by omega) hr
    · intro c _
      rw [hpS, hpS', hj]
      simp only [List.count_singleton, beq_iff_eq, Option.some.injEq]
      omega
  have hnR : n ∉ R := G.child_not_root hp hj (by omega)
  have G₃ := G₂.dropRef (Finset.mem_insert_of_mem hn) hnR (by
    rw [writeSlot_refCount]
    unfold addRef
    rw [setNode_node, if_pos rfl, hnode_n]
    simp only
    omega)
  refine G₃.of_node_eq (funext fun m => ?_) rfl
  have hbit : ((S'.addRef n).node p).presentBits.getLsbD j = true := by
    rw [hpS, hpS', G.bits p hp, hj]
    rfl
  unfold writeSlot
  rw [if_pos (by simp), setBit_of_present hbit]
  unfold decRef setPtr addRef
  simp only [setNode_node]
  by_cases hmn : m = n
  · subst hmn
    simp [Ne.symm hpn]
  · by_cases hmp : m = p
    · subst hmp
      simp [hmn]
    · simp [hmn, hmp]

/-- The rows of the live nodes after a slot was redirected. -/
theorem IsCopy.pointers (H : IsCopy S S' level n) (G : Good S L lvl P R top) {m : ℕ} (hm : m ∈ L) :
    ((S'.setPtr p j (some S.next)).node m).pointers =
      if m = p then update (S.node p).pointers j (some S.next) else (S.node m).pointers := by
  have h : ∀ m ∈ L, (S'.node m).pointers = (S.node m).pointers := fun m hm => by rw [H.old m (G.fresh m hm)]
  rw [setPtr_pointers]
  split
  · rename_i hmp
    rw [← hmp, h m hm]
  · exact h m hm

theorem Good.copy_row (G : Good S L lvl P R top) (hp : p ∈ L) (x : Option ℕ) :
    slots (S'.setPtr p j x) S.next = slots S' S.next := by
  unfold slots
  rw [setPtr_pointers, if_neg (by have := G.fresh p hp; omega)]

theorem IsCopy.refsTo_eq (H : IsCopy S S' level n) (G : Good S L lvl P R top) (hp : p ∈ L)
    (hj : (S.node p).pointers j = some n) {x : ℕ} (hxn : x ≠ n) (hx : x ≠ S.next) :
    refsTo (S'.setPtr p j (some S.next)) (insert S.next L) x = hits (slots S' S.next) x + refsTo S L x := by
  have hfresh : S.next ∉ L := fun h => absurd (G.fresh _ h) (lt_irrefl _)
  have hwrite : refs L (update (slots S) p (update (slots S p) j (some S.next))) x +
      (if slots S p j = some x then 1 else 0) =
        refs L (slots S) x + (if some S.next = some x then 1 else 0) :=
    refs_write hp j (some S.next)
  have hslots : ∀ m ∈ L, slots (S'.setPtr p j (some S.next)) m =
      update (slots S) p (update (slots S p) j (some S.next)) m := by
    intro m hm
    rw [update_apply]
    exact H.pointers G hm
  rw [show slots S p j = some n from hj, if_neg (by simpa using Ne.symm hxn),
    if_neg (by simpa using Ne.symm hx)] at hwrite
  unfold refsTo
  rw [refs_insert hfresh, G.copy_row hp, refs_congr hslots]
  omega

theorem IsCopy.items (H : IsCopy S S' level n) (G : Good S L lvl [] R top) (hp : p ∈ L)
    (hpl : lvl p = level + 1) (hl : 1 ≤ level) (hj : (S.node p).pointers j = some n) {held : List ℕ}
    (I : Items S L [] held) : Items (S'.setPtr p j (some S.next)) (insert S.next L) [] held := by
  obtain ⟨hn, hnl⟩ := G.child p hp j n hj (by omega)
  have hnext := H.next
  have hlogs : (S'.setPtr p j (some S.next)).newItems = S'.newItems ∧
      (S'.setPtr p j (some S.next)).deletedItems = S.deletedItems ∧
      (S'.setPtr p j (some S.next)).next = S'.next :=
    ⟨rfl, H.logs.2.2, rfl⟩
  have hold : ∀ x ∈ S.newItems, x < S.next := fun x hx => (I.fresh x hx).1
  -- the new items, none for an inner node
  obtain ⟨ys, hys, hnd, hlt, hcount⟩ : ∃ ys : List ℕ, S'.newItems = ys ++ S.newItems ∧ ys.Nodup ∧
      (∀ y ∈ ys, S.next < y ∧ y < S'.next) ∧ ∀ x, x ∉ L → hits (slots S' S.next) x = ys.count x := by
    by_cases h1 : level = 1
    · refine ⟨_, (H.newItems h1).1, List.nodup_reverse.mpr (H.newItems h1).2, ?_, fun x _ => ?_⟩
      · intro y hy
        obtain ⟨i, hi⟩ := mem_targets.mp (List.mem_reverse.mp hy)
        cases hx : (S.node n).pointers i with
        | none => simp [slots, H.none i hx] at hi
        | some x =>
          obtain ⟨z, hz, h2, h3, -⟩ := H.leaf h1 i x hx
          obtain rfl : z = y := Option.some.inj (hz.symm.trans hi)
          exact ⟨h2, h3⟩
      · rw [List.count_reverse, count_targets]
    · refine ⟨[], by simpa using (H.inner h1).2, .nil, by simp, fun x hx => ?_⟩
      rw [List.count_nil]
      refine hits_eq_zero.mpr fun i hi => hx ?_
      unfold slots at hi
      rw [(H.inner h1).1] at hi
      exact (G.child n hn i x hi (by omega)).1
  have hapart : ∀ x ∈ ys, x ∉ S.newItems := fun x hx h => by
    have := hold x h
    have := (hlt x hx).1
    omega
  refine ⟨?_, ?_, ?_, ?_, ?_⟩
  · intro x hx
    rw [hlogs.1, hys] at hx
    rw [hlogs.2.2, Finset.mem_insert, not_or]
    rcases List.mem_append.mp hx with hx | hx
    · obtain ⟨h1, h2⟩ := hlt x hx
      exact ⟨h2, by omega, fun h => by have := G.fresh x h; omega⟩
    · obtain ⟨h1, h2⟩ := I.fresh x hx
      exact ⟨by omega, by omega, h2⟩
  · rw [hlogs.1, hlogs.2.1, hys]
    exact ⟨List.nodup_append'.mpr ⟨hnd, I.nodup.1, fun x hx h => hapart x hx h⟩, I.nodup.2⟩
  · rw [hlogs.1, hlogs.2.1, hys]
    exact fun x hx => ⟨List.mem_append_right _ (I.deleted x hx).1, (I.deleted x hx).2⟩
  · rw [hlogs.1, hys]
    exact fun x hx => List.mem_append_right _ (I.client x hx)
  · intro x hx
    rw [Finset.mem_insert, not_or] at hx
    have h0 := I.stored x hx.2
    rw [H.refsTo_eq G hp hj (show x ≠ n from fun h => hx.2 (h ▸ hn)) hx.1, hcount x hx.2, hlogs.1,
      hlogs.2.1, hys]
    rw [List.count_nil] at h0 ⊢
    simp only [List.mem_append]
    by_cases hxy : x ∈ ys
    · have h1 : x ∉ S.newItems := hapart x hxy
      have h2 : x ∉ S.deletedItems := fun h => h1 (I.deleted x h).1
      have h3 : x ∉ held := fun h => h1 (I.client x h)
      rw [List.count_eq_one_of_mem hnd hxy, if_pos ⟨.inl hxy, h2, h3⟩]
      rw [if_neg (fun h => h1 h.1)] at h0
      omega
    · rw [List.count_eq_zero.mpr hxy]
      simp only [hxy, false_or]
      omega

theorem IsCopy.values (H : IsCopy S S' level n) (G : Good S L lvl [] R top) (hp : p ∈ L)
    (hpl : lvl p = level + 1) (hl : 1 ≤ level) (hj : (S.node p).pointers j = some n) :
    (∀ k, value (S'.setPtr p j (some S.next)) level S.next k = value S level n k) ∧
    ∀ l, ∀ m ∈ L, lvl m = l → ∀ k, value (S'.setPtr p j (some S.next)) l m k = value S l m k := by
  obtain ⟨hn, hnl⟩ := G.child p hp j n hj (by omega)
  have hitem : ∀ z < S.next, (S'.setPtr p j (some S.next)).item z = S.item z := H.item
  -- below the redirected slot nothing has changed
  have hbelow : ∀ l ≤ level, ∀ m ∈ L, lvl m = l → ∀ k,
      value (S'.setPtr p j (some S.next)) l m k = value S l m k := by
    intro l hle m hm hml k
    have hsame : ∀ m ∈ L, lvl m ≤ level →
        ((S'.setPtr p j (some S.next)).node m).pointers = (S.node m).pointers := by
      intro m hm hml
      rw [H.pointers G hm, if_neg (by rintro rfl; omega)]
    unfold value
    rw [contents_congr G hsame hle hm hml]
    cases hx : contents S l m k with
    | none => rfl
    | some x => rw [Option.map_some, Option.map_some, hitem x (G.contents_not_live hm hml hx).2]
  have hcopy : ∀ k, value (S'.setPtr p j (some S.next)) level S.next k = value S level n k := by
    intro k
    have hrow : ((S'.setPtr p j (some S.next)).node S.next).pointers = (S'.node S.next).pointers :=
      G.copy_row hp _
    obtain ⟨l, rfl⟩ : ∃ l, level = l + 1 := ⟨level - 1, by omega⟩
    cases l with
    | zero =>
      rw [value_leaf, value_leaf, hrow]
      cases hx : (S.node n).pointers (getLevelIndex k 1) with
      | none => rw [H.none _ hx, Option.map_none, Option.map_none]
      | some x =>
        obtain ⟨y, hy, -, -, h5⟩ := H.leaf rfl _ x hx
        rw [hy, Option.map_some, Option.map_some]
        exact congrArg some h5
    | succ l =>
      rw [value_node, value_node, hrow, (H.inner (by omega)).1]
      cases hx : (S.node n).pointers (getLevelIndex k (l + 2)) with
      | none => rfl
      | some c =>
        obtain ⟨hcL, hcl⟩ := G.child n hn _ c hx (by omega)
        exact hbelow (l + 1) (by omega) c hcL (by omega) k
  refine ⟨hcopy, fun l => ?_⟩
  induction l with
  | zero =>
    intro m hm h0
    have := (G.level m hm).1
    omega
  | succ l ih =>
    intro m hm hml k
    by_cases hle : l + 1 ≤ level
    · exact hbelow (l + 1) hle m hm hml k
    obtain ⟨l, rfl⟩ : ∃ l', l = l' + 1 := ⟨l - 1, by omega⟩
    rw [value_node, value_node, H.pointers G hm]
    have hchild : ∀ i,
        ((S.node m).pointers i).bind (fun c => value (S'.setPtr p j (some S.next)) (l + 1) c k) =
        ((S.node m).pointers i).bind fun c => value S (l + 1) c k := by
      intro i
      cases hx : (S.node m).pointers i with
      | none => rfl
      | some c =>
        obtain ⟨hcL, hcl⟩ := G.child m hm i c hx (by omega)
        exact ih c hcL (by omega) k
    by_cases hmp : m = p
    · subst hmp
      rw [if_pos rfl]
      by_cases hk : getLevelIndex k (l + 2) = j
      · obtain rfl : level = l + 1 := by omega
        rw [hk, update_self, hj, Option.bind_some, Option.bind_some, hcopy]
      · rw [update_of_ne hk, hchild]
    · rw [if_neg hmp, hchild]

theorem IsCopy.copied (H : IsCopy S S' level n) (G : Good S L lvl [] R top) (hp : p ∈ L)
    (hpl : lvl p = level + 1) (hl : 1 ≤ level) (hj : (S.node p).pointers j = some n)
    (hc : 1 < (S.node n).refCount) :
    Copied S (S'.setPtr p j (some S.next)) L (insert S.next L) lvl (update lvl S.next level) R top := by
  obtain ⟨hn, hnl⟩ := G.child p hp j n hj (by omega)
  have hnext := H.next
  refine ⟨G.redirect hp hpl hl hj hc H, ?_, ?_, fun held I => H.items G hp hpl hl hj I,
    Finset.subset_insert _ _, ?_, fun m hm k => (H.values G hp hpl hl hj).2 (lvl m) m hm rfl k,
      le_of_lt hnext, H.item⟩
  · intro hF c hcL hcR _
    rw [setPtr_presentBits]
    rcases Finset.mem_insert.mp hcL with rfl | hcL
    · rw [H.here.2]
      exact hF n hn (G.child_not_root hp hj (by omega)) (by simp)
    · rw [H.old c (G.fresh c hcL)]
      exact hF c hcL hcR (by simp)
  · intro hlog
    exact hlog.addNode (fun r hr => G.fresh r (G.root r hr).1) H.logs.1 H.logs.2.1 hnext
  · exact fun m hm => update_of_ne (by have := G.fresh m hm; omega) _ _

end CopyOnWrite

/-! ### A private path -/

/-- `get_entry_ref` has come through `nodeRef` to the node `n` of the given level. -/
def RefOk (S : Store T) (L : Finset ℕ) (lvl : ℕ → ℕ) (R : List ℕ) (root level n : ℕ) : NodeRef → Prop
  | .rootNode => n = root ∧ root ∈ R
  | .slot p j => p ∈ L ∧ lvl p = level + 1 ∧ (S.node p).pointers j = some n

section Path

variable {root level : ℕ} {nodeRef : NodeRef}

theorem RefOk.deref (h : RefOk S L lvl R root level n nodeRef) : S.deref root nodeRef = some n := by
  cases nodeRef with
  | rootNode => rw [h.1]; rfl
  | slot p j => exact h.2.2

theorem writeRef_self (h : RefOk S L lvl R root level n nodeRef) : S.writeRef nodeRef n = S := by
  cases nodeRef with
  | rootNode => rfl
  | slot p j =>
    have hp : (S.node p).pointers j = some n := h.2.2
    simp only [writeRef, setPtr, setNode]
    rw [← hp]
    simp

theorem writeRef_node_congr {A B : Store T} {m : ℕ} (h : A.node m = B.node m) (nodeRef : NodeRef)
    (x : ℕ) : (A.writeRef nodeRef x).node m = (B.writeRef nodeRef x).node m := by
  cases nodeRef with
  | rootNode => exact h
  | slot p j =>
    simp only [writeRef, setPtr, setNode_node]
    split
    · rename_i hmp
      rw [← hmp, h]
    · exact h

/-- **One step of the copying.** -/
theorem copyOnWrite_spec (G : Good S L lvl [] R top) (hn : n ∈ L) (hl : lvl n = level)
    (hl1 : 1 ≤ level) (href : RefOk S L lvl R root level n nodeRef) :
    ∃ S' n' L' lvl', S.copyOnWrite level nodeRef n = (S', n') ∧ Copied S S' L L' lvl lvl' R top ∧ n' ∈ L' ∧
      lvl' n' = level ∧ (S'.node n').refCount ≤ 1 ∧ RefOk S' L' lvl' R root level n' nodeRef ∧
      ∀ m ∈ L, level < lvl m → S'.node m = (S.writeRef nodeRef n').node m := by
  by_cases h1 : (S.node n).refCount ≤ 1
  · refine ⟨S, n, L, lvl, copyOnWrite_of_le level nodeRef h1, Copied.refl G, hn, hl, h1, href,
      fun m _ _ => ?_⟩
    rw [writeRef_self href]
  · have h1 : 1 < (S.node n).refCount := by omega
    cases nodeRef with
    | rootNode =>
      have := (G.root root href.2).2.2.1
      rw [href.1] at h1
      omega
    | slot p j =>
      obtain ⟨hp, hpl, hj⟩ := href
      have H := copyOf_spec (S := S) (n := n) level fun i x hx => G.target n hn i x hx
      have C := H.copied G hp hpl hl1 hj h1
      have hpne : S.next ≠ p := by have := G.fresh p hp; omega
      refine ⟨_, _, _, _, copyOnWrite_of_lt level _ h1, C, Finset.mem_insert_self _ _,
        update_self _ _ _, ?_, ?_, ?_⟩
      · rw [writeRef, setPtr_refCount, H.here.1]
      · refine ⟨Finset.mem_insert_of_mem hp, by rw [update_of_ne (Ne.symm hpne), hpl], ?_⟩
        rw [writeRef, setPtr_pointers, if_pos rfl, update_self]
      · intro m hm hml
        refine writeRef_node_congr ?_ _ _
        rw [H.old m (G.fresh m hm), if_neg (by rintro rfl; omega)]
        have h0 : (if level = 1 then 0 else hits (slots S n) m) = 0 := by
          split
          · rfl
          · refine hits_eq_zero.mpr fun i hi => ?_
            have := (G.child n hn i m hi (by omega)).2
            omega
        rw [h0]
        rfl

/-- The copying of a whole path, ahead of everything else that `get_entry_ref` does. -/
def privatise (root index : ℕ) : ℕ → NodeRef → Store T → Store T
  | 0, _, S => S
  | level + 1, nodeRef, S =>
    match S.deref root nodeRef with
    | none => S
    | some node =>
      let (S, node) := S.copyOnWrite (level + 1) nodeRef node
      if level = 0 then S else privatise root index level (.slot node (getLevelIndex index (level + 1))) S

theorem getEntryRef_edit {index : ℕ} {action : GetEntryAction} (ha : action ≠ .lookup)
    (hd : S.deref root nodeRef = some n) {S₁ : Store T} {n₁ : ℕ}
    (hcow : S.copyOnWrite (level + 2) nodeRef n = (S₁, n₁)) :
    S.getEntryRef root index action (level + 2) nodeRef =
      let i := getLevelIndex index (level + 2)
      if (S₁.node n₁).pointers i = none ∧ action ≠ .insert then (S₁, none)
      else
        let S₂ := if (S₁.node n₁).pointers i = none then S₁.addChild n₁ i else S₁
        let r := S₂.getEntryRef root index action (level + 1) (.slot n₁ i)
        (if action = .delete then r.1.prune root (level + 1) n₁ i else r.1, r.2) := by
  rw [getEntryRef, hd]
  simp only [ha, ne_eq, not_false_eq_true, ite_true, hcow, Nat.add_eq_zero_iff, one_ne_zero,
    and_false, ite_false]

/-- **Privatising the path first** changes no value and nothing of what `get_entry_ref` does
afterwards. -/
theorem privatise_spec (root index : ℕ) :
    ∀ {level n : ℕ} {nodeRef : NodeRef} {S : Store T} {L : Finset ℕ} {lvl : ℕ → ℕ},
    Good S L lvl [] R top → n ∈ L → lvl n = level + 1 → RefOk S L lvl R root (level + 1) n nodeRef →
    ∃ n' L' lvl', Copied S (privatise root index (level + 1) nodeRef S) L L' lvl lvl' R top ∧ n' ∈ L' ∧
      lvl' n' = level + 1 ∧ (privatise root index (level + 1) nodeRef S).deref root nodeRef = some n' ∧
      ((privatise root index (level + 1) nodeRef S).node n').refCount ≤ 1 ∧
      PrivPath (privatise root index (level + 1) nodeRef S) index (level + 1) n' ∧
      (∀ m ∈ L, level + 1 < lvl m →
        (privatise root index (level + 1) nodeRef S).node m = (S.writeRef nodeRef n').node m) ∧
      ∀ action ≠ .lookup, S.getEntryRef root index action (level + 1) nodeRef =
        (privatise root index (level + 1) nodeRef S).getEntryRef root index action (level + 1) nodeRef
  | 0, n, nodeRef, S, L, lvl, G, hn, hl, href => by
    obtain ⟨S₁, n₁, L₁, lvl₁, hcow, C, hn₁, hl₁, h1, href₁, hframe⟩ :=
      copyOnWrite_spec G hn hl (by omega) href
    have hS : privatise root index 1 nodeRef S = S₁ := by
      rw [privatise, href.deref]
      simp only [hcow, ite_true]
    rw [hS]
    refine ⟨n₁, L₁, lvl₁, C, hn₁, hl₁, href₁.deref, h1, fun h => absurd rfl h, hframe, fun action ha => ?_⟩
    rw [getEntryRef, getEntryRef, href.deref, href₁.deref]
    simp only [ha, ne_eq, not_false_eq_true, ite_true, hcow, copyOnWrite_of_le _ _ h1]
  | level + 1, n, nodeRef, S, L, lvl, G, hn, hl, href => by
    obtain ⟨S₁, n₁, L₁, lvl₁, hcow, C, hn₁, hl₁, h1, href₁, hframe⟩ :=
      copyOnWrite_spec G hn hl (by omega) href
    have hS : privatise root index (level + 2) nodeRef S =
        privatise root index (level + 1) (.slot n₁ (getLevelIndex index (level + 2))) S₁ := by
      rw [privatise, href.deref]
      simp only [hcow, Nat.add_eq_zero_iff, one_ne_zero, and_false, ite_false]
    cases hc : (S₁.node n₁).pointers (getLevelIndex index (level + 2)) with
    | none =>
      -- the path ends here
      have hS' : privatise root index (level + 2) nodeRef S = S₁ := by
        rw [hS, privatise]
        simp only [deref, hc]
      rw [hS']
      refine ⟨n₁, L₁, lvl₁, C, hn₁, hl₁, href₁.deref, h1, fun _ c h => ?_, hframe, fun action ha => ?_⟩
      · rw [hc] at h
        simp at h
      · rw [getEntryRef_edit ha href.deref hcow, getEntryRef_edit ha href₁.deref (copyOnWrite_of_le _ _ h1)]
    | some c =>
      obtain ⟨hcL, hcl⟩ := C.good.child n₁ hn₁ _ c hc (by omega)
      have hcref : RefOk S₁ L₁ lvl₁ R root (level + 1) c (.slot n₁ (getLevelIndex index (level + 2))) :=
        ⟨hn₁, by omega, hc⟩
      obtain ⟨c', L₂, lvl₂, C₂, hc', hcl', hd', h1', hpriv, hframe₂, heq⟩ :=
        privatise_spec root index C.good hcL (show lvl₁ c = level + 1 by omega) hcref
      rw [hS]
      generalize privatise root index (level + 1) (.slot n₁ (getLevelIndex index (level + 2))) S₁ = S₂ at *
      have hnode : ∀ m ∈ L₁, level + 1 < lvl₁ m → m ≠ n₁ → S₂.node m = S₁.node m := by
        intro m hm hml hmn
        rw [hframe₂ m hm hml, writeRef, setPtr, setNode_node, if_neg hmn]
      have hrefs : (S₂.node n₁).refCount = (S₁.node n₁).refCount := by
        rw [hframe₂ n₁ hn₁ (by omega), writeRef, setPtr_refCount]
      have hslot : (S₂.node n₁).pointers (getLevelIndex index (level + 2)) = some c' := hd'
      have hderef : S₂.deref root nodeRef = some n₁ := by
        cases nodeRef with
        | rootNode => exact href₁.deref
        | slot p j =>
          obtain ⟨hp, hpl, hj⟩ := href₁
          rw [deref, hnode p hp (by omega) (by rintro rfl; omega)]
          exact hj
      refine ⟨n₁, L₂, lvl₂, C.trans C₂, C₂.sub hn₁, by rw [C₂.levels n₁ hn₁, hl₁], hderef,
        by omega, ?_, ?_, ?_⟩
      · intro _ d hd
        obtain rfl : c' = d := Option.some.inj (hslot.symm.trans hd)
        exact ⟨h1', hpriv⟩
      · intro m hm hml
        rw [hnode m (C.sub hm) (by rw [C.levels m hm]; omega) ?_, hframe m hm hml]
        rintro rfl
        have := C.levels m hm
        omega
      · intro action ha
        rw [getEntryRef_edit ha href.deref hcow,
          getEntryRef_edit ha hderef (copyOnWrite_of_le _ _ (by omega : (S₂.node n₁).refCount ≤ 1))]
        simp only [hc, hslot, reduceCtorEq, false_and, ite_false, heq action ha]

end Path

end GheithOS.BitTree
