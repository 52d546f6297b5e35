import GheithOS.BitTree.Moves

/-!
# GheithOS.BitTree.Edit — editing a path that is not shared

`put root index v level n S` sets the entry of `index` below `n` to `v` and returns the old one: the
recursion of `get_entry_ref` together with the store to the slot it returns, without the copying.
`put_spec`: on a path whose nodes have one reference each it updates the contents of `n` and of no
other node of its level, and keeps the invariants.
-/

namespace GheithOS.BitTree

open Lib Store Function

universe u

variable {T : Type u} {S S' : Store T} {L L' : Finset ℕ} {lvl lvl' : ℕ → ℕ} {P R E D : List ℕ} {top : ℕ}
  {n : ℕ} {i : Fin 32}

/-! ### Adding a child -/

theorem addChild_eq (S : Store T) (n : ℕ) (i : Fin 32) :
    S.addChild n i = (S.newNode .empty).1.writeSlot n i (some S.next) := rfl

theorem newNode_node (S : Store T) (v : BitTreeNode) (m : ℕ) :
    (S.newNode v).1.node m = if m = S.next then v else S.node m := by
  simp [newNode]

theorem addChild_node_of_ne (S : Store T) (i : Fin 32) {n m : ℕ} (hm : m ≠ n) (hf : m ≠ S.next) :
    (S.addChild n i).node m = S.node m := by
  rw [addChild_eq, writeSlot_node_of_ne _ _ _ hm, newNode_node, if_neg hf]

/-- A node that is not live yet has no references. -/
theorem Good.refs_fresh (G : Good S L lvl P R top) {m : ℕ} (hm : S.next ≤ m) : refsTo S L m = 0 :=
  refs_eq_zero.mpr fun n hn i hi => absurd (G.target n hn i m hi) (by omega)

theorem Good.addChild {l : ℕ} (G : Good S L lvl [] R top) (hn : n ∈ L) (hl : 1 ≤ l)
    (hln : lvl n = l + 1) (h0 : (S.node n).pointers i = none) :
    Good (S.addChild n i) (insert S.next L) (update lvl S.next l) [] R top := by
  have hfresh : S.next ∉ L := fun h => absurd (G.fresh _ h) (lt_irrefl _)
  have hne : ∀ c ∈ L, c ≠ S.next := fun c hc h => hfresh (h ▸ hc)
  have hempty : slots (S.newNode .empty).1 S.next = fun _ => none := by
    simp [slots, newNode_node, BitTreeNode.empty]
  have htop := G.level n hn
  have G₁ : Good (S.newNode .empty).1 (insert S.next L) (update lvl S.next l) [S.next] R top := by
    refine G.addNode hfresh (by simp) (G.refs_fresh le_rfl) (Nat.le_succ _) (Nat.lt_succ_self _)
      ⟨hl, by omega⟩ ?_ ?_ ?_ ?_ ?_
    · intro c hc
      rw [newNode_node, if_neg (hne c hc), hempty, hits_none]
      exact ⟨rfl, rfl, rfl⟩
    · intro r _
      rw [hempty, hits_none]
    · intro j
      rw [newNode_node, if_pos rfl]
      simp [BitTreeNode.empty]
    · rw [newNode_node, if_pos rfl]
      rfl
    · intro j c hc
      rw [newNode_node, if_pos rfl] at hc
      simp [BitTreeNode.empty] at hc
  have hlvl : update lvl S.next l n = l + 1 := by rw [update_of_ne (hne n hn), hln]
  rw [addChild_eq]
  refine G₁.writeNode (Finset.mem_insert_of_mem hn) (by omega) ?_ (by simp) (by simp) ?_
  · rintro c hc
    obtain rfl : S.next = c := by simpa using hc
    exact ⟨Finset.mem_insert_self _ _, by rw [update_self, hlvl]⟩
  · intro c _
    rw [newNode_node, if_neg (hne n hn), h0]
    simp [List.count_singleton]

theorem refsTo_addChild (G : Good S L lvl [] R top) (hn : n ∈ L) (h0 : (S.node n).pointers i = none)
    {x : ℕ} (hx : x ≠ S.next) : refsTo (S.addChild n i) (insert S.next L) x = refsTo S L x := by
  have hfresh : S.next ∉ L := fun h => absurd (G.fresh _ h) (lt_irrefl _)
  have hne : ∀ c ∈ L, c ≠ S.next := fun c hc h => hfresh (h ▸ hc)
  have h1 := refsTo_writeSlot (S := (S.newNode .empty).1)
    (Finset.mem_insert_of_mem hn : n ∈ insert S.next L) i (some S.next) x
  rw [newNode_node, if_neg (hne n hn), h0, if_neg (by simp), if_neg (by simpa using Ne.symm hx)] at h1
  rw [addChild_eq, show refsTo ((S.newNode .empty).1.writeSlot n i (some S.next)) (insert S.next L) x =
    refsTo (S.newNode .empty).1 (insert S.next L) x by simpa using h1]
  unfold refsTo
  rw [refs_insert hfresh, show slots (S.newNode .empty).1 S.next = fun _ => none by
    simp [slots, newNode_node, BitTreeNode.empty], hits_none, Nat.zero_add]
  exact refs_congr fun m hm => by simp [slots, newNode_node, hne m hm]

theorem Logged.addNode (h : Logged S L R D) (hR : ∀ r ∈ R, r < S.next)
    (hnew : S'.newNodes = S.next :: S.newNodes) (hdel : S'.deletedNodes = S.deletedNodes)
    (hnext : S.next < S'.next) : Logged S' (insert S.next L) R D := by
  have hfresh : S.next ∉ S.newNodes := fun hc => absurd (h.fresh _ hc) (lt_irrefl _)
  refine ⟨?_, ?_, ?_, ?_, ?_⟩
  · rw [hnew]
    intro m hm
    rcases List.mem_cons.mp hm with rfl | hm
    · exact hnext
    · exact (h.fresh m hm).trans hnext
  · rw [hnew, hdel]
    exact ⟨List.nodup_cons.mpr ⟨hfresh, h.nodup.1⟩, h.nodup.2⟩
  · rw [hnew, hdel]
    exact fun m hm => List.mem_cons_of_mem _ (h.deleted m hm)
  · intro m
    rw [hnew, hdel, Finset.mem_insert, List.mem_cons]
    by_cases hm : m = S.next
    · subst hm
      have h1 : S.next ∉ R := fun hc => absurd (hR _ hc) (lt_irrefl _)
      have h2 : S.next ∉ S.deletedNodes := fun hc => hfresh (h.deleted _ hc)
      simp [h1, h2]
    · simpa [hm] using h.live m
  · intro m hm h1
    rcases Finset.mem_insert.mp h1 with rfl | h1
    · exact hfresh ((h.live _).mp (.inr hm)).1
    · exact h.apart m hm h1

theorem Logged.addChild (h : Logged S L R D) (hR : ∀ r ∈ R, r < S.next) :
    Logged (S.addChild n i) (insert S.next L) R D :=
  h.addNode hR rfl rfl (Nat.lt_succ_self _)

/-! ### Releasing an empty child -/

theorem free_of_empty {c : ℕ} (freeData : Bool) (l : ℕ) (h1 : (S.node c).refCount = 1)
    (h0 : l = 0 ∧ freeData = false ∨ ∀ j, (S.node c).pointers j = none) :
    S.free freeData (l + 1) c = (true, S.decRef c) := by
  have hcount : ((S.decRef c).node c).refCount = 0 := by simp [decRef, h1]
  have hptr : ((S.decRef c).node c).pointers = (S.node c).pointers := by simp [decRef]
  rw [Store.free]
  simp only [hcount, lt_irrefl, ite_false, Prod.mk.injEq, true_and]
  -- no slot has anything to release
  refine List.foldl_fixed' (fun j => ?_) _
  rw [hptr]
  rcases h0 with ⟨rfl, rfl⟩ | h0
  · cases (S.node c).pointers j <;> simp
  · simp [h0 j]

theorem prune_eq {root l c : ℕ} (hc : (S.node n).pointers i = some c) (hcn : c ≠ n)
    (hroot : c ≠ root) (h1 : (S.node c).refCount = 1) (hb : (S.node c).presentBits = 0)
    (h0 : l = 0 ∨ ∀ j, (S.node c).pointers j = none) :
    S.prune root (l + 1) n i = ((S.writeSlot n i none).decRef c).deleteNode c := by
  have hcl : (S.clearBit n i).node c = S.node c := by simp [clearBit, hcn]
  have hfree : (S.clearBit n i).free false (l + 1) c = (true, (S.clearBit n i).decRef c) := by
    refine free_of_empty false l (by rw [hcl, h1]) ?_
    rw [hcl]
    exact h0.imp_left fun h => ⟨h, rfl⟩
  unfold prune
  rw [hc]
  simp only [hb, ite_true, freeNode, hfree, ne_eq, hroot, not_false_eq_true]
  unfold writeSlot
  simp only [Option.isSome_none, Bool.false_eq_true, ite_false]
  have hnode : ∀ m, ((((S.clearBit n i).decRef c).deleteNode c).setPtr n i none).node m =
      ((((S.clearBit n i).setPtr n i none).decRef c).deleteNode c).node m := by
    intro m
    simp only [setPtr, decRef, deleteNode, setNode_node]
    by_cases hmn : m = n
    · subst hmn
      simp [Ne.symm hcn]
    · by_cases hmc : m = c
      · subst hmc
        simp [hmn]
      · simp [hmn, hmc]
  exact congrArg (fun f =>
    ({ ((((S.clearBit n i).setPtr n i none).decRef c).deleteNode c) with node := f } : Store T))
    (funext hnode)

theorem decRef_deleteNode_node (S : Store T) {c m : ℕ} (h : m ≠ c) :
    ((S.decRef c).deleteNode c).node m = S.node m := by
  simp [decRef, deleteNode, h]

theorem Good.dropChild {c : ℕ} (G : Good S L lvl [] R top) (hn : n ∈ L) (h2 : 2 ≤ lvl n)
    (hc : (S.node n).pointers i = some c) (h1 : (S.node c).refCount = 1) (hb : (S.node c).presentBits = 0) :
    Good (((S.writeSlot n i none).decRef c).deleteNode c) (L.erase c) lvl [] R top ∧
      (∀ x, x ≠ c → refsTo (((S.writeSlot n i none).decRef c).deleteNode c) (L.erase c) x = refsTo S L x) ∧
      refsTo (((S.writeSlot n i none).decRef c).deleteNode c) (L.erase c) c = 0 := by
  obtain ⟨hcL, hcl⟩ := G.child n hn i c hc h2
  have hcR := G.child_not_root hn hc h2
  have hcn : c ≠ n := by
    rintro rfl
    omega
  have hcrow : slots (S.writeSlot n i none) c = fun _ => none := by
    funext j
    rw [slots, writeSlot_node_of_ne _ _ _ hcn]
    exact G.eq_none hcL hb j
  -- the reference is taken out of its slot, then dropped
  have G₁ : Good (S.writeSlot n i none) L lvl [c] R top := by
    refine G.writeNode hn h2 (by simp) (by simpa using G.fresh c hcL) ?_ ?_
    · intro r hr hm
      obtain rfl : r = c := by simpa using hm
      exact hcR hr
    · intro d _
      rw [hc]
      simp [List.count_singleton]
  have G₂ := G₁.retire hcL hcR (by simpa using h1)
  rw [hcrow, show targets (fun _ : Fin 32 => (none : Option ℕ)) ++ [] = [] by simp [targets_eq_nil]] at G₂
  have G₃ : Good (((S.writeSlot n i none).decRef c).deleteNode c) (L.erase c) lvl [] R top :=
    ⟨G₂.fresh, G₂.level, G₂.bits, G₂.target, G₂.child, G₂.leaf, G₂.pending, G₂.root, G₂.count⟩
  have hrefs : ∀ x, refsTo (((S.writeSlot n i none).decRef c).deleteNode c) (L.erase c) x +
      (if c = x then 1 else 0) = refsTo S L x := by
    intro x
    have hw := refsTo_writeSlot (S := S) hn i none x
    rw [hc, if_neg (show ¬ (none = some x) by simp)] at hw
    have he : hits (slots (S.writeSlot n i none) c) x + refs (L.erase c) (slots (S.writeSlot n i none)) x =
        refs L (slots (S.writeSlot n i none)) x := refs_erase hcL
    rw [hcrow, hits_none] at he
    have hcongr : refsTo (((S.writeSlot n i none).decRef c).deleteNode c) (L.erase c) x =
        refs (L.erase c) (slots (S.writeSlot n i none)) x :=
      refs_congr fun m hm => by
        unfold slots
        rw [decRef_deleteNode_node _ (Finset.ne_of_mem_erase hm)]
    simp only [Option.some.injEq] at hw
    unfold refsTo at *
    omega
  refine ⟨G₃, fun x hx => ?_, ?_⟩
  · have := hrefs x
    rwa [if_neg (Ne.symm hx)] at this
  · have h3 := hrefs c
    have h4 := (G.count c hcL hcR).1
    rw [if_pos rfl] at h3
    rw [List.count_nil, h1] at h4
    omega

theorem Logged.dropChild {c : ℕ} (h : Logged S L R D) (hc : c ∈ L) (hcR : c ∉ R) :
    Logged (((S.writeSlot n i none).decRef c).deleteNode c) (L.erase c) R D := by
  have hlogs : (((S.writeSlot n i none).decRef c).deleteNode c).newNodes = S.newNodes ∧
      (((S.writeSlot n i none).decRef c).deleteNode c).deletedNodes = c :: S.deletedNodes ∧
      (((S.writeSlot n i none).decRef c).deleteNode c).next = S.next := ⟨rfl, rfl, rfl⟩
  obtain ⟨hcnew, hcdel⟩ := (h.live c).mp (.inl ⟨hc, hcR⟩)
  refine ⟨?_, ?_, ?_, ?_, fun m hm h1 => h.apart m hm (Finset.mem_of_mem_erase h1)⟩
  · rw [hlogs.1, hlogs.2.2]
    exact h.fresh
  · rw [hlogs.1, hlogs.2.1]
    exact ⟨h.nodup.1, List.nodup_cons.mpr ⟨hcdel, h.nodup.2⟩⟩
  · rw [hlogs.1, hlogs.2.1]
    intro m hm
    rcases List.mem_cons.mp hm with rfl | hm
    · exact hcnew
    · exact h.deleted m hm
  · intro m
    rw [hlogs.1, hlogs.2.1, Finset.mem_erase, List.mem_cons]
    by_cases hm : m = c
    · subst hm
      simpa using fun hd => h.apart m hd hc
    · simpa [hm] using h.live m

/-! ### The edit -/

/-- `get_entry_ref` and the store to the slot it finds, on a path that needs no copying. -/
def put (root index : ℕ) (v : Option ℕ) : ℕ → ℕ → Store T → Store T × Option ℕ
  | 0, _, S => (S, none)
  | level + 1, n, S =>
    let i := getLevelIndex index (level + 1)
    if level = 0 then (S.writeSlot n i v, (S.node n).pointers i)
    else if (S.node n).pointers i = none ∧ v = none then (S, none)
    else
      let S := if (S.node n).pointers i = none then S.addChild n i else S
      match (S.node n).pointers i with
      | none => (S, none)
      | some c =>
        let (S, prev) := put root index v level c S
        (if v = none then S.prune root level n i else S, prev)

/-- The nodes below `n` on the path of `index` have one reference each. -/
def PrivPath (S : Store T) (index : ℕ) : ℕ → ℕ → Prop
  | 0, _ => True
  | level + 1, n => level ≠ 0 → ∀ c, (S.node n).pointers (getLevelIndex index (level + 1)) = some c →
    (S.node c).refCount ≤ 1 ∧ PrivPath S index level c

/-- What an edit below `n`, a node of the given level, leaves behind. -/
structure PutResult (S S' : Store T) (L L' : Finset ℕ) (lvl lvl' : ℕ → ℕ) (R : List ℕ)
    (top level n index : ℕ) (v prev : Option ℕ) (E : List ℕ) : Prop where
  good : Good S' L' lvl' [] R top
  full : Full S' L' R E
  nonempty : v ≠ none → (S'.node n).presentBits ≠ 0
  logged : Logged S L R [] → Logged S' L' R []
  above : ∀ m ∈ L, level ≤ lvl m → m ≠ n → m ∈ L' ∧ S'.node m = S.node m
  here : n ∈ L' ∧ (S'.node n).refCount = (S.node n).refCount
  levels : ∀ m ∈ L, lvl' m = lvl m
  new : ∀ m ∈ L', m ∈ L ∨ S.next ≤ m
  next : S.next ≤ S'.next
  items : S'.item = S.item ∧ S'.newItems = S.newItems ∧ S'.deletedItems = S.deletedItems
  result : prev = contents S level n index
  updated : ∀ k, contents S' level n k = if k % 32 ^ level = index % 32 ^ level then v
      else contents S level n k
  frame : ∀ m ∈ L, lvl m = level → m ≠ n → contents S' level m = contents S level m
  refs : ∀ x, x ∉ L → x ∉ L' →
    refsTo S' L' x + (if prev = some x then 1 else 0) = refsTo S L x + (if v = some x then 1 else 0)
  dead : ∀ x ∈ L, x ∉ L' → refsTo S' L' x = 0
  counts : ∀ m ∈ L', (S'.node m).refCount = if m ∈ L then (S.node m).refCount else 1

theorem same_key_iff (level k index : ℕ) : k % 32 ^ (level + 1) = index % 32 ^ (level + 1) ↔
    getLevelIndex k (level + 1) = getLevelIndex index (level + 1) ∧
    k % 32 ^ level = index % 32 ^ level := by
  rw [Fin.ext_iff, getLevelIndex_val, getLevelIndex_val, Nat.pow_succ]
  constructor
  · intro h
    constructor
    · have := congrArg (· / 32 ^ level) h
      simpa only [Nat.mod_mul_right_div_self] using this
    · have := congrArg (· % 32 ^ level) h
      simpa only [Nat.mod_mul_right_mod] using this
  · rintro ⟨h1, h2⟩
    rw [Nat.mod_mul, Nat.mod_mul, h1, h2]

theorem put_leaf {root index : ℕ} {v : Option ℕ} (G : Good S L lvl [] R top) (hF : Full S L R [n])
    (hn : n ∈ L) (hl : lvl n = 1) (hv : ∀ x, v = some x → x ∉ L ∧ x < S.next) :
    PutResult S (put root index v 1 n S).1 L L lvl lvl R top 1 n index v
      (put root index v 1 n S).2 [n] := by
  simp only [put, Nat.zero_add, ite_true]
  generalize hi : getLevelIndex index 1 = i
  have hother : ∀ m, m ≠ n → (S.writeSlot n i v).node m = S.node m :=
    fun m hm => writeSlot_node_of_ne _ _ _ hm
  refine ⟨G.writeLeaf hn hl hv, ?_, ?_, ?_, ?_, ⟨hn, by simp⟩, fun _ _ => rfl, fun m hm => .inl hm, by simp,
    by simp, ?_, ?_, ?_, ?_, fun x h1 h2 => absurd h1 h2, fun m hm => by rw [writeSlot_refCount, if_pos hm]⟩
  · intro c hc hcR hcn
    simp only [List.mem_singleton] at hcn
    rw [hother c hcn]
    exact hF c hc hcR (by simpa using hcn)
  · intro hne
    rw [presentBits_ne_zero_iff]
    refine ⟨i, ?_⟩
    rw [writeSlot_bit, if_pos ⟨rfl, rfl⟩]
    exact Option.isSome_iff_ne_none.mpr hne
  · intro h
    obtain ⟨h1, h2, -, -⟩ := writeSlot_logs S n i v
    refine ⟨?_, ?_, ?_, ?_, h.apart⟩
    · rw [h1, writeSlot_next]
      exact h.fresh
    · rw [h1, h2]
      exact h.nodup
    · rw [h1, h2]
      exact h.deleted
    · rw [h1, h2]
      exact h.live
  · exact fun m hm _ hne => ⟨hm, hother m hne⟩
  · rw [contents_leaf, hi]
  · intro k
    have hk : k % 32 ^ 1 = index % 32 ^ 1 ↔ getLevelIndex k 1 = i := by
      rw [same_key_iff 0, hi]
      simp [Nat.mod_one]
    simp only [contents_leaf, writeSlot_pointers, ite_true, update_apply, hk]
  · intro m _ _ hne
    funext k
    rw [contents_leaf, contents_leaf, hother m hne]
  · intro x _ _
    exact refsTo_writeSlot hn i v x

/-- `S₁` is `S` with a child of `n` on the path to `index`, a new one if there was none. -/
structure ChildAt (S S₁ : Store T) (L L₁ : Finset ℕ) (lvl lvl₁ : ℕ → ℕ) (R : List ℕ)
    (top index level n c : ℕ) : Prop where
  good : Good S₁ L₁ lvl₁ [] R top
  full : Full S₁ L₁ R [c]
  logged : Logged S L R [] → Logged S₁ L₁ R []
  slot : (S₁.node n).pointers (getLevelIndex index (level + 2)) = some c
  single : (S₁.node c).refCount ≤ 1
  path : PrivPath S₁ index (level + 1) c
  old : ∀ m ∈ L, m ∈ L₁ ∧ lvl₁ m = lvl m ∧ (m ≠ n → S₁.node m = S.node m)
  row : ∀ j, j ≠ getLevelIndex index (level + 2) → (S₁.node n).pointers j = (S.node n).pointers j
  count : (S₁.node n).refCount = (S.node n).refCount
  new : ∀ m ∈ L₁, m ∈ L ∨ S.next ≤ m
  next : S.next ≤ S₁.next
  items : S₁.item = S.item ∧ S₁.newItems = S.newItems ∧ S₁.deletedItems = S.deletedItems
  below : ∀ k, contents S₁ (level + 1) c k =
    ((S.node n).pointers (getLevelIndex index (level + 2))).bind fun d => contents S (level + 1) d k
  refs : ∀ x, x ∉ L₁ → refsTo S₁ L₁ x = refsTo S L x
  counts : ∀ m ∈ L₁, m ∉ L → (S₁.node m).refCount = 1

theorem descend {index level : ℕ} (G : Good S L lvl [] R top) (hF : Full S L R [n]) (hn : n ∈ L)
    (hl : lvl n = level + 2) (hpriv : PrivPath S index (level + 2) n) :
    ∃ (S₁ : Store T) (L₁ : Finset ℕ) (lvl₁ : ℕ → ℕ) (c : ℕ),
      (if (S.node n).pointers (getLevelIndex index (level + 2)) = none then
        S.addChild n (getLevelIndex index (level + 2)) else S) = S₁ ∧
      ChildAt S S₁ L L₁ lvl lvl₁ R top index level n c := by
  generalize hi : getLevelIndex index (level + 2) = i
  cases h0 : (S.node n).pointers i with
  | some c =>
    -- the child is there
    obtain ⟨hcL, hcl⟩ := G.child n hn i c h0 (by omega)
    have hp := hpriv (by omega) c (by rw [hi]; exact h0)
    refine ⟨S, L, lvl, c, by simp, G, ?_, id, hi ▸ h0, hp.1, hp.2,
      fun m hm => ⟨hm, rfl, fun _ => rfl⟩, fun _ _ => rfl, rfl, fun m hm => .inl hm, le_rfl,
        ⟨rfl, rfl, rfl⟩, fun _ => by rw [hi, h0]; rfl, fun _ _ => rfl,
      fun m h1 h2 => absurd h1 h2⟩
    intro m hm hmR _
    by_cases hmn : m = n
    · subst hmn
      exact G.ne_zero hn h0
    · exact hF m hm hmR (by simpa using hmn)
  | none =>
    have hfresh : S.next ∉ L := fun h => absurd (G.fresh _ h) (lt_irrefl _)
    have hne : ∀ c ∈ L, c ≠ S.next := fun c hc h => hfresh (h ▸ hc)
    have hchild : (S.addChild n i).node S.next = .empty := by
      rw [addChild_eq, writeSlot_node_of_ne _ _ _ (Ne.symm (hne n hn)), newNode_node, if_pos rfl]
    have hptr : ((S.addChild n i).node n).pointers = update (S.node n).pointers i (some S.next) := by
      rw [addChild_eq, writeSlot_pointers, if_pos rfl, newNode_node, if_neg (hne n hn)]
    have G₁ := G.addChild hn (show 1 ≤ level + 1 by omega) hl h0
    refine ⟨S.addChild n i, insert S.next L, update lvl S.next (level + 1), S.next,
      by simp, G₁, ?_, ?_, ?_, ?_, ?_, ?_, ?_, ?_, ?_, Nat.le_succ _, ⟨rfl, rfl, rfl⟩, ?_, ?_, ?_⟩
    · intro m hm hmR hmn
      rcases Finset.mem_insert.mp hm with rfl | hm
      · simp at hmn
      · by_cases hmn : m = n
        · subst hmn
          exact G₁.ne_zero (Finset.mem_insert_of_mem hn) (i := i) (by rw [hptr, update_self])
        · rw [addChild_node_of_ne _ _ hmn (hne m hm)]
          exact hF m hm hmR (by simpa using hmn)
    · exact fun h => h.addChild fun r hr => G.fresh r (G.root r hr).1
    · rw [hi, hptr, update_self]
    · rw [hchild]
      exact le_rfl
    · intro _ c hc
      rw [hchild] at hc
      simp [BitTreeNode.empty] at hc
    · exact fun m hm => ⟨Finset.mem_insert_of_mem hm, update_of_ne (hne m hm) _ _,
        fun hmn => addChild_node_of_ne _ _ hmn (hne m hm)⟩
    · intro j hj
      rw [hptr, update_of_ne (hi ▸ hj)]
    · rw [addChild_eq, writeSlot_refCount, newNode_node, if_neg (hne n hn)]
    · intro m hm
      rcases Finset.mem_insert.mp hm with rfl | hm
      · exact .inr le_rfl
      · exact .inl hm
    · intro k
      simp [contents, hchild, BitTreeNode.empty, hi, h0]
    · intro x hx
      exact refsTo_addChild G hn h0 fun h => hx (by simp [h])
    · intro m hm hmL
      obtain rfl := (Finset.mem_insert.mp hm).resolve_right hmL
      rw [hchild]
      rfl

section Path

variable {S₁ S₂ : Store T} {L₁ L₂ : Finset ℕ} {lvl₁ lvl₂ : ℕ → ℕ} {level c index : ℕ} {v prev : Option ℕ}

theorem ChildAt.live (D : ChildAt S S₁ L L₁ lvl lvl₁ R top index level n c) (hn : n ∈ L)
    (hl : lvl n = level + 2) : c ∈ L₁ ∧ lvl₁ c = level + 1 := by
  obtain ⟨hn₁, hln₁, -⟩ := D.old n hn
  obtain ⟨hcL₁, hcl₁⟩ := D.good.child n hn₁ _ c D.slot (by omega)
  exact ⟨hcL₁, by omega⟩

theorem ChildAt.value (D : ChildAt S S₁ L L₁ lvl lvl₁ R top index level n c)
    (hv : ∀ x, v = some x → x ∉ L ∧ x < S.next) (x : ℕ) (hx : v = some x) : x ∉ L₁ ∧ x < S₁.next := by
  obtain ⟨hxL, hlt⟩ := hv x hx
  refine ⟨fun h => ?_, hlt.trans_le D.next⟩
  rcases D.new x h with h | h
  · exact hxL h
  · omega

/-- The ascent without pruning: an edit of the child on the path is an edit of the node. -/
theorem PutResult.ascend (G : Good S L lvl [] R top) (hn : n ∈ L) (hl : lvl n = level + 2)
    (D : ChildAt S S₁ L L₁ lvl lvl₁ R top index level n c) (hv : ∀ x, v = some x → x ∉ L ∧ x < S.next)
    (H : PutResult S₁ S₂ L₁ L₂ lvl₁ lvl₂ R top (level + 1) c index v prev [c]) :
    PutResult S S₂ L L₂ lvl lvl₂ R top (level + 2) n index v prev [c] ∧ c ∈ L₂ ∧ (S₂.node c).refCount ≤ 1 ∧
      (S₂.node n).pointers (getLevelIndex index (level + 2)) = some c := by
  obtain ⟨hcL₁, hcl₁⟩ := D.live hn hl
  obtain ⟨G₁, -, hlog₁, hc, hc1, -, hold, hrow, hrc, hnew, hnext, hitems, hcc, hrefs, hcounts⟩ := D
  obtain ⟨hn₁, hln₁, -⟩ := hold n hn
  have hcR : c ∉ R := G₁.child_not_root hn₁ hc (by omega)
  have hnc : n ≠ c := by
    rintro rfl
    omega
  obtain ⟨hn₂, hnode⟩ := H.above n hn₁ (by omega) hnc
  -- only the slot on the path refers to the child
  have huniq : ∀ m ∈ L₁, ∀ j, (S₁.node m).pointers j = some c →
      m = n ∧ j = getLevelIndex index (level + 2) :=
    fun m hm j hj => G₁.slot_unique hcL₁ hcR hc1 hm hn₁ hj hc
  -- the subtrees beside the path are as they were
  have hsub : ∀ d ∈ L, lvl d = level + 1 → d ≠ c →
      contents S₂ (level + 1) d = contents S (level + 1) d := by
    intro d hd hdl hdc
    rw [H.frame d (hold d hd).1 (by rw [(hold d hd).2.1, hdl]) hdc]
    refine contents_congr G (fun m hm hml => ?_) le_rfl hd hdl
    rw [(hold m hm).2.2 (by rintro rfl; omega)]
  refine ⟨⟨H.good, H.full, ?_, fun h => H.logged (hlog₁ h), ?_, ⟨hn₂, by rw [hnode, hrc]⟩, ?_, ?_,
    hnext.trans H.next, ?_, ?_, ?_, ?_, ?_, ?_, ?_⟩, H.here.1, ?_, by rw [hnode]; exact hc⟩
  · intro _
    exact H.good.ne_zero hn₂ (i := getLevelIndex index (level + 2)) (by rw [hnode]; exact hc)
  · intro m hm hml hmn
    obtain ⟨h1, h2, h3⟩ := hold m hm
    obtain ⟨h4, h5⟩ := H.above m h1 (by omega) (by rintro rfl; omega)
    exact ⟨h4, h5.trans (h3 hmn)⟩
  · exact fun m hm => (H.levels m (hold m hm).1).trans (hold m hm).2.1
  · intro m hm
    rcases H.new m hm with h | h
    · exact hnew m h
    · exact .inr (hnext.trans h)
  · exact ⟨H.items.1.trans hitems.1, H.items.2.1.trans hitems.2.1, H.items.2.2.trans hitems.2.2⟩
  · rw [H.result, hcc, contents_node]
  · intro k
    rw [contents_node, contents_node, hnode]
    by_cases hk : getLevelIndex k (level + 2) = getLevelIndex index (level + 2)
    · rw [hk, hc, Option.bind_some]
      simp only [H.updated k, hcc k, same_key_iff (level + 1) k index, hk, true_and]
    · rw [if_neg (fun h => hk ((same_key_iff (level + 1) k index).mp h).1), hrow _ hk]
      cases hd : (S.node n).pointers (getLevelIndex k (level + 2)) with
      | none => rfl
      | some d =>
        obtain ⟨hdL, hdl⟩ := G.child n hn _ d hd (by omega)
        refine congrFun (hsub d hdL (by omega) ?_) k
        rintro rfl
        exact hk (huniq n hn₁ _ (by rw [hrow _ hk, hd])).2
  · intro m hm hml hmn
    obtain ⟨h1, h2, h3⟩ := hold m hm
    obtain ⟨-, h5⟩ := H.above m h1 (by omega) (by rintro rfl; omega)
    funext k
    rw [contents_node, contents_node, h5, h3 hmn]
    cases hd : (S.node m).pointers (getLevelIndex k (level + 2)) with
    | none => rfl
    | some d =>
      obtain ⟨hdL, hdl⟩ := G.child m hm _ d hd (by omega)
      refine congrFun (hsub d hdL (by omega) ?_) k
      rintro rfl
      exact hmn (huniq m h1 _ (by rw [h3 hmn, hd])).1
  · intro x hx hx₂
    by_cases hx₁ : x ∈ L₁
    · -- a node added on the way is neither an item nor referred to
      have hfresh := (hnew x hx₁).resolve_left hx
      have h1 : prev ≠ some x :=
        fun h => (G₁.contents_not_live hcL₁ (by omega) (H.result.symm.trans h)).1 hx₁
      have h2 : v ≠ some x := fun h => absurd (hv x h).2 (by omega)
      rw [H.dead x hx₁ hx₂, G.refs_fresh hfresh, if_neg h1, if_neg h2]
    · rw [H.refs x hx₁ hx₂, hrefs x hx₁]
  · intro x hx hx₂
    exact H.dead x (hold x hx).1 hx₂
  · intro m hm
    rw [H.counts m hm]
    by_cases hmL : m ∈ L
    · rw [if_pos (hold m hmL).1, if_pos hmL]
      by_cases hmn : m = n
      · rw [hmn, hrc]
      · rw [(hold m hmL).2.2 hmn]
    · rw [if_neg hmL]
      split
      · exact hcounts m ‹_› hmL
      · rfl
  · rw [H.here.2]
    exact hc1

end Path

/-- **Pruning** an empty child changes no contents. -/
theorem PutResult.prune {root index level c : ℕ} {prev : Option ℕ} (G₀ : Good S L lvl [] R top)
    (hl : lvl n = level + 2) (hn : n ∈ L) (hroot : root ∈ R)
    (H : PutResult S S' L L' lvl lvl' R top (level + 2) n index none prev [c]) (hcL : c ∈ L')
    (hc1 : (S'.node c).refCount ≤ 1)
    (hc : (S'.node n).pointers (getLevelIndex index (level + 2)) = some c) :
    ∃ L₂, PutResult S (S'.prune root (level + 1) n (getLevelIndex index (level + 2)))
      L L₂ lvl lvl' R top (level + 2) n index
      none prev [n] := by
  generalize hi : getLevelIndex index (level + 2) = i at *
  have G := H.good
  have hln : lvl' n = level + 2 := by rw [H.levels n hn, hl]
  have hcR : c ∉ R := G.child_not_root H.here.1 hc (by omega)
  have hcl : lvl' c = level + 1 := by
    have := (G.child n H.here.1 i c hc (by omega)).2
    omega
  have hcn : c ≠ n := by
    rintro rfl
    omega
  by_cases hb : (S'.node c).presentBits = 0
  · have hcount : (S'.node c).refCount = 1 := le_antisymm hc1 (G.count c hcL hcR).2
    have hnone := G.eq_none hcL hb
    rw [prune_eq hc hcn (fun h => hcR (h ▸ hroot)) hcount hb (.inr hnone)]
    obtain ⟨G₂, hrefs, hrefs₀⟩ := G.dropChild H.here.1 (by omega) hc hcount hb
    have hnode : ∀ m, m ≠ n → m ≠ c →
        ((((S'.writeSlot n i none).decRef c).deleteNode c).node m) = S'.node m :=
      fun m hmn hmc => by rw [decRef_deleteNode_node _ hmc, writeSlot_node_of_ne _ _ _ hmn]
    have hnn : (((S'.writeSlot n i none).decRef c).deleteNode c).node n = (S'.writeSlot n i none).node n :=
      decRef_deleteNode_node _ (Ne.symm hcn)
    -- the subtrees of level `level + 1` are as they were
    have hsub : ∀ d ∈ L', lvl' d = level + 1 →
        contents (((S'.writeSlot n i none).decRef c).deleteNode c) (level + 1) d =
          contents S' (level + 1) d := by
      intro d hd hdl
      refine contents_congr G (fun m hm hml => ?_) le_rfl hd hdl
      by_cases hmc : m = c
      · subst hmc
        simp [decRef, deleteNode, hcn]
      · rw [hnode m (by rintro rfl; omega) hmc]
    have hchild : ∀ m ∈ L', lvl' m = level + 2 → ∀ k,
        contents (((S'.writeSlot n i none).decRef c).deleteNode c) (level + 2) m k =
          contents S' (level + 2) m k := by
      intro m hm hml k
      have hbind : ∀ o : Option ℕ, (∀ d, o = some d → d ∈ L' ∧ lvl' d = level + 1) →
          (o.bind fun d => contents (((S'.writeSlot n i none).decRef c).deleteNode c) (level + 1) d k) =
            o.bind fun d => contents S' (level + 1) d k := by
        intro o ho
        cases o with
        | none => rfl
        | some d => exact congrFun (hsub d (ho d rfl).1 (ho d rfl).2) k
      have htarget : ∀ d, (S'.node m).pointers (getLevelIndex k (level + 2)) = some d →
          d ∈ L' ∧ lvl' d = level + 1 :=
        fun d hd => by
          obtain ⟨h1, h2⟩ := G.child m hm _ d hd (by omega)
          exact ⟨h1, by omega⟩
      rw [contents_node, contents_node]
      by_cases hmn : m = n
      · subst hmn
        rw [hnn, writeSlot_pointers, if_pos rfl]
        by_cases hk : getLevelIndex k (level + 2) = i
        · -- the child that goes has nothing under this key
          have h0 : contents S' (level + 1) c k = none := by
            cases level with
            | zero => rw [contents_leaf, hnone]
            | succ level => rw [contents_node, hnone, Option.bind_none]
          rw [hk, update_self, hc, Option.bind_some, Option.bind_none, h0]
        · rw [update_of_ne hk, hbind _ htarget]
      · rw [hnode m hmn (by rintro rfl; omega), hbind _ htarget]
    have hin : ∀ m ∈ L', m ≠ c → m ∈ L'.erase c := fun m hm hmc => Finset.mem_erase.mpr ⟨hmc, hm⟩
    refine ⟨L'.erase c, G₂, ?_, by simp, ?_, ?_, ⟨hin n H.here.1 (Ne.symm hcn), ?_⟩, H.levels, ?_,
      H.next, ?_, H.result, ?_, ?_, ?_, ?_, ?_⟩
    · intro m hm hmR hmn
      have hmc := Finset.ne_of_mem_erase hm
      rw [hnode m (by simpa using hmn) hmc]
      exact H.full m (Finset.mem_of_mem_erase hm) hmR (by simpa using hmc)
    · exact fun h => (H.logged h).dropChild hcL hcR
    · intro m hm hml hmn
      obtain ⟨h1, h2⟩ := H.above m hm hml hmn
      have hmc : m ≠ c := by
        rintro rfl
        have := H.levels m hm
        omega
      exact ⟨hin m h1 hmc, (hnode m hmn hmc).trans h2⟩
    · rw [hnn, writeSlot_refCount]
      exact H.here.2
    · exact fun m hm => H.new m (Finset.mem_of_mem_erase hm)
    · exact H.items
    · intro k
      rw [hchild n H.here.1 hln k, H.updated k]
    · intro m hm hml hmn
      obtain ⟨h1, -⟩ := H.above m hm (by omega) hmn
      funext k
      rw [hchild m h1 (by rw [H.levels m hm, hml]) k, H.frame m hm hml hmn]
    · intro x hx hx₂
      by_cases hxc : x = c
      · subst hxc
        have hfresh := (H.new x hcL).resolve_left hx
        have h1 : prev ≠ some x := fun h =>
          absurd (G₀.contents_not_live hn hl (H.result.symm.trans h)).2 (by omega)
        rw [hrefs₀, G₀.refs_fresh hfresh, if_neg h1, if_neg (by simp)]
      · rw [hrefs x hxc]
        exact H.refs x hx fun h => hx₂ (hin x h hxc)
    · intro x hx hx₂
      by_cases hxc : x = c
      · rw [hxc, hrefs₀]
      · rw [hrefs x hxc]
        exact H.dead x hx fun h => hx₂ (hin x h hxc)
    · intro m hm
      rw [decRef_deleteNode_node _ (Finset.ne_of_mem_erase hm), writeSlot_refCount]
      exact H.counts m (Finset.mem_of_mem_erase hm)
  · have hid : S'.prune root (level + 1) n i = S' := by
      unfold Store.prune
      rw [hc]
      simp only [hb, ite_false]
    rw [hid]
    refine ⟨L', { H with full := ?_ }⟩
    intro m hm hmR _
    by_cases hmc : m = c
    · rw [hmc]
      exact hb
    · exact H.full m hm hmR (by simpa using hmc)

/-- **The edit** of an unshared path. -/
theorem put_spec {root index : ℕ} {v : Option ℕ} :
    ∀ {level n : ℕ} {S : Store T} {L : Finset ℕ} {lvl : ℕ → ℕ},
    Good S L lvl [] R top → Full S L R [n] → n ∈ L → lvl n = level + 1 →
    PrivPath S index (level + 1) n → root ∈ R → (∀ x, v = some x → x ∉ L ∧ x < S.next) →
    ∃ L' lvl', PutResult S (put root index v (level + 1) n S).1 L L' lvl lvl' R top (level + 1) n index v
      (put root index v (level + 1) n S).2 [n]
  | 0, n, S, L, lvl, G, hF, hn, hl, _, _, hv => ⟨L, lvl, put_leaf G hF hn hl hv⟩
  | level + 1, n, S, L, lvl, G, hF, hn, hl, hpriv, hroot, hv => by
    rw [put]
    simp only [Nat.add_eq_zero_iff, one_ne_zero, and_false, ite_false]
    by_cases hnone : (S.node n).pointers (getLevelIndex index (level + 2)) = none ∧ v = none
    · -- nothing to remove
      obtain ⟨h0, rfl⟩ := hnone
      rw [if_pos ⟨h0, rfl⟩]
      refine ⟨L, lvl, G, hF, by simp, id, fun m hm _ _ => ⟨hm, rfl⟩, ⟨hn, rfl⟩, fun _ _ => rfl,
        fun m hm => .inl hm, le_rfl, ⟨rfl, rfl, rfl⟩, ?_, ?_, fun _ _ _ _ => rfl, fun _ _ _ => rfl,
          fun x h1 h2 => absurd h1 h2,
        fun m hm => by rw [if_pos hm]⟩
      · rw [contents_node, h0, Option.bind_none]
      · intro k
        by_cases hk : k % 32 ^ (level + 2) = index % 32 ^ (level + 2)
        · rw [if_pos hk, contents_node, ((same_key_iff (level + 1) k index).mp hk).1, h0, Option.bind_none]
        · rw [if_neg hk]
    · rw [if_neg hnone]
      obtain ⟨S₁, L₁, lvl₁, c, hS₁, D⟩ := descend G hF hn hl hpriv
      rw [hS₁, D.slot]
      obtain ⟨hcL₁, hcl₁⟩ := D.live hn hl
      obtain ⟨L₂, lvl₂, H⟩ := put_spec D.good D.full hcL₁ hcl₁ D.path hroot (D.value hv)
      obtain ⟨H₂, hcL₂, hc2, hslot⟩ := H.ascend G hn hl D hv
      by_cases hvn : v = none
      · subst hvn
        obtain ⟨L₃, H₃⟩ := H₂.prune G hl hn hroot hcL₂ hc2 hslot
        exact ⟨L₃, lvl₂, by simpa using H₃⟩
      · refine ⟨L₂, lvl₂, ?_⟩
        simp only [hvn, ite_false]
        refine { H₂ with full := ?_ }
        intro m hm hmR _
        by_cases hmc : m = c
        · rw [hmc]
          exact H.nonempty hvn
        · exact H₂.full m hm hmR (by simpa using hmc)

end GheithOS.BitTree
