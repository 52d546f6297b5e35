import GheithOS.BitTree.Family
import GheithOS.BitTree.Live

/-!
# GheithOS.BitTree.UseAfterFree — `remove` uses a leaf that it has deleted

Trees are made, copied, edited, cleared, destroyed and asked in any order, and clients store any
pointers.  In every run each operation touches only nodes that exist, with one exception
(`touches_live_iff`): a `remove` that takes the last entry out of a leaf deletes the leaf, and then
reads and clears the slot in it.
-/

namespace GheithOS.BitTree

open Lib Store Function

variable {T : Type} {S S' : Store T} {L L' : Finset ℕ} {lvl lvl' : ℕ → ℕ} {P Q R E : List ℕ} {top : ℕ}
  {n m c t root : ℕ} {i : Fin 32} {p : Params}

/-! ### Lookups -/

theorem Standing.lookup (W : Standing S L lvl P R E top) (index : ℕ) :
    ∀ {level n : ℕ} {nodeRef : NodeRef}, n ∈ L → lvl n = level + 1 →
    RefOk S L lvl R root (level + 1) n nodeRef →
    ∃ r, S.getEntryRef root index .lookup (level + 1) nodeRef = (S, r) ∧
      Checked.getEntryRef root index .lookup (level + 1) nodeRef S = .ok (r, S) ∧
      ∀ m i, r = some (m, i) → m ∈ L
  | 0, n, nodeRef, hn, hl, href => by
    refine ⟨some (n, getLevelIndex index 1), ?_, ?_, fun m i h => ?_⟩
    · rw [getEntryRef, href.deref]
      rfl
    · rw [Checked.getEntryRef, bind_of_eq (W.deref href)]
      rfl
    · cases h
      exact hn
  | level + 1, n, nodeRef, hn, hl, href => by
    have hown : Checked.own .lookup (level + 2) nodeRef n S = .ok (n, S) := rfl
    have hnd := W.live n hn
    rw [checked_getEntryRef_node (W.deref href) hown hnd, getEntryRef, href.deref]
    simp only [ne_eq, not_true_eq_false, ite_false, Nat.add_eq_zero_iff, one_ne_zero, and_false,
      reduceCtorEq, not_false_eq_true, and_true]
    cases hc : (S.node n).pointers (getLevelIndex index (level + 2)) with
    | none => exact ⟨none, rfl, rfl, fun m i h => by cases h⟩
    | some c =>
      obtain ⟨hcL, hcl⟩ := W.child hn (by omega) hc
      obtain ⟨r, hmodel, hchecked, hr⟩ :=
        W.lookup index hcL (by omega) (show RefOk S L lvl R root (level + 1) c
        (.slot n (getLevelIndex index (level + 2))) from ⟨hn, hl, hc⟩)
      have hensure : Checked.ensureChild n (getLevelIndex index (level + 2)) S = .ok ((), S) := by
        unfold Checked.ensureChild
        rw [bind_of_eq (node_live hnd), hc]
        rfl
      refine ⟨r, ?_, ?_, hr⟩
      · simp only [reduceCtorEq, ite_false, hmodel]
      · rw [if_neg (by simp), bind_of_eq hensure, bind_of_eq hchecked]
        rfl

theorem Standing.runQuery (W : Standing S L lvl P R E top) (isFloor : Bool) :
    ∀ (level index : ℕ) {o : Option ℕ},
    (∀ n, o = some n → n ∈ L ∧ lvl n = level) →
    Checked.runQuery isFloor level index o S = .ok (S.runQuery isFloor level index o, S)
  | 0, index, o, _ => by
    cases o <;> rfl
  | level + 1, index, none, _ => rfl
  | level + 1, index, some n, h => by
    obtain ⟨hn, hl⟩ := h n rfl
    have hnd := W.live n hn
    rw [Checked.runQuery, bind_of_eq (node_live hnd), Store.runQuery]
    dsimp only
    generalize computeIndex (S.node n).presentBits (getLevelIndex index (level + 1)) isFloor = q
    by_cases hq : q = 32
    · rw [if_pos hq, if_pos hq]
      rfl
    · rw [if_neg hq, if_neg hq]
      by_cases h0 : level = 0
      · rw [if_pos h0, if_pos h0]
        rfl
      · rw [if_neg h0, if_neg h0]
        have hchild : ∀ (i : Fin 32) (c : ℕ), (S.node n).pointers i = some c →
            c ∈ L ∧ lvl c = level := fun i c hc => by
          obtain ⟨hcL, hcl⟩ := W.child hn (by omega) hc
          exact ⟨hcL, by omega⟩
        have hfirst : ∀ k, Checked.runQuery isFloor level k (Checked.slot (S.node n) q) S =
            .ok (S.runQuery isFloor level k ((S.node n).pointers (Fin.ofNat 32 q)), S) := fun k =>
          W.runQuery isFloor level k (hchild (Fin.ofNat 32 q))
        rw [bind_of_eq (hfirst _)]
        generalize S.runQuery isFloor level _ ((S.node n).pointers (Fin.ofNat 32 q)) = result
        cases result with
        | some x => rfl
        | none =>
          dsimp only
          rw [bind_of_eq (node_live hnd)]
          generalize computeIndex (S.node n).presentBits _ isFloor = q'
          by_cases hq' : q' = 32
          · rw [if_pos hq', if_pos hq']
            rfl
          · rw [if_neg hq', if_neg hq']
            exact W.runQuery isFloor level _ (hchild (Fin.ofNat 32 q'))

/-! ### The slot that was returned -/

theorem exchange_live (hm : m ∉ S.deletedNodes) (i : Fin 32) (item : Option ℕ) :
    Checked.exchange item (some (m, i)) S = .ok ((S.node m).pointers i, S.setPtr m i item) := by
  rw [Checked.exchange, bind_of_eq (node_live hm), bind_of_eq (update_live hm _)]
  rfl

/-- A slot of a leaf, or of a node that is gone, may be written. -/
theorem Standing.setPtr (W : Standing S L lvl P R E top) (hm : m ∈ L → lvl m = 1) (i : Fin 32)
    (x : Option ℕ) : Standing (S.setPtr m i x) L lvl P R E top := by
  refine ⟨W.good.congr (fun n hn => bare_congr rfl (setPtr_refCount _ _ _ _ _) fun h => ?_) le_rfl
    fun _ _ => rfl, fun c hc hcR hcE => ?_, W.live, W.old⟩
  · rw [Store.setPtr, setNode_node, if_neg]
    rintro rfl
    exact h (hm hn)
  · rw [setPtr_presentBits]
    exact W.full c hc hcR hcE

theorem Standing.of_root (W : Standing S L lvl P R [t] top) (ht : t ∈ R) : Standing S L lvl P R [] top :=
  ⟨W.good, fun c hc hcR _ => W.full c hc hcR (by simpa using fun h : c = t => hcR (h ▸ ht)), W.live, W.old⟩

theorem Standing.edit {action : GetEntryAction} (ha : action ≠ .lookup)
    (W : Standing S L lvl [] R [] p.levels) (h2 : 2 ≤ p.levels) (ht : t ∈ R) (k : ℕ) :
    ∃ S' r L' lvl', S.getEntryRef t k action p.levels .rootNode = (S', r) ∧
      Checked.getEntryRef t k action p.levels .rootNode S = .ok (r, S') ∧
      Standing S' L' lvl' [] R [] p.levels ∧ (action = .insert → ∃ n', Inserted S' L' lvl' k n' r) ∧
      (action = .delete → ∃ n', Removed (S.left k p.levels t) S' L' lvl' k p.levels n' r) := by
  obtain ⟨htL, htl, ht1, -⟩ := W.good.root t ht
  rw [bare_refCount] at ht1
  obtain ⟨level, hl⟩ : ∃ level, p.levels = level + 1 := ⟨p.levels - 1, by omega⟩
  obtain ⟨S', r, n', L', lvl', hmodel, hchecked, A, hins, hrem⟩ := editsLive k ha ht level t
    .rootNode S L lvl (W.weaken [t]) (.inr (by omega)) htL (by omega) ⟨rfl, ht⟩
  obtain ⟨rfl, -⟩ := A.ref
  rw [hl]
  exact ⟨S', r, L', lvl', hmodel, hchecked, hl ▸ A.standing.of_root ht, fun h => ⟨_, hins h⟩,
    fun h => ⟨_, hrem h⟩⟩

theorem Standing.insertItem (W : Standing S L lvl [] R [] p.levels) (h2 : 2 ≤ p.levels) (ht : t ∈ R)
    (index : ℕ) (item : Option ℕ) :
    Checked.insert p t index item S = .ok (S.insertPointer p t index item).swap ∧
      ∃ L' lvl', Standing (S.insertPointer p t index item).1 L' lvl' [] R [] p.levels := by
  unfold Checked.insert Checked.entry insertPointer
  cases p.adjustIndex index with
  | none => exact ⟨rfl, L, lvl, W⟩
  | some k =>
    obtain ⟨S', r, L', lvl', hmodel, hchecked, W', hins, -⟩ :=
      W.edit (show GetEntryAction.insert ≠ .lookup by simp) h2 ht k
    obtain ⟨n', -, m, rfl, hm, hml⟩ := hins rfl
    dsimp only
    rw [bind_of_eq hchecked, hmodel, exchange_live (W'.live m hm)]
    exact ⟨rfl, L', lvl', W'.setPtr (fun _ => hml) _ _⟩

/-- **`remove`** uses a deleted leaf if nothing is left in it. -/
theorem Standing.remove (W : Standing S L lvl [] R [] p.levels) (h2 : 2 ≤ p.levels) (ht : t ∈ R)
    (index : ℕ) :
    ((p.adjustIndex index).bind (fun k => S.left k p.levels t) ≠ some 0 →
      Checked.remove p t index S = .ok (S.remove p t index).swap) ∧
    ((p.adjustIndex index).bind (fun k => S.left k p.levels t) = some 0 →
      ∃ leaf, Checked.remove p t index S = .error ⟨leaf⟩) ∧
    ∃ L' lvl', Standing (S.remove p t index).1 L' lvl' [] R [] p.levels := by
  unfold Checked.remove Checked.entry Store.remove
  cases p.adjustIndex index with
  | none => exact ⟨fun _ => rfl, fun h => absurd h (by simp), L, lvl, W⟩
  | some k =>
    obtain ⟨S', r, L', lvl', hmodel, hchecked, W', -, hrem⟩ :=
      W.edit (show GetEntryAction.delete ≠ .lookup by simp) h2 ht k
    obtain ⟨n', H⟩ := hrem rfl
    dsimp only
    rw [bind_of_eq hchecked, hmodel, Option.bind_some]
    cases hleft : S.left k p.levels t with
    | none =>
      obtain rfl := H.absent hleft
      exact ⟨fun _ => rfl, fun h => absurd h (by simp), L', lvl', W'⟩
    | some v =>
      obtain ⟨m, rfl, hgone, hlive, -⟩ := H.entry v hleft
      by_cases hv : v = 0
      · obtain ⟨hd, hmL⟩ := hgone (by omega) hv
        refine ⟨fun h => absurd (congrArg some hv) h, fun _ => ⟨m, ?_⟩, L', lvl',
          W'.setPtr (fun h => absurd h hmL) _ _⟩
        rw [Checked.exchange, bind_of_error (node_gone hd)]
      · obtain ⟨hm, hml⟩ := hlive fun _ => hv
        exact ⟨fun _ => exchange_live (W'.live m hm) _ _,
          fun h => absurd (Option.some_inj.mp h) hv, L', lvl', W'.setPtr (fun _ => hml) _ _⟩

theorem Standing.lookupExact (W : Standing S L lvl [] R [] p.levels) (h2 : 2 ≤ p.levels)
    (ht : t ∈ R) (index : ℕ) :
    Checked.lookupExact p t index S = .ok (S.lookupExact p t index, S) := by
  unfold Checked.lookupExact Checked.entry Store.lookupExact
  cases p.adjustIndex index with
  | none => rfl
  | some k =>
    obtain ⟨htL, htl, -⟩ := W.good.root t ht
    obtain ⟨level, hl⟩ : ∃ level, p.levels = level + 1 := ⟨p.levels - 1, by omega⟩
    have href : RefOk S L lvl R t (level + 1) t .rootNode := ⟨rfl, ht⟩
    obtain ⟨r, hmodel, hchecked, hr⟩ := W.lookup k htL (htl.trans hl) href
    rw [hl]
    dsimp only
    rw [bind_of_eq hchecked, hmodel]
    cases r with
    | none => rfl
    | some mi =>
      obtain ⟨m, i⟩ := mi
      rw [Checked.load, bind_of_eq (node_live (W.live m (hr m i rfl)))]
      rfl

theorem Standing.query (W : Standing S L lvl [] R [] p.levels) (ht : t ∈ R) (isFloor : Bool)
    (index : ℕ) : Checked.query isFloor p t index S = .ok (S.query isFloor p t index, S) := by
  obtain ⟨htL, htl, -⟩ := W.good.root t ht
  have hrun := fun k => W.runQuery isFloor p.levels k (o := some t) fun n h => by
    cases h
    exact ⟨htL, htl⟩
  unfold Checked.query Store.query Store.lookupFloor Store.lookupCeil
  cases p.adjustIndex index with
  | none => cases isFloor <;> rfl
  | some k =>
    dsimp only
    rw [hrun k]
    cases isFloor <;> rfl

/-! ### Trees come and go -/

theorem Standing.addRoot (W : Standing S L lvl [] R [] top) (h2 : 2 ≤ top) (hm : m ∉ L)
    (hm0 : refsTo (S.bare lvl) L m = 0) (hmd : m ∉ S.deletedNodes) (hdel : S'.deletedNodes = S.deletedNodes)
    (hnext : S.next ≤ S'.next) (hlt : m < S'.next)
    (hold : ∀ c ∈ L, (S'.node c).pointers = (S.node c).pointers ∧
      (S'.node c).presentBits = (S.node c).presentBits ∧
      (S'.node c).refCount = (S.node c).refCount + hits (slots S' m) c)
    (hbits : ∀ i : Fin 32, (S'.node m).presentBits.getLsbD i = ((S'.node m).pointers i).isSome)
    (hcount : (S'.node m).refCount = 1)
    (hchild : ∀ i c, (S'.node m).pointers i = some c → c ∈ L ∧ lvl c + 1 = top) :
    Standing S' (insert m L) (update lvl m top) [] (m :: R) [] top := by
  have hlvl : ∀ c ∈ L, update lvl m top c = lvl c := fun c hc =>
    update_of_ne (fun h : c = m => hm (h ▸ hc)) _ _
  have hmb : (S'.bare (update lvl m top)).node m = S'.node m := bare_inner (by rw [update_self]; omega)
  have hrow : slots (S'.bare (update lvl m top)) m = slots S' m := by
    unfold slots
    rw [hmb]
  have hmR : m ∉ R := fun h => hm (W.good.root m h).1
  have G : Good (S'.bare (update lvl m top)) (insert m L) (update lvl m top) [m] R top := by
    refine W.good.addNode hm (by simp) hm0 hnext hlt ⟨by omega, le_rfl⟩ (fun c hc => ?_) (fun r hr => ?_)
      (by rw [hmb]; exact hbits) (by rw [hmb]; exact hcount) fun i c hi => ?_
    · obtain ⟨h3, h4, h5⟩ := hold c hc
      rw [hrow, bare_refCount, bare_refCount]
      by_cases h1 : lvl c = 1
      · rw [bare_leaf h1, bare_leaf ((hlvl c hc).trans h1)]
        exact ⟨rfl, rfl, h5⟩
      · rw [bare_inner h1, bare_inner (by rw [hlvl c hc]; exact h1)]
        exact ⟨h3, h4, h5⟩
    · rw [hrow]
      refine hits_eq_zero.mpr fun i hi => ?_
      have h3 := (hchild i r hi).2
      have h4 := (W.good.root r hr).2.1
      omega
    · rw [hmb] at hi
      obtain ⟨hc, hcl⟩ := hchild i c hi
      exact ⟨(W.lt_next hc).trans_le hnext, fun h => hm (h ▸ hc), fun _ => ⟨hc, hcl⟩, fun h => by omega⟩
  refine ⟨G.toRoot (Finset.mem_insert_self m L) (update_self _ _ _) hmR (by simp),
    fun c hc hcR _ => ?_, fun n hn => ?_, fun n hn => ?_⟩
  · simp only [List.mem_cons, not_or] at hcR
    have hcL := (Finset.mem_insert.mp hc).resolve_left hcR.1
    rw [(hold c hcL).2.1]
    exact W.full c hcL hcR.2 (by simp)
  · rw [hdel]
    rcases Finset.mem_insert.mp hn with rfl | hn
    · exact hmd
    · exact W.live n hn
  · rw [hdel] at hn
    exact (W.old n hn).trans_le hnext

theorem Standing.addEmpty (W : Standing S L lvl [] R [] top) (h2 : 2 ≤ top) (hm : m ∉ L)
    (hm0 : refsTo (S.bare lvl) L m = 0) (hmd : m ∉ S.deletedNodes)
    (hdel : S'.deletedNodes = S.deletedNodes) (hnext : S.next ≤ S'.next) (hlt : m < S'.next)
    (hnode : ∀ c, S'.node c = if c = m then .empty else S.node c) :
    Standing S' (insert m L) (update lvl m top) [] (m :: R) [] top := by
  have hmn : S'.node m = .empty := by rw [hnode, if_pos rfl]
  have hrow : slots S' m = fun _ => none := by
    unfold slots
    rw [hmn]
    rfl
  refine W.addRoot h2 hm hm0 hmd hdel hnext hlt (fun c hc => ?_) (fun i => ?_)
    (by rw [hmn]; rfl) fun i c hi => ?_
  · rw [hrow, hits_none, hnode, if_neg (fun h : c = m => hm (h ▸ hc))]
    exact ⟨rfl, rfl, rfl⟩
  · rw [hmn]
    simp [BitTreeNode.empty]
  · rw [hmn] at hi
    cases hi

theorem Standing.newTree (W : Standing S L lvl [] R [] top) (h2 : 2 ≤ top) :
    Standing (S.newTree).1 (insert S.next L) (update lvl S.next top) [] (S.next :: R) [] top :=
  W.addEmpty h2 W.next_not_mem (W.good.refs_fresh le_rfl) W.next_not_deleted rfl (Nat.le_succ _)
    (Nat.lt_succ_self _)
    fun c => by simp [Store.newTree]

theorem Standing.copyTree (W : Standing S L lvl [] R [] top) (h2 : 2 ≤ top) (ht : t ∈ R) :
    Checked.copyTree t S = .ok (S.copyTree t).swap ∧ (S.copyTree t).2 = S.next ∧
      Standing (S.copyTree t).1 (insert S.next L) (update lvl S.next top) [] (S.next :: R) [] top := by
  obtain ⟨htL, htl, -⟩ := W.good.root t ht
  have hcopy := copyNode_live (W.live t htL) false fun _ i c hc => W.live c (W.child htL (by omega) hc).1
  have hnode : ∀ m, (S.copyTree t).1.node m = if m = S.next then { S.node t with refCount := 1 } else
      { S.node m with refCount := (S.node m).refCount + hits (slots S t) m } := by
    intro m
    simp [Store.copyTree, copyNode_eq]
  have hhere : (S.copyTree t).1.node S.next = { S.node t with refCount := 1 } := by rw [hnode, if_pos rfl]
  have hrow : slots (S.copyTree t).1 S.next = slots S t := by
    unfold slots
    rw [hhere]
  have hlogs : (S.copyTree t).1.next = S.next + 1 ∧ (S.copyTree t).1.deletedNodes = S.deletedNodes ∧
      (S.copyTree t).2 = S.next := by
    simp [Store.copyTree, copyNode_eq]
  refine ⟨?_, hlogs.2.2,
    W.addRoot h2 W.next_not_mem (W.good.refs_fresh le_rfl) W.next_not_deleted hlogs.2.1 (by omega)
    (by omega) (fun c hc => ?_) (fun i => ?_) (by rw [hhere]) fun i c hi => ?_⟩
  · unfold Checked.copyTree
    rw [bind_of_eq hcopy]
    rfl
  · rw [hrow, hnode, if_neg (fun h : c = S.next => W.next_not_mem (h ▸ hc))]
    exact ⟨rfl, rfl, rfl⟩
  · rw [hhere]
    exact W.bits htL (by omega) i
  · rw [hhere] at hi
    rw [← htl]
    exact W.child htL (by omega) hi

theorem Standing.destroyTree (W : Standing S L lvl [] R [] p.levels) (h2 : 2 ≤ p.levels)
    (hR : R.Nodup) (ht : t ∈ R) :
    Checked.destroyTree p t S = .ok ((), S.destroyTree p t) ∧
      ∃ L', Standing (S.destroyTree p t) L' lvl [] (R.erase t) [] p.levels ∧ t ∉ L' ∧
        refsTo ((S.destroyTree p t).bare lvl) L' t = 0 ∧ t < (S.destroyTree p t).next ∧
        t ∉ (S.destroyTree p t).deletedNodes := by
  obtain ⟨htL, htl, -⟩ := W.good.root t ht
  have htR : t ∉ R.erase t := hR.not_mem_erase
  obtain ⟨level, hl⟩ : ∃ level, p.levels = level + 1 := ⟨p.levels - 1, by omega⟩
  have G : Good (S.bare lvl) L lvl [t] (R.erase t) p.levels :=
    (W.good.of_roots fun r => (List.perm_cons_erase ht).symm.mem_iff).unroot htR
  obtain ⟨hfree, htd, L', -, F⟩ := free_live true level S L t [] G W.live htL htR (htl.trans hl)
  have hS' : S.destroyTree p t = (S.free true (level + 1) t).2 := by
    unfold Store.destroyTree freeNode
    rw [if_neg (by simp), hl]
  have hchecked : Checked.destroyTree p t S = .ok ((), S.destroyTree p t) := by
    unfold Checked.destroyTree Checked.freeNode
    rw [hS', hl, bind_of_eq hfree, if_neg (by simp)]
    rfl
  refine ⟨hchecked, ?_⟩
  rw [hS']
  generalize (S.free true (level + 1) t).2 = S₁ at F htd ⊢
  -- nothing refers to the top level, so a root that is let go has no reference left
  have h0 : refsTo (S₁.bare lvl) L' t = 0 := refs_eq_zero.mpr fun n hn i hi => by
    have hl1 := F.good.level n hn
    by_cases h1 : lvl n = 1
    · unfold slots at hi
      rw [bare_leaf h1] at hi
      cases hi
    · have := (F.good.child n hn i t hi (by omega)).2
      omega
  have htL' : t ∉ L' := fun h => by
    have h1 := F.good.count t h htR
    rw [h0, List.count_nil] at h1
    omega
  refine ⟨L', ⟨F.good, fun c hc hcR _ => ?_, F.live W.live, fun n hn => ?_⟩, htL', h0, ?_, htd⟩
  · rw [(F.rows c).2]
    refine W.full c (F.sub hc) (fun h => hcR ?_) (by simp)
    exact (List.mem_erase_of_ne fun h : c = t => htL' (h ▸ hc)).mpr h
  · rw [F.next]
    rcases F.deleted n hn with hn | hn
    · exact W.old n hn
    · exact W.lt_next hn.1
  · rw [F.next]
    exact W.lt_next htL

theorem Standing.clear (W : Standing S L lvl [] R [] p.levels) (h2 : 2 ≤ p.levels) (hR : R.Nodup)
    (ht : t ∈ R) :
    Checked.clear p t S = .ok ((), S.clear p t) ∧
    ∃ L' lvl', Standing (S.clear p t) L' lvl' [] R [] p.levels := by
  obtain ⟨hchecked, L', W', htL, h0, hlt, htd⟩ := W.destroyTree h2 hR ht
  have hfree : Checked.freeNode t true p.levels t S = .ok ((), S.destroyTree p t) := hchecked
  constructor
  · unfold Checked.clear
    rw [bind_of_eq hfree, update_live htd]
    rfl
  · have W'' : Standing (S.clear p t) (insert t L') (update lvl t p.levels) [] (t :: R.erase t)
        [] p.levels :=
      W'.addEmpty h2 htL h0 htd rfl le_rfl hlt fun c => setNode_node _ _ _ _
    have hperm := List.perm_cons_erase ht
    exact ⟨_, _, W''.good.of_roots fun r => hperm.mem_iff,
      fun c hc hcR => W''.full c hc fun h => hcR (hperm.mem_iff.mpr h), W''.live, W''.old⟩

/-! ### Runs -/

/-- What clients do: with trees, and with items on their own.  Any pointer may be stored. -/
inductive TreeOp (T : Type)
  | newItem (v : T)
  | deleteItem (item : ℕ)
  | newTree
  | copy (t : ℕ)
  | clear (t : ℕ)
  | destroy (t : ℕ)
  | insert (t index : ℕ) (item : Option ℕ)
  | remove (t index : ℕ)
  | lookupExact (t index : ℕ)
  | lookupFloor (t index : ℕ)
  | lookupCeil (t index : ℕ)

/-- Trees in one store. -/
structure Forest (T : Type) where
  store : Store T
  trees : List ℕ

namespace TreeOp

/-- The pointer that an operation returns, if it returns one, and the store behind it. -/
def perform (p : Params) (S : Store T) : TreeOp T → Option ℕ × Store T
  | newItem v => (some (S.newItem v).2, (S.newItem v).1)
  | deleteItem item => (none, S.deleteItem item)
  | newTree => (some S.newTree.2, S.newTree.1)
  | copy t => (some (S.copyTree t).2, (S.copyTree t).1)
  | clear t => (none, S.clear p t)
  | destroy t => (none, S.destroyTree p t)
  | insert t index item => (S.insertPointer p t index item).swap
  | remove t index => (S.remove p t index).swap
  | lookupExact t index => (S.lookupExact p t index, S)
  | lookupFloor t index => (S.lookupFloor p t index, S)
  | lookupCeil t index => (S.lookupCeil p t index, S)

/-- The same over the store that forgets what is deleted. -/
def checked (p : Params) : TreeOp T → Prog Gone (Store T) (Option ℕ)
  | newItem v => modifyGet fun S => (some (S.newItem v).2, (S.newItem v).1)
  | deleteItem item => modifyGet fun S => (none, S.deleteItem item)
  | newTree => modifyGet fun S => (some S.newTree.2, S.newTree.1)
  | copy t => return some (← Checked.copyTree t)
  | clear t => do
    Checked.clear p t
    return none
  | destroy t => do
    Checked.destroyTree p t
    return none
  | insert t index item => Checked.insert p t index item
  | remove t index => Checked.remove p t index
  | lookupExact t index => Checked.lookupExact p t index
  | lookupFloor t index => Checked.query true p t index
  | lookupCeil t index => Checked.query false p t index

/-- A removal that leaves nothing in the leaf of its index. -/
def emptiesLeaf (p : Params) (S : Store T) : TreeOp T → Bool
  | remove t index => (p.adjustIndex index).bind (fun k => S.left k p.levels t) = some 0
  | _ => false

end TreeOp

namespace Forest

def exec (p : Params) (s : Forest T) (op : TreeOp T) : Forest T where
  store := (op.perform p s.store).2
  trees := match op with
    | .newTree => s.store.newTree.2 :: s.trees
    | .copy t => (s.store.copyTree t).2 :: s.trees
    | .destroy t => s.trees.erase t
    | _ => s.trees

/-- Operations are on trees that exist. -/
def Allowed (s : Forest T) : TreeOp T → Prop
  | .newItem _ | .deleteItem _ | .newTree => True
  | .copy t | .clear t | .destroy t | .insert t _ _ | .remove t _ | .lookupExact t _ | .lookupFloor t _
  | .lookupCeil t _ => t ∈ s.trees

/-- The roots of the trees stand. -/
def Stands (p : Params) (s : Forest T) : Prop :=
  s.trees.Nodup ∧ ∃ L lvl, Standing s.store L lvl [] s.trees [] p.levels

end Forest

/-- The runs of a forest, from nothing. -/
inductive ForestRuns (p : Params) : Forest T → Prop
  | start (item : ℕ → T) : ForestRuns p ⟨⟨fun _ => .empty, item, 0, [], [], [], []⟩, []⟩
  | step {s : Forest T} (h : ForestRuns p s) (op : TreeOp T) (allowed : s.Allowed op) :
      ForestRuns p (s.exec p op)

variable {s : Forest T}

theorem Standing.next_not_root (W : Standing S L lvl P R E top) : S.next ∉ R := fun h =>
  absurd (W.lt_next (W.good.root _ h).1) (lt_irrefl _)

/-- **One operation**: it stops if it empties a leaf, does what the model says if not, and leaves
the trees standing. -/
theorem Forest.Stands.step (h2 : 2 ≤ p.levels) (H : s.Stands p) (op : TreeOp T)
    (hop : s.Allowed op) :
    (op.emptiesLeaf p s.store = false → op.checked p s.store = .ok (op.perform p s.store)) ∧
    (op.emptiesLeaf p s.store = true → ∃ leaf, op.checked p s.store = .error ⟨leaf⟩) ∧
    (s.exec p op).Stands p := by
  obtain ⟨hnd, L, lvl, W⟩ := H
  cases op with
  | newItem v =>
    exact ⟨fun _ => rfl, fun h => absurd h Bool.false_ne_true, hnd, L, lvl,
      W.good.congr (fun _ _ => rfl) (Nat.le_succ _)
      fun _ _ => rfl, W.full, W.live, fun n hn => Nat.lt_succ_of_lt (W.old n hn)⟩
  | deleteItem item =>
    exact ⟨fun _ => rfl, fun h => absurd h Bool.false_ne_true, hnd, L, lvl,
      W.good.congr (fun _ _ => rfl) le_rfl fun _ _ => rfl, W.full, W.live, W.old⟩
  | newTree =>
    exact ⟨fun _ => rfl, fun h => absurd h Bool.false_ne_true,
      List.nodup_cons.mpr ⟨W.next_not_root, hnd⟩, _, _, W.newTree h2⟩
  | copy t =>
    obtain ⟨hchecked, hnext, W'⟩ := W.copyTree h2 hop
    refine ⟨fun _ => bind_of_eq hchecked, fun h => absurd h Bool.false_ne_true, ?_⟩
    unfold Forest.Stands Forest.exec
    dsimp only
    rw [hnext]
    exact ⟨List.nodup_cons.mpr ⟨W.next_not_root, hnd⟩, _, _, W'⟩
  | clear t =>
    obtain ⟨hchecked, L', lvl', W'⟩ := W.clear h2 hnd hop
    exact ⟨fun _ => bind_of_eq hchecked, fun h => absurd h Bool.false_ne_true, hnd, L', lvl', W'⟩
  | destroy t =>
    obtain ⟨hchecked, L', W', -⟩ := W.destroyTree h2 hnd hop
    exact ⟨fun _ => bind_of_eq hchecked, fun h => absurd h Bool.false_ne_true, hnd.erase t, L', lvl, W'⟩
  | insert t index item =>
    obtain ⟨hchecked, L', lvl', W'⟩ := W.insertItem h2 hop index item
    exact ⟨fun _ => hchecked, fun h => absurd h Bool.false_ne_true, hnd, L', lvl', W'⟩
  | remove t index =>
    obtain ⟨hok, hgone, L', lvl', W'⟩ := W.remove h2 hop index
    exact ⟨fun h => hok (of_decide_eq_false h), fun h => hgone (of_decide_eq_true h), hnd, L', lvl', W'⟩
  | lookupExact t index =>
    exact ⟨fun _ => W.lookupExact h2 hop index, fun h => absurd h Bool.false_ne_true, hnd, L, lvl, W⟩
  | lookupFloor t index =>
    exact ⟨fun _ => W.query hop true index, fun h => absurd h Bool.false_ne_true, hnd, L, lvl, W⟩
  | lookupCeil t index =>
    exact ⟨fun _ => W.query hop false index, fun h => absurd h Bool.false_ne_true, hnd, L, lvl, W⟩

theorem ForestRuns.stands (h2 : 2 ≤ p.levels) (h : ForestRuns p s) : s.Stands p := by
  induction h with
  | start item =>
    refine ⟨List.nodup_nil, ∅, fun _ => 0, ⟨?_, ?_, ?_, ?_, ?_, ?_, ?_, ?_, ?_⟩, fun c hc => ?_,
      fun n hn => ?_, fun n hn => ?_⟩
    all_goals simp_all
  | step _ op allowed ih => exact (ih.step h2 op allowed).2.2

/-- **Which operations touch only nodes that exist.**  In every run, whatever clients have stored:
an operation comes to a node that has been deleted exactly if it is a `remove` of the only entry
that is left in a leaf. -/
theorem touches_live_iff (h2 : 2 ≤ p.levels) (h : ForestRuns p s) (op : TreeOp T) (hop : s.Allowed op) :
    (∃ r, op.checked p s.store = .ok r) ↔ op.emptiesLeaf p s.store = false := by
  obtain ⟨hok, hgone, -⟩ := (h.stands h2).step h2 op hop
  constructor
  · rintro ⟨r, hr⟩
    by_contra hempty
    obtain ⟨leaf, hleaf⟩ := hgone (Bool.eq_true_of_not_eq_false hempty)
    rw [hr] at hleaf
    cases hleaf
  · exact fun hempty => ⟨_, hok hempty⟩

/-- An operation that touches only nodes that exist does what the model says. -/
theorem checked_eq_perform (h2 : 2 ≤ p.levels) (h : ForestRuns p s) (op : TreeOp T) (hop : s.Allowed op)
    {r : Option ℕ × Store T} (hr : op.checked p s.store = .ok r) : r = op.perform p s.store := by
  obtain ⟨hok, hgone, -⟩ := (h.stands h2).step h2 op hop
  cases hempty : op.emptiesLeaf p s.store with
  | false => exact (Except.ok.inj ((hok hempty).symm.trans hr)).symm
  | true =>
    obtain ⟨leaf, hleaf⟩ := hgone hempty
    rw [hr] at hleaf
    cases hleaf

def twoLevels : Params := ⟨2, 0, 1⟩

/-- A tree with one entry. -/
def oneEntry : Forest ℕ :=
  ((Forest.mk ⟨fun _ => .empty, fun _ => 0, 0, [], [], [], []⟩ []).exec twoLevels .newTree).exec twoLevels
    (.insert 0 5 (some 7))

theorem oneEntry_runs : ForestRuns twoLevels oneEntry :=
  ((ForestRuns.start fun _ => 0).step .newTree trivial).step (.insert 0 5 (some 7))
    (List.mem_singleton.mpr rfl)

/-- Another entry may be inserted into the leaf, and then the first one may be removed. -/
theorem touches_live_two_entries :
    (∃ r, (TreeOp.insert 0 6 none).checked twoLevels oneEntry.store = .ok r) ∧
      ∃ r, (TreeOp.remove 0 5).checked twoLevels
        (oneEntry.exec twoLevels (.insert 0 6 none)).store = .ok r :=
  ⟨(touches_live_iff (by decide) oneEntry_runs _ (List.mem_singleton.mpr rfl)).mpr rfl,
    (touches_live_iff (by decide) (oneEntry_runs.step (.insert 0 6 none) (List.mem_singleton.mpr rfl)) _
      (List.mem_singleton.mpr rfl)).mpr (by decide)⟩

/-- The removal of the only entry: the leaf `1` is deleted, and then it is read. -/
theorem remove_reads_deleted_leaf :
    ForestRuns twoLevels oneEntry ∧ oneEntry.Allowed (.remove 0 5) ∧ oneEntry.store.deletedNodes = [] ∧
      (TreeOp.remove 0 5).checked twoLevels oneEntry.store = .error ⟨1⟩ ∧
      (oneEntry.exec twoLevels (.remove 0 5)).store.deletedNodes = [1] :=
  ⟨oneEntry_runs, List.mem_singleton.mpr rfl, by decide, rfl, by decide⟩

end GheithOS.BitTree
