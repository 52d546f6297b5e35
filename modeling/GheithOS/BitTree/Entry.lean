import GheithOS.BitTree.Edit

/-!
# GheithOS.BitTree.Entry — `get_entry_ref` and the store that follows it

On a path that needs no copying, `get_entry_ref` followed by the store to the slot it returns is
`put` (`getEntryRef_put`).  The only difference is the order: the source unwinds the recursion, and
releases empty nodes, before it writes the slot; the two commute (`prune_setPtr`).
-/

namespace GheithOS.BitTree

open Lib Store

universe u

variable {T : Type u} {S S' : Store T} {L L' : Finset ℕ} {lvl lvl' : ℕ → ℕ} {P R E D : List ℕ} {top : ℕ}
  {n : ℕ} {i : Fin 32}

/-! ### Lookups -/

theorem getEntryRef_lookup (root index : ℕ) :
    ∀ (level : ℕ) (nodeRef : NodeRef) (n : ℕ), S.deref root nodeRef = some n →
    (S.getEntryRef root index .lookup (level + 1) nodeRef).1 = S ∧
    (S.getEntryRef root index .lookup (level + 1) nodeRef).2.bind (fun r => (S.node r.1).pointers r.2) =
      contents S (level + 1) n index
  | 0, nodeRef, n, hn => by
    rw [getEntryRef, hn, contents_leaf]
    exact ⟨rfl, rfl⟩
  | level + 1, nodeRef, n, hn => by
    rw [getEntryRef, hn, contents_node]
    simp only [ne_eq, not_true_eq_false, ite_false, Nat.add_eq_zero_iff, one_ne_zero, and_false,
      reduceCtorEq, not_false_eq_true, and_true]
    cases hc : (S.node n).pointers (getLevelIndex index (level + 2)) with
    | none => simp
    | some c =>
      simp only [reduceCtorEq, ite_false, Option.bind_some]
      exact getEntryRef_lookup root index level (.slot n (getLevelIndex index (level + 2))) c hc

/-! ### Edits -/

/-- The action of an edit that stores `v`. -/
def actionOf (v : Option ℕ) : GetEntryAction := if v = none then .delete else .insert

/-- `previous = *ref; *ref = v`. -/
def finish (r : Store T × Option (ℕ × Fin 32)) (v : Option ℕ) : Store T × Option ℕ :=
  match r.2 with
  | none => (r.1, none)
  | some (n, i) => (r.1.setPtr n i v, (r.1.node n).pointers i)

theorem copyOnWrite_of_le (level : ℕ) (nodeRef : NodeRef) (h : (S.node n).refCount ≤ 1) :
    S.copyOnWrite level nodeRef n = (S, n) := by
  rw [copyOnWrite, if_neg (by omega)]

theorem drop_setPtr {m c : ℕ} (j : Fin 32) (hmn : m ≠ n) (hcn : c ≠ n) :
    (((S.setPtr m j none).writeSlot n i none).decRef c).deleteNode c =
      (((S.writeSlot n i none).decRef c).deleteNode c).setPtr m j none := by
  have hnode : ∀ x, ((((S.setPtr m j none).writeSlot n i none).decRef c).deleteNode c).node x =
      ((((S.writeSlot n i none).decRef c).deleteNode c).setPtr m j none).node x := by
    intro x
    simp only [writeSlot, setPtr, clearBit, decRef, deleteNode, setNode_node, Option.isSome_none,
      Bool.false_eq_true, ite_false]
    by_cases hxn : x = n
    · subst hxn
      simp [Ne.symm hmn, Ne.symm hcn]
    · by_cases hxc : x = c
      · subst hxc
        by_cases hxm : x = m
        · subst hxm
          simp [hxn]
        · simp [hxn, hxm]
      · by_cases hxm : x = m
        · subst hxm
          simp [hxn, hxc]
        · simp [hxn, hxc, hxm]
  exact congrArg (fun f =>
    ({ (((S.writeSlot n i none).decRef c).deleteNode c).setPtr m j none with node := f } : Store T))
    (funext hnode)

theorem prune_setPtr {root l m c : ℕ} (j : Fin 32) (hmn : m ≠ n) (hcn : c ≠ n) (hroot : c ≠ root)
    (hc : (S.node n).pointers i = some c) (h1 : (S.node c).refCount = 1)
    (h0 : (S.node c).presentBits = 0 → l = 0 ∨ c ≠ m ∧ ∀ k, (S.node c).pointers k = none) :
    (S.setPtr m j none).prune root (l + 1) n i = (S.prune root (l + 1) n i).setPtr m j none ∧
      ((S.prune root (l + 1) n i).node m).pointers j = (S.node m).pointers j := by
  have hc' : ((S.setPtr m j none).node n).pointers i = some c := by
    rw [setPtr_pointers, if_neg (Ne.symm hmn)]
    exact hc
  by_cases hb : (S.node c).presentBits = 0
  · rw [prune_eq hc hcn hroot h1 hb ((h0 hb).imp_right And.right),
      prune_eq hc' hcn hroot (by simpa using h1)
      (by simpa using hb) ((h0 hb).imp_right fun h => ?_)]
    · refine ⟨drop_setPtr j hmn hcn, ?_⟩
      by_cases hmc : m = c
      · subst hmc
        simp [decRef, deleteNode, hcn]
      · rw [decRef_deleteNode_node _ hmc, writeSlot_node_of_ne _ _ _ hmn]
    · rw [setPtr_pointers, if_neg h.1]
      exact h.2
  · have hid : ∀ S : Store T, (S.node n).pointers i = some c → (S.node c).presentBits ≠ 0 →
        S.prune root (l + 1) n i = S := fun S h1 h2 => by
      unfold prune
      rw [h1]
      simp only [h2, ite_false]
    rw [hid S hc hb, hid _ hc' (by simpa using hb)]
    exact ⟨rfl, rfl⟩

/-- **`get_entry_ref` with the store that follows is `put`**, where nothing is shared.  The slot
belongs to a leaf, or to a node that was added. -/
theorem getEntryRef_put {root index : ℕ} {v : Option ℕ} :
    ∀ {level n : ℕ} {nodeRef : NodeRef} {S : Store T} {L : Finset ℕ}
    {lvl : ℕ → ℕ}, Good S L lvl [] R top → Full S L R [n] → n ∈ L → lvl n = level + 1 →
    S.deref root nodeRef = some n → (S.node n).refCount ≤ 1 → PrivPath S index (level + 1) n →
    root ∈ R → (∀ x, v = some x → x ∉ L ∧ x < S.next) →
    finish (S.getEntryRef root index (actionOf v) (level + 1) nodeRef) v =
      put root index v (level + 1) n S ∧
      ∀ m j, (S.getEntryRef root index (actionOf v) (level + 1) nodeRef).2 = some (m, j) →
        (m ∈ L ∧ lvl m = 1) ∨ S.next ≤ m
  | 0, n, nodeRef, S, L, lvl, G, hF, hn, hl, hd, h1, _, _, hv => by
    rw [getEntryRef, hd]
    have hedit : actionOf v ≠ .lookup := by
      unfold actionOf
      split <;> simp
    simp only [hedit, ne_eq, not_false_eq_true, ite_true, copyOnWrite_of_le _ _ h1, put, Nat.zero_add]
    cases v with
    | none =>
      refine ⟨by simp [actionOf, finish, writeSlot, clearBit], fun m j h => Or.inl ?_⟩
      simp only [actionOf, ite_true, Option.some.injEq, Prod.mk.injEq] at h
      rw [← h.1]
      exact ⟨hn, hl⟩
    | some x =>
      refine ⟨by simp [actionOf, finish, writeSlot, setBit], fun m j h => Or.inl ?_⟩
      simp only [actionOf, reduceCtorEq, ite_false, Option.some.injEq, Prod.mk.injEq] at h
      rw [← h.1]
      exact ⟨hn, hl⟩
  | level + 1, n, nodeRef, S, L, lvl, G, hF, hn, hl, hd, h1, hpriv, hroot, hv => by
    have hedit : actionOf v ≠ .lookup := by
      unfold actionOf
      split <;> simp
    have hins : actionOf v ≠ .insert ↔ v = none := by
      unfold actionOf
      split <;> simp_all
    have hdel : actionOf v = .delete ↔ v = none := by
      unfold actionOf
      split <;> simp_all
    rw [getEntryRef, hd, put]
    simp only [hedit, ne_eq, not_false_eq_true, ite_true, copyOnWrite_of_le _ _ h1,
      Nat.add_eq_zero_iff, one_ne_zero, and_false, ite_false, hins, hdel]
    by_cases hnone : (S.node n).pointers (getLevelIndex index (level + 2)) = none ∧ v = none
    · rw [if_pos hnone, if_pos hnone]
      exact ⟨rfl, by simp⟩
    · rw [if_neg hnone, if_neg hnone]
      obtain ⟨S₁, L₁, lvl₁, c, hS₁, D⟩ := descend G hF hn hl hpriv
      rw [hS₁, D.slot]
      dsimp only
      obtain ⟨hcL₁, hcl₁⟩ := D.live hn hl
      obtain ⟨L₂, lvl₂, H⟩ := put_spec D.good D.full hcL₁ hcl₁ D.path hroot (D.value hv)
      obtain ⟨H₂, hcL₂, hc2, hslot⟩ := H.ascend G hn hl D hv
      obtain ⟨hn₁, hln₁, -⟩ := D.old n hn
      have hcR : c ∉ R := D.good.child_not_root hn₁ D.slot (by omega)
      have hderef : S₁.deref root (.slot n (getLevelIndex index (level + 2))) = some c := D.slot
      have ih := getEntryRef_put D.good D.full hcL₁ hcl₁ hderef D.single D.path hroot (D.value hv)
      generalize S₁.getEntryRef root index (actionOf v) (level + 1)
        (.slot n (getLevelIndex index (level + 2))) = r at ih ⊢
      generalize put root index v (level + 1) c S₁ = w at ih H H₂ hc2 hslot ⊢
      obtain ⟨A, res⟩ := r
      obtain ⟨S₂, prev⟩ := w
      obtain ⟨ih, hleaf⟩ := ih
      -- the leaf of the entry is neither `n` nor, unless it is the child, the child
      have hres : ∀ m j, res = some (m, j) → (m ∈ L ∧ lvl m = 1 ∨ S.next ≤ m) ∧ m ≠ n ∧
          (level ≠ 0 → c ≠ m) := by
        intro m j h
        rcases hleaf m j h with ⟨hm, hml⟩ | hm
        · refine ⟨?_, by rintro rfl; omega, by rintro h0 rfl; omega⟩
          rcases D.new m hm with hmL | hmf
          · exact .inl ⟨hmL, by rw [← (D.old m hmL).2.1, hml]⟩
          · exact .inr hmf
        · exact ⟨.inr (D.next.trans hm), by rintro rfl; exact absurd (D.good.fresh _ hn₁) (by omega),
            by rintro _ rfl; exact absurd (D.good.fresh _ hcL₁) (by omega)⟩
      by_cases hvn : v = none
      · subst hvn
        simp only [ite_true]
        refine ⟨?_, fun m j h => (hres m j h).1⟩
        cases res with
        | none =>
          simp only [finish, Prod.mk.injEq] at ih ⊢
          rw [ih.1]
          exact ⟨rfl, ih.2⟩
        | some mj =>
          obtain ⟨m, j⟩ := mj
          obtain ⟨-, hmn, hmc⟩ := hres m j rfl
          simp only [finish, Prod.mk.injEq] at ih ⊢
          obtain ⟨rfl, rfl⟩ := ih
          -- back from the state after the store to the state before it
          rw [setPtr_pointers, if_neg (Ne.symm hmn)] at hslot
          have hcR₂ := (H.good.count c hcL₂ hcR).2
          rw [setPtr_refCount] at hcR₂ hc2
          have hcomm := prune_setPtr (l := level) j hmn
            (show c ≠ n by rintro rfl; omega) (fun h => hcR (h ▸ hroot)) hslot
            (by omega) fun hb => ?_
          · exact ⟨hcomm.1.symm, hcomm.2⟩
          · by_cases h0 : level = 0
            · exact .inl h0
            · refine .inr ⟨hmc h0, fun k => ?_⟩
              have := H.good.eq_none hcL₂ (by simpa using hb) k
              rwa [setPtr_pointers, if_neg (hmc h0)] at this
      · simp only [hvn, ite_false]
        exact ⟨ih, fun m j h => (hres m j h).1⟩

end GheithOS.BitTree
