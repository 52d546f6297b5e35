import GheithOS.Lib.Refs
import GheithOS.BitTree.Query

/-!
# GheithOS.BitTree.Invariant — what the store keeps between the steps of an operation

Ghost data: `L` is the set of live nodes, `lvl` their level (a leaf has level 1), `R` the roots of
the live trees, and `P` the references that have left their slots but are not released yet (only
`free` has any).

* `Good`: the presence bits agree with the slots, children lie one level below, and the count of
  every node that is not a root is the number of its references.
* `Full`: no node but a root is empty, apart from the exceptions `E`.
* `Items`: every item that is neither deleted nor in the hands of a client has one reference;
  nothing else outside the nodes has any.
* `Logged`: the live nodes, and those in `D` that have died, are the ones allocated and not deleted.
-/

namespace GheithOS.BitTree

open Lib Store

universe u

variable {T : Type u}

namespace Store

/-! ### Fields after an update -/

section Fields

variable (S : Store T) (n m : ℕ) (i : Fin 32) (v : BitTreeNode) (x : Option ℕ)

@[simp] theorem setNode_node : (S.setNode n v).node m = if m = n then v else S.node m := by
  simp [setNode, Function.update_apply]

@[simp] theorem setNode_item : (S.setNode n v).item = S.item := rfl
@[simp] theorem setNode_next : (S.setNode n v).next = S.next := rfl
@[simp] theorem setNode_newNodes : (S.setNode n v).newNodes = S.newNodes := rfl
@[simp] theorem setNode_deletedNodes : (S.setNode n v).deletedNodes = S.deletedNodes := rfl
@[simp] theorem setNode_newItems : (S.setNode n v).newItems = S.newItems := rfl
@[simp] theorem setNode_deletedItems : (S.setNode n v).deletedItems = S.deletedItems := rfl

@[simp] theorem setPtr_pointers :
    ((S.setPtr n i x).node m).pointers = if m = n then Function.update (S.node n).pointers i x
      else (S.node m).pointers := by
  unfold setPtr
  rw [setNode_node]
  split <;> rfl

@[simp] theorem setPtr_presentBits : ((S.setPtr n i x).node m).presentBits = (S.node m).presentBits := by
  unfold setPtr
  rw [setNode_node]
  split <;> simp_all

@[simp] theorem setPtr_refCount : ((S.setPtr n i x).node m).refCount = (S.node m).refCount := by
  unfold setPtr
  rw [setNode_node]
  split <;> simp_all

end Fields

end Store

def slots (S : Store T) : ℕ → Fin 32 → Option ℕ := fun n => (S.node n).pointers

/-- The references to `c` from the live nodes. -/
abbrev refsTo (S : Store T) (L : Finset ℕ) (c : ℕ) : ℕ := refs L (slots S) c

structure Good (S : Store T) (L : Finset ℕ) (lvl : ℕ → ℕ) (P R : List ℕ) (top : ℕ) : Prop where
  fresh : ∀ n ∈ L, n < S.next
  level : ∀ n ∈ L, 1 ≤ lvl n ∧ lvl n ≤ top
  bits : ∀ n ∈ L, ∀ i : Fin 32, (S.node n).presentBits.getLsbD i = ((S.node n).pointers i).isSome
  target : ∀ n ∈ L, ∀ i c, (S.node n).pointers i = some c → c < S.next
  child : ∀ n ∈ L, ∀ i c, (S.node n).pointers i = some c → 2 ≤ lvl n → c ∈ L ∧ lvl c + 1 = lvl n
  leaf : ∀ n ∈ L, ∀ i c, (S.node n).pointers i = some c → lvl n = 1 → c ∉ L
  pending : ∀ c ∈ P, c < S.next
  root : ∀ r ∈ R, r ∈ L ∧ lvl r = top ∧ (S.node r).refCount = 1 ∧ r ∉ P
  count : ∀ c ∈ L, c ∉ R → (S.node c).refCount = refsTo S L c + P.count c ∧ 1 ≤ (S.node c).refCount

def Full (S : Store T) (L : Finset ℕ) (R E : List ℕ) : Prop :=
  ∀ c ∈ L, c ∉ R → c ∉ E → (S.node c).presentBits ≠ 0

structure Items (S : Store T) (L : Finset ℕ) (P held : List ℕ) : Prop where
  fresh : ∀ x ∈ S.newItems, x < S.next ∧ x ∉ L
  nodup : S.newItems.Nodup ∧ S.deletedItems.Nodup ∧ held.Nodup
  deleted : ∀ x ∈ S.deletedItems, x ∈ S.newItems ∧ x ∉ held
  client : ∀ x ∈ held, x ∈ S.newItems
  stored : ∀ x, x ∉ L → refsTo S L x + P.count x =
    if x ∈ S.newItems ∧ x ∉ S.deletedItems ∧ x ∉ held then 1 else 0

structure Logged (S : Store T) (L : Finset ℕ) (R D : List ℕ) : Prop where
  fresh : ∀ n ∈ S.newNodes, n < S.next
  nodup : S.newNodes.Nodup ∧ S.deletedNodes.Nodup
  deleted : ∀ n ∈ S.deletedNodes, n ∈ S.newNodes
  live : ∀ n, (n ∈ L ∧ n ∉ R) ∨ n ∈ D ↔ n ∈ S.newNodes ∧ n ∉ S.deletedNodes
  apart : ∀ n ∈ D, n ∉ L

variable {S S' : Store T} {L L' : Finset ℕ} {lvl lvl' : ℕ → ℕ} {P R E : List ℕ} {top : ℕ}

/-! ### Consequences -/

/-- Nothing refers to a node of the top level. -/
theorem Good.refs_top (G : Good S L lvl P R top) {r : ℕ} (hr : r ∈ L) (hl : lvl r = top) :
    refsTo S L r = 0 := by
  refine refs_eq_zero.mpr fun n hn i hi => ?_
  have hn' := G.level n hn
  by_cases h2 : 2 ≤ lvl n
  · have := (G.child n hn i r hi h2).2
    omega
  · exact G.leaf n hn i r hi (by omega) hr

/-- A node with one reference has one slot. -/
theorem Good.slot_unique (G : Good S L lvl [] R top) {c n m : ℕ} {i j : Fin 32} (hc : c ∈ L) (hR : c ∉ R)
    (h1 : (S.node c).refCount ≤ 1) (hn : n ∈ L) (hm : m ∈ L) (hi : (S.node n).pointers i = some c)
    (hj : (S.node m).pointers j = some c) : n = m ∧ i = j := by
  have hcount : (S.node c).refCount = refs L (slots S) c := by simpa using (G.count c hc hR).1
  exact refs_unique (by rwa [← hcount]) hn hm hi hj

theorem Good.child_not_root (G : Good S L lvl P R top) {n c : ℕ} {i : Fin 32} (hn : n ∈ L)
    (hi : (S.node n).pointers i = some c) (h2 : 2 ≤ lvl n) : c ∉ R := by
  intro hc
  have h1 := (G.child n hn i c hi h2).2
  have h3 := (G.root c hc).2.1
  have h4 := (G.level n hn).2
  omega

theorem Good.tidy (G : Good S L lvl P R top) (hF : Full S L R []) : ∀ {level n : ℕ}, n ∈ L → lvl n = level →
    Tidy S level n
  | 0, _, _, _ => trivial
  | level + 1, n, hn, hl => by
    refine ⟨G.bits n hn, fun h0 i c hc => ?_⟩
    obtain ⟨hcL, hcl⟩ := G.child n hn i c hc (by omega)
    exact ⟨hF c hcL (G.child_not_root hn hc (by omega)) (by simp), G.tidy hF hcL (by omega)⟩

/-- The contents of a live node depend on the slots of the live nodes below it only. -/
theorem contents_congr (G : Good S L lvl P R top) {level : ℕ}
    (h : ∀ n ∈ L, lvl n ≤ level → (S'.node n).pointers = (S.node n).pointers) :
    ∀ {l n : ℕ}, l ≤ level → n ∈ L → lvl n = l → contents S' l n = contents S l n
  | 0, _, _, _, _ => rfl
  | l + 1, n, hle, hn, hl => by
    funext k
    simp only [contents, h n hn (by omega)]
    cases hc : (S.node n).pointers (getLevelIndex k (l + 1)) with
    | none => rfl
    | some c =>
      simp only [Option.bind_some]
      by_cases h0 : l = 0
      · rw [if_pos h0, if_pos h0]
      · obtain ⟨hcL, hcl⟩ := G.child n hn _ c hc (by omega)
        rw [if_neg h0, if_neg h0, contents_congr G h (show l ≤ level by omega) hcL (by omega)]

/-- Addresses stored in the tree are no nodes. -/
theorem Good.contents_not_live (G : Good S L lvl P R top) : ∀ {level n k x : ℕ}, n ∈ L → lvl n = level →
    contents S level n k = some x → x ∉ L ∧ x < S.next
  | 0, _, _, _, _, _, h => by simp [contents] at h
  | level + 1, n, k, x, hn, hl, h => by
    simp only [contents] at h
    cases hc : (S.node n).pointers (getLevelIndex k (level + 1)) with
    | none => simp [hc] at h
    | some c =>
      rw [hc, Option.bind_some] at h
      by_cases h0 : level = 0
      · simp only [h0, ite_true, Option.some.injEq] at h
        subst h
        exact ⟨G.leaf n hn _ c hc (by omega), G.target n hn _ c hc⟩
      · simp only [h0, ite_false] at h
        obtain ⟨hcL, hcl⟩ := G.child n hn _ c hc (by omega)
        exact G.contents_not_live hcL (show lvl c = level by omega) h

end GheithOS.BitTree
