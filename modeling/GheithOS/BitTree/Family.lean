import GheithOS.BitTree.Release
import GheithOS.BitTree.Single

/-!
# GheithOS.BitTree.Family — trees that share their nodes are independent maps

A family of trees in one store: copies share nodes, edits copy what is shared, and destruction
releases what nobody else refers to.  Over every interleaving each tree is a map of its own,
compared by the contents of the items (`independent_maps`); the reference counts are exact, an item
lies in one leaf, and when the last tree is gone every node has been deleted, once.
-/

namespace GheithOS.BitTree

open Lib Store
open Function (update update_apply update_eq_self update_of_ne update_self)

universe u

variable {T : Type u} {S S' : Store T} {L L' : Finset ℕ} {lvl lvl' : ℕ → ℕ} {P Q R E D : List ℕ} {top : ℕ}
  {n r t : ℕ} {i : Fin 32} {p : Params}

/-! ### The invariant -/

/-- The trees `R` in one store, with their maps `A`; the client has the items `held`. -/
structure Shared (p : Params) (S : Store T) (R held : List ℕ) (A : ℕ → ℕ → Option T) (L : Finset ℕ)
    (lvl : ℕ → ℕ) : Prop where
  good : Good S L lvl [] R p.levels
  full : Full S L R []
  items : Items S L [] held
  logged : Logged S L R []
  nodup : R.Nodup
  map : ∀ t ∈ R, ∀ k < 32 ^ p.levels, value S p.levels t k = A t k

variable {held : List ℕ} {A : ℕ → ℕ → Option T}

theorem Good.of_roots (G : Good S L lvl P R top) {R' : List ℕ} (h : ∀ r, r ∈ R' ↔ r ∈ R) :
    Good S L lvl P R' top :=
  ⟨G.fresh, G.level, G.bits, G.target, G.child, G.leaf, G.pending,
    fun r hr => G.root r ((h r).mp hr), fun c hc hcR => G.count c hc fun h' => hcR ((h c).mpr h')⟩

theorem Logged.of_roots (H : Logged S L R D) {R' : List ℕ} (h : ∀ r ∈ L, r ∈ R' ↔ r ∈ R) :
    Logged S L R' D := by
  refine ⟨H.fresh, H.nodup, H.deleted, fun n => ?_, H.apart⟩
  rw [← H.live n]
  by_cases hn : n ∈ L
  · simp only [h n hn]
  · simp only [hn, false_and]

theorem Shared.of_roots (H : Shared p S R held A L lvl) {R' : List ℕ} (h : R'.Perm R) :
    Shared p S R' held A L lvl :=
  ⟨H.good.of_roots fun _ => h.mem_iff,
    fun c hc hcR => H.full c hc fun h' => hcR (h.mem_iff.mpr h'), H.items, H.logged.of_roots
      fun _ _ => h.mem_iff, h.nodup_iff.mpr H.nodup, fun t ht => H.map t (h.mem_iff.mp ht)⟩

theorem Items.pend {c : ℕ} (I : Items S L P held) (hc : c ∈ L) : Items S L (c :: P) held := by
  refine ⟨I.fresh, I.nodup, I.deleted, I.client, fun x hx => ?_⟩
  rw [List.count_cons_of_ne (by rintro rfl; exact hx hc)]
  exact I.stored x hx

theorem value_of_rows (h : ∀ m, (S'.node m).pointers = (S.node m).pointers) (hi : S'.item = S.item)
    (level n k : ℕ) : value S' level n k = value S level n k := by
  have hc : ∀ level n k, contents S' level n k = contents S level n k := by
    intro level
    induction level with
    | zero => exact fun _ _ => rfl
    | succ level ih =>
      intro n k
      simp only [contents, h, ih]
  rw [value, value, hc, hi]

/-- Without roots there are no live nodes: a chain of references would go up for ever. -/
theorem Good.eq_empty (G : Good S L lvl [] [] top) : L = ∅ := by
  have key : ∀ d, ∀ c ∈ L, top - lvl c = d → False := by
    intro d
    induction d using Nat.strong_induction_on with
    | _ d ih =>
      intro c hc hd
      obtain ⟨h1, h2⟩ := G.count c hc (by simp)
      rw [List.count_nil] at h1
      obtain ⟨n, hn, i, hi⟩ := exists_of_refs_pos (L := L) (c := c) (show 0 < refs L (slots S) c by
        have : refsTo S L c = (S.node c).refCount := by omega
        have h3 : refs L (slots S) c = (S.node c).refCount := this
        omega)
      have hnl := G.level n hn
      by_cases hl : 2 ≤ lvl n
      · have := (G.child n hn i c hi hl).2
        exact ih (top - lvl n) (by omega) n hn rfl
      · exact G.leaf n hn i c hi (by omega) hc
  exact Finset.eq_empty_of_forall_notMem fun c hc => key _ c hc rfl

/-! ### New trees and copies -/

theorem Shared.addRoot (H : Shared p S R held A L lvl) (h2 : 2 ≤ p.levels) {m : ℕ} {B : ℕ →
    Option T} (hm : m ∉ L)
    (hm0 : refsTo S L m = 0) (hmi : m ∉ S.newItems) (hmn : ¬ (m ∈ S.newNodes ∧ m ∉ S.deletedNodes))
    (hnext : S.next ≤ S'.next) (hlt : m < S'.next)
    (hold : ∀ c ∈ L, (S'.node c).pointers = (S.node c).pointers ∧
      (S'.node c).presentBits = (S.node c).presentBits ∧
      (S'.node c).refCount = (S.node c).refCount + hits (slots S' m) c)
    (hbits : ∀ i : Fin 32, (S'.node m).presentBits.getLsbD i = ((S'.node m).pointers i).isSome)
    (hcount : (S'.node m).refCount = 1)
    (hchild : ∀ i c, (S'.node m).pointers i = some c → c ∈ L ∧ lvl c + 1 = p.levels)
    (hlogs : S'.item = S.item ∧ S'.newNodes = S.newNodes ∧ S'.deletedNodes = S.deletedNodes ∧
      S'.newItems = S.newItems ∧ S'.deletedItems = S.deletedItems)
    (hB : ∀ k < 32 ^ p.levels, value S' p.levels m k = B k) :
    Shared p S' (m :: R) held (update A m B) (insert m L) (update lvl m p.levels) := by
  obtain ⟨hitem, hnn, hdn, hni, hdi⟩ := hlogs
  have hRL : ∀ r ∈ R, r ∈ L := fun r hr => (H.good.root r hr).1
  have hmR : m ∉ R := fun h => hm (hRL m h)
  have hhits : ∀ x, (x ∈ L → lvl x + 1 ≠ p.levels) → hits (slots S' m) x = 0 := fun x hx =>
    hits_eq_zero.mpr fun i hi => hx (hchild i x hi).1 (hchild i x hi).2
  have G₁ : Good S' (insert m L) (update lvl m p.levels) [m] R p.levels := by
    refine H.good.addNode hm (by simp) hm0 hnext hlt ⟨by omega, le_rfl⟩ hold ?_ hbits hcount ?_
    · intro r hr
      refine hhits r fun _ => ?_
      rw [(H.good.root r hr).2.1]
      omega
    · intro i c hi
      obtain ⟨hc, hcl⟩ := hchild i c hi
      exact ⟨lt_of_lt_of_le (H.good.fresh c hc) hnext, fun h => hm (h ▸ hc), fun _ => ⟨hc, hcl⟩,
        fun h => by omega⟩
  have hrefs : ∀ x, x ∉ L → refsTo S' (insert m L) x = refsTo S L x := by
    intro x hx
    unfold refsTo
    rw [refs_insert hm, hhits x (fun h => absurd h hx), Nat.zero_add]
    exact refs_congr fun n hn => (hold n hn).1
  refine ⟨G₁.toRoot (Finset.mem_insert_self m L) (update_self _ _ _) hmR (by simp), ?_, ?_, ?_,
    List.nodup_cons.mpr ⟨hmR, H.nodup⟩, ?_⟩
  · intro c hc hcR _
    simp only [List.mem_cons, not_or] at hcR
    have hcL := (Finset.mem_insert.mp hc).resolve_left hcR.1
    rw [(hold c hcL).2.1]
    exact H.full c hcL hcR.2 (by simp)
  · refine ⟨?_, ?_, ?_, ?_, ?_⟩
    · rw [hni]
      intro x hx
      obtain ⟨h3, h4⟩ := H.items.fresh x hx
      exact ⟨by omega, fun h => (Finset.mem_insert.mp h).elim (fun h => hmi (h ▸ hx)) h4⟩
    · rw [hni, hdi]
      exact H.items.nodup
    · rw [hni, hdi]
      exact H.items.deleted
    · rw [hni]
      exact H.items.client
    · intro x hx
      rw [Finset.mem_insert, not_or] at hx
      rw [hrefs x hx.2, hni, hdi]
      exact H.items.stored x hx.2
  · refine ⟨?_, ?_, ?_, ?_, by simp⟩
    · rw [hnn]
      exact fun n hn => lt_of_lt_of_le (H.logged.fresh n hn) hnext
    · rw [hnn, hdn]
      exact H.logged.nodup
    · rw [hnn, hdn]
      exact H.logged.deleted
    · intro n
      rw [hnn, hdn, Finset.mem_insert, List.mem_cons]
      by_cases hnm : n = m
      · subst hnm
        simpa using hmn
      · simpa [hnm] using H.logged.live n
  · intro t ht k hk
    by_cases htm : t = m
    · subst htm
      rw [update_self]
      exact hB k hk
    · have htR := (List.mem_cons.mp ht).resolve_left htm
      obtain ⟨h3, h4, -⟩ := H.good.root t htR
      have hrows : ∀ c ∈ L, lvl c ≤ p.levels → (S'.node c).pointers = (S.node c).pointers :=
        fun c hc _ => (hold c hc).1
      rw [update_of_ne htm, ← H.map t htR k hk, value, value,
        contents_congr H.good hrows le_rfl h3 h4, hitem]

theorem Shared.next_fresh (H : Shared p S R held A L lvl) :
    S.next ∉ L ∧ refsTo S L S.next = 0 ∧ S.next ∉ S.newItems ∧
    ¬ (S.next ∈ S.newNodes ∧ S.next ∉ S.deletedNodes) :=
  ⟨fun h => absurd (H.good.fresh _ h) (lt_irrefl _), H.good.refs_fresh le_rfl,
    fun h => absurd (H.items.fresh _ h).1 (lt_irrefl _),
      fun h => absurd (H.logged.fresh _ h.1) (lt_irrefl _)⟩

theorem value_empty (h : (S.node n).pointers = fun _ => none) (level k : ℕ) : value S level n k = none := by
  cases level with
  | zero => rfl
  | succ level => rw [value, contents, h]; rfl

theorem Shared.newTree (H : Shared p S R held A L lvl) (h2 : 2 ≤ p.levels) :
    ∃ L' lvl', Shared p (S.newTree).1 (S.next :: R) held (update A S.next fun _ => none) L' lvl' := by
  obtain ⟨hm, hm0, hmi, hmn⟩ := H.next_fresh
  have hnode : ∀ m, (S.newTree).1.node m = if m = S.next then .empty else S.node m := fun m => by
    simp [Store.newTree]
  have hrow : slots (S.newTree).1 S.next = fun _ => none := by
    unfold slots
    rw [hnode, if_pos rfl]
    rfl
  refine ⟨_, _, H.addRoot h2 hm hm0 hmi hmn (Nat.le_succ _) (Nat.lt_succ_self _) ?_ ?_ ?_ ?_
    ⟨rfl, rfl, rfl, rfl, rfl⟩ ?_⟩
  · intro c hc
    rw [hrow, hnode, if_neg (by rintro rfl; exact hm hc), hits_none]
    exact ⟨rfl, rfl, rfl⟩
  · intro i
    rw [hnode, if_pos rfl]
    simp [BitTreeNode.empty]
  · rw [hnode, if_pos rfl]
    rfl
  · intro i c hi
    rw [hnode, if_pos rfl] at hi
    simp [BitTreeNode.empty] at hi
  · exact fun k _ => value_empty hrow _ _

theorem Shared.copyTree (H : Shared p S R held A L lvl) (h2 : 2 ≤ p.levels) (ht : t ∈ R) :
    ∃ L' lvl', Shared p (S.copyTree t).1 (S.next :: R) held (update A S.next (A t)) L' lvl' := by
  obtain ⟨hm, hm0, hmi, hmn⟩ := H.next_fresh
  obtain ⟨htL, htl, -⟩ := H.good.root t ht
  generalize hS' : (S.copyTree t).1 = S'
  have hnode : ∀ m, S'.node m = if m = S.next then { S.node t with refCount := 1 } else
      { S.node m with refCount := (S.node m).refCount + hits (slots S t) m } := by
    intro m
    rw [← hS']
    simp [Store.copyTree, copyNode_eq]
  have hlogs : S'.next = S.next + 1 ∧ S'.item = S.item ∧ S'.newNodes = S.newNodes ∧
      S'.deletedNodes = S.deletedNodes ∧
      S'.newItems = S.newItems ∧ S'.deletedItems = S.deletedItems := by
    rw [← hS']
    simp [Store.copyTree, copyNode_eq]
  have hrow : slots S' S.next = slots S t := by
    unfold slots
    rw [hnode, if_pos rfl]
  have hold : ∀ c ∈ L, (S'.node c).pointers = (S.node c).pointers := fun c hc => by
    rw [hnode, if_neg (by rintro rfl; exact hm hc)]
  refine ⟨_, _, H.addRoot h2 hm hm0 hmi hmn (by omega) (by omega) ?_ ?_ ?_ ?_ hlogs.2 ?_⟩
  · intro c hc
    rw [hrow, hnode, if_neg (by rintro rfl; exact hm hc)]
    exact ⟨rfl, rfl, rfl⟩
  · intro i
    rw [hnode, if_pos rfl]
    exact H.good.bits t htL i
  · rw [hnode, if_pos rfl]
  · intro i c hi
    rw [hnode, if_pos rfl] at hi
    rw [← htl]
    exact H.good.child t htL i c hi (by omega)
  · intro k hk
    rw [← H.map t ht k hk]
    obtain ⟨l, hl⟩ : ∃ l, p.levels = l + 2 := ⟨p.levels - 2, by omega⟩
    rw [hl, value_node, value_node, show (S'.node S.next).pointers = (S.node t).pointers from hrow]
    cases hc : (S.node t).pointers (getLevelIndex k (l + 2)) with
    | none => rfl
    | some c =>
      obtain ⟨hcL, hcl⟩ := H.good.child t htL _ c hc (by omega)
      rw [Option.bind_some, Option.bind_some, value, value,
        contents_congr H.good (fun c hc (_ : lvl c ≤ l + 1) => hold c hc) le_rfl hcL (by omega), hlogs.2.1]

/-! ### Destruction -/

theorem Shared.destroyTree (hp : p.Valid) (H : Shared p S R held A L lvl) (ht : t ∈ R) :
    ∃ L', Shared p (S.destroyTree p t) (R.erase t) held A L' lvl ∧ t ∉ L' ∧
      refsTo (S.destroyTree p t) L' t = 0 ∧
      t < (S.destroyTree p t).next ∧ t ∉ (S.destroyTree p t).newItems ∧
      ¬ (t ∈ (S.destroyTree p t).newNodes ∧ t ∉ (S.destroyTree p t).deletedNodes) := by
  obtain ⟨level, hl⟩ := hp.exists_succ
  obtain ⟨htL, htl, -⟩ := H.good.root t ht
  have htR : t ∉ R.erase t := H.nodup.not_mem_erase
  have G₀ : Good S L lvl [] (t :: R.erase t) p.levels :=
    H.good.of_roots fun r => (List.perm_cons_erase ht).symm.mem_iff
  have G₁ := G₀.unroot htR
  obtain ⟨L', -, F⟩ := free_spec (Z := R) level S L t [] (hl ▸ G₁) htL htR (by omega)
    fun r hr _ => by rw [(H.good.root r hr).2.1, hl]
  rw [if_neg (fun h => h.2 ht), ← hl] at F
  have hS' : S.destroyTree p t = (S.free true p.levels t).2 := by
    unfold Store.destroyTree freeNode
    simp
  rw [hS']
  generalize (S.free true p.levels t).2 = S' at F ⊢
  have I' := F.items held (H.items.pend htL)
  have hti : t ∉ S'.newItems := by
    rw [F.same.2.2]
    exact fun h => (H.items.fresh t h).2 htL
  -- a live node that is no root has a reference, but nothing refers to the top level
  have htL' : t ∉ L' := fun h => by
    have h1 := F.good.count t h htR
    rw [F.good.refs_top h htl, List.count_nil] at h1
    omega
  have hlog : Logged S' L' R [] := F.logged [] H.logged
  refine ⟨L', ⟨F.good, ?_, I', ?_, H.nodup.erase t, ?_⟩, htL', ?_, ?_, hti, ?_⟩
  · intro c hc hcR _
    rw [(F.rows c).2]
    refine H.full c (F.sub hc) (fun h => hcR ?_) (by simp)
    exact (List.mem_erase_of_ne (show c ≠ t from fun h => htL' (h ▸ hc))).mpr h
  · exact hlog.of_roots fun r hr => List.mem_erase_of_ne fun h => htL' (h ▸ hr)
  · intro s hs k hk
    rw [value_of_rows (fun m => (F.rows m).1) F.same.2.1, H.map s (List.mem_of_mem_erase hs) k hk]
  · have h0 := I'.stored t htL'
    rwa [if_neg (fun h => hti h.1)] at h0
  · rw [F.same.1]
    exact H.good.fresh t htL
  · intro h
    rcases (hlog.live t).mpr h with h | h
    · exact htL' h.1
    · simp at h

theorem Shared.clear (hp : p.Valid) (h2 : 2 ≤ p.levels) (H : Shared p S R held A L lvl) (ht : t ∈ R) :
    ∃ L' lvl', Shared p (S.clear p t) R held (update A t fun _ => none) L' lvl' := by
  obtain ⟨L', H', htL, h0, hlt, hti, htn⟩ := H.destroyTree hp ht
  have hS : S.clear p t = (S.destroyTree p t).setNode t .empty := rfl
  rw [hS]
  generalize S.destroyTree p t = S' at *
  have hrow : slots (S'.setNode t .empty) t = fun _ => none := by
    unfold slots
    rw [setNode_node, if_pos rfl]
    rfl
  have H'' : Shared p (S'.setNode t .empty) (t :: R.erase t) held (update A t fun _ => none) (insert t L')
      (update lvl t p.levels) := by
    refine H'.addRoot h2 htL h0 hti htn le_rfl hlt ?_ ?_ ?_ ?_ ⟨rfl, rfl, rfl, rfl, rfl⟩ fun k _ =>
      value_empty hrow _ _
    · intro c hc
      rw [hrow, setNode_node, if_neg (by rintro rfl; exact htL hc), hits_none]
      exact ⟨rfl, rfl, rfl⟩
    · intro i
      rw [setNode_node, if_pos rfl]
      simp [BitTreeNode.empty]
    · rw [setNode_node, if_pos rfl]
      rfl
    · intro i c hi
      rw [setNode_node, if_pos rfl] at hi
      simp [BitTreeNode.empty] at hi
  exact ⟨_, _, H''.of_roots (List.perm_cons_erase ht)⟩

/-! ### Edits -/

/-- The items of the client after an edit: the old one comes, the new one goes. -/
def heldAfter (held : List ℕ) (v prev : Option ℕ) : List ℕ := prev.toList ++ v.elim held held.erase

/-- What a live tree stores has a reference. -/
theorem Good.refs_contents (G : Good S L lvl P R top) : ∀ {level n k x : ℕ}, n ∈ L → lvl n = level →
    contents S level n k = some x → 0 < refsTo S L x
  | 0, _, _, _, _, _, h => by simp [contents] at h
  | level + 1, n, k, x, hn, hl, h => by
    simp only [contents] at h
    cases hc : (S.node n).pointers (getLevelIndex k (level + 1)) with
    | none => simp [hc] at h
    | some c =>
      rw [hc, Option.bind_some] at h
      by_cases h0 : level = 0
      · simp only [h0, ite_true, Option.some.injEq] at h
        exact refs_pos hn (h ▸ hc)
      · simp only [h0, ite_false] at h
        obtain ⟨hcL, hcl⟩ := G.child n hn _ c hc (by omega)
        exact G.refs_contents hcL (show lvl c = level by omega) h

theorem Items.of_contents (I : Items S L [] held) (G : Good S L lvl P R top) {level k x : ℕ}
    (hn : n ∈ L) (hl : lvl n = level) (h : contents S level n k = some x) :
    x ∉ L ∧ x ∈ S.newItems ∧ x ∉ S.deletedItems ∧ x ∉ held ∧ refsTo S L x = 1 := by
  have hx := (G.contents_not_live hn hl h).1
  have h0 := I.stored x hx
  have hpos := G.refs_contents hn hl h
  rw [List.count_nil] at h0
  by_cases hs : x ∈ S.newItems ∧ x ∉ S.deletedItems ∧ x ∉ held
  · rw [if_pos hs] at h0
    exact ⟨hx, hs.1, hs.2.1, hs.2.2, h0⟩
  · rw [if_neg hs] at h0
    omega

theorem Items.put (I : Items S L [] held) (G : Good S L lvl [] R top) {level index : ℕ}
    {v prev : Option ℕ} {E : List ℕ} (hn : n ∈ L) (hl : lvl n = level)
    (W : PutResult S S' L L' lvl lvl' R top level n index v prev E)
    (hv : ∀ x, v = some x → x ∈ held) : Items S' L' [] (heldAfter held v prev) := by
  have hprev : ∀ x, prev = some x → x ∉ L ∧ x ∈ S.newItems ∧ x ∉ S.deletedItems ∧ x ∉ held ∧
      refsTo S L x = 1 :=
    fun x hx => I.of_contents G hn hl (W.result.symm.trans hx)
  have hheld : ∀ x, x ∈ heldAfter held v prev ↔ prev = some x ∨ (x ∈ held ∧ v ≠ some x) := by
    intro x
    unfold heldAfter
    rw [List.mem_append, Option.mem_toList]
    cases v with
    | none => simp
    | some y =>
      rw [Option.elim_some, I.nodup.2.2.mem_erase_iff]
      simp [and_comm, eq_comm]
  obtain ⟨-, hnew, hdel⟩ := W.items
  have hnext := W.next
  refine ⟨?_, ?_, ?_, ?_, ?_⟩
  · rw [hnew]
    intro x hx
    obtain ⟨h1, h2⟩ := I.fresh x hx
    exact ⟨by omega, fun h => (W.new x h).elim h2 (by omega)⟩
  · rw [hnew, hdel]
    refine ⟨I.nodup.1, I.nodup.2.1, ?_⟩
    unfold heldAfter
    have hrest : (v.elim held held.erase).Nodup := by
      cases v with
      | none => exact I.nodup.2.2
      | some y => exact I.nodup.2.2.erase y
    cases prev with
    | none => exact hrest
    | some y =>
      refine List.nodup_cons.mpr ⟨fun h => (hprev y rfl).2.2.2.1 ?_, hrest⟩
      cases v with
      | none => exact h
      | some z => exact List.mem_of_mem_erase h
  · rw [hnew, hdel]
    intro x hx
    refine ⟨(I.deleted x hx).1, fun h => ?_⟩
    rcases (hheld x).mp h with h | h
    · exact (hprev x h).2.2.1 hx
    · exact (I.deleted x hx).2 h.1
  · rw [hnew]
    intro x hx
    rcases (hheld x).mp hx with h | h
    · exact (hprev x h).2.1
    · exact I.client x h.1
  · intro x hx
    rw [hnew, hdel, List.count_nil]
    by_cases hxL : x ∈ L
    · rw [W.dead x hxL hx, if_neg (fun h => (I.fresh x h.1).2 hxL)]
    · have h1 := W.refs x hxL hx
      have h2 := I.stored x hxL
      rw [List.count_nil] at h2
      simp only [hheld x]
      by_cases hp : prev = some x
      · -- the old item
        obtain ⟨-, g1, g2, g3, g4⟩ := hprev x hp
        rw [if_pos hp, if_neg (fun h => g3 (hv x h))] at h1
        rw [if_neg (fun h => h.2.2 (.inl hp))]
        omega
      · rw [if_neg hp] at h1
        by_cases hvx : v = some x
        · -- the new item
          have g := hv x hvx
          have g' : x ∉ S.deletedItems := fun h => (I.deleted x h).2 g
          rw [if_pos hvx] at h1
          rw [if_neg (fun h => h.2.2 g)] at h2
          rw [if_pos ⟨I.client x g, g', fun h => h.elim hp fun h => h.2 hvx⟩]
          omega
        · rw [if_neg hvx] at h1
          simp only [hp, hvx, false_or, ne_eq, not_false_eq_true, and_true]
          omega

/-- **An edit** of one tree of the family. -/
theorem Shared.edit (hp : p.Valid) (H : Shared p S R held A L lvl) (ht : t ∈ R) {index k : ℕ}
    (hk : p.key index = some k) {v : Option ℕ} (hv : ∀ x, v = some x → x ∈ held) :
    (S.edit p t index v).2.map (S.edit p t index v).1.item = A t k ∧
    ∃ L' lvl', Shared p (S.edit p t index v).1 R (heldAfter held v (S.edit p t index v).2)
      (update A t (update (A t) k (v.map S.item))) L' lvl' := by
  obtain ⟨level, hl⟩ := hp.exists_succ
  have hlt := p.key_lt hk
  obtain ⟨htL, htl, ht1, -⟩ := H.good.root t ht
  have hS : S.edit p t index v = finish (S.getEntryRef t k (actionOf v) (level + 1) .rootNode) v := by
    unfold Store.edit
    rw [hp.adjustIndex_eq, hk, hl]
  have hedit : actionOf v ≠ .lookup := by
    unfold actionOf
    split <;> simp
  -- first the path is made private, then it is edited
  obtain ⟨t', L₁, lvl₁, C, htL₁, htl₁, hd, ht₁, hpriv, -, heq⟩ :=
    privatise_spec t k H.good htL (htl.trans hl)
      (show RefOk S L lvl R t (level + 1) t .rootNode from ⟨rfl, ht⟩)
  obtain rfl : t = t' := Option.some.inj hd
  rw [hS, heq _ hedit]
  generalize privatise t k (level + 1) .rootNode S = S₁ at *
  have F₁ : Full S₁ L₁ R [t] := fun c hc hcR _ => C.full H.full c hc hcR (by simp)
  have I₁ := C.items held H.items
  have hv₁ : ∀ x, v = some x → x ∉ L₁ ∧ x < S₁.next := fun x hx =>
    have h := I₁.fresh x (I₁.client x (hv x hx))
    ⟨h.2, h.1⟩
  obtain ⟨L₂, lvl₂, W⟩ := put_spec C.good F₁ htL₁ htl₁ hpriv ht hv₁
  rw [(getEntryRef_put C.good F₁ htL₁ htl₁ hd ht₁ hpriv ht hv₁).1]
  generalize put t k v (level + 1) t S₁ = w at W ⊢
  obtain ⟨S₂, prev⟩ := w
  have hvalue₁ : ∀ s ∈ R, ∀ j < 32 ^ p.levels, value S₁ (level + 1) s j = A s j := by
    intro s hs j hj
    have h := C.values s (H.good.root s hs).1 j
    rw [(H.good.root s hs).2.1] at h
    rw [← hl, h, H.map s hs j hj]
  have hitem : ∀ x, v = some x → S₂.item x = S.item x := fun x hx => by
    rw [W.items.1, C.item x (H.items.fresh x (H.items.client x (hv x hx))).1]
  refine ⟨?_, L₂, lvl₂, W.good, ?_, I₁.put C.good htL₁ htl₁ W hv, W.logged (C.logged H.logged), H.nodup, ?_⟩
  · rw [show (S₂, prev).1.item = S₁.item from W.items.1, show (S₂, prev).2 = _ from W.result]
    exact hvalue₁ t ht k hlt
  · exact fun c hc hcR _ => W.full c hc hcR (by simpa using fun h : c = t => hcR (h ▸ ht))
  · intro s hs j hj
    rw [hl]
    by_cases hst : s = t
    · subst hst
      rw [update_self, value, W.updated, update_apply, ← hl, Nat.mod_eq_of_lt hj, Nat.mod_eq_of_lt hlt, hl]
      split
      · cases v with
        | none => rfl
        | some x => exact congrArg some (hitem x rfl)
      · rw [W.items.1]
        exact hvalue₁ s hs j hj
    · have hsL := C.sub (H.good.root s hs).1
      have hsl : lvl₁ s = level + 1 := by
        rw [C.levels s (H.good.root s hs).1, (H.good.root s hs).2.1, hl]
      rw [update_of_ne hst, value, W.frame s hsL hsl hst, W.items.1]
      exact hvalue₁ s hs j hj

/-! ### Runs -/

/-- A family of trees, with the items that are in the client's hands. -/
structure Family (T : Type u) where
  store : Store T
  trees : List ℕ
  held : List ℕ

inductive FamilyOp (T : Type u)
  | newItem (v : T)
  | deleteItem (item : ℕ)
  | newTree
  | copy (t : ℕ)
  | clear (t : ℕ)
  | destroy (t : ℕ)
  | on (t : ℕ) (op : Op)

/-- The items of the client after an operation that returned `r`. -/
def Op.heldAfter (p : Params) (held : List ℕ) (r : Option ℕ) : Op → List ℕ
  | insert index item => if p.key index = none then held else BitTree.heldAfter held (some item) r
  | remove _ => BitTree.heldAfter held none r
  | _ => held

namespace Family

def exec (p : Params) (s : Family T) : FamilyOp T → Family T
  | .newItem v => { s with store := (s.store.newItem v).1, held := (s.store.newItem v).2 :: s.held }
  | .deleteItem item => { s with store := s.store.deleteItem item, held := s.held.erase item }
  | .newTree => { s with store := (s.store.newTree).1, trees := (s.store.newTree).2 :: s.trees }
  | .copy t => { s with store := (s.store.copyTree t).1, trees := (s.store.copyTree t).2 :: s.trees }
  | .clear t => { s with store := s.store.clear p t }
  | .destroy t => { s with store := s.store.destroyTree p t, trees := s.trees.erase t }
  | .on t op =>
    { s with
      store := (op.exec p t s.store).1
      held := op.heldAfter p s.held (op.exec p t s.store).2 }

/-- Operations are on trees and items that exist. -/
def Allowed (s : Family T) : FamilyOp T → Prop
  | .newItem _ => True
  | .deleteItem item => item ∈ s.held
  | .newTree => True
  | .copy t => t ∈ s.trees
  | .clear t => t ∈ s.trees
  | .destroy t => t ∈ s.trees
  | .on t op => t ∈ s.trees ∧ op.Allowed s.held

/-- The maps: an operation on a tree is one on its own map, and a copy begins with the map of its
source. -/
def after (p : Params) (s : Family T) (A : ℕ → ℕ → Option T) : FamilyOp T → ℕ → ℕ → Option T
  | .newTree => update A (s.store.newTree).2 fun _ => none
  | .copy t => update A (s.store.copyTree t).2 (A t)
  | .clear t => update A t fun _ => none
  | .on t op => update A t (op.after p s.store.item (A t))
  | _ => A

/-- The nodes that exist: the roots, and what was allocated and not deleted. -/
def live (s : Family T) : Finset ℕ :=
  (s.trees ++ s.store.newNodes.filter fun n => n ∉ s.store.deletedNodes).toFinset

def destroyAll (p : Params) (s : Family T) : Family T := s.trees.foldl (fun s t => s.exec p (.destroy t)) s

end Family

/-- The runs of a family that begins with one tree, each with the maps that the same operations
build. -/
inductive FamilyRuns (p : Params) : Family T → (ℕ → ℕ → Option T) → Prop
  | start (item : ℕ → T) : FamilyRuns p
      ⟨(Store.newTree ⟨fun _ => .empty, item, 0, [], [], [], []⟩).1, [0], []⟩ fun _ _ => none
  | step {s : Family T} {A : ℕ → ℕ →
      Option T} (h : FamilyRuns p s A) (op : FamilyOp T) (allowed : s.Allowed op) :
      FamilyRuns p (s.exec p op) (s.after p A op)

theorem Shared.newItem (H : Shared p S R held A L lvl) (v : T) :
    Shared p (S.newItem v).1 R (S.next :: held) A L lvl := by
  obtain ⟨hm, hm0, hmi, -⟩ := H.next_fresh
  have hheld : S.next ∉ held := fun h => hmi (H.items.client _ h)
  have hdel : S.next ∉ S.deletedItems := fun h => hmi (H.items.deleted _ h).1
  refine ⟨H.good.newItem v, H.full, ⟨?_, ?_, ?_, ?_, ?_⟩, ?_, H.nodup, ?_⟩
  · intro x hx
    rcases List.mem_cons.mp hx with rfl | hx
    · exact ⟨Nat.lt_succ_self _, hm⟩
    · exact ⟨Nat.lt_succ_of_lt (H.items.fresh x hx).1, (H.items.fresh x hx).2⟩
  · exact ⟨List.nodup_cons.mpr ⟨hmi, H.items.nodup.1⟩, H.items.nodup.2.1,
      List.nodup_cons.mpr ⟨hheld, H.items.nodup.2.2⟩⟩
  · intro x hx
    obtain ⟨h1, h2⟩ := H.items.deleted x hx
    exact ⟨List.mem_cons_of_mem _ h1, fun h => (List.mem_cons.mp h).elim (fun h => hdel (h ▸ hx)) h2⟩
  · intro x hx
    rcases List.mem_cons.mp hx with rfl | hx
    · exact List.mem_cons_self
    · exact List.mem_cons_of_mem _ (H.items.client x hx)
  · intro x hx
    show refsTo S L x + [].count x = if x ∈ S.next :: S.newItems ∧ x ∉ S.deletedItems ∧
        x ∉ S.next :: held then 1 else 0
    by_cases hxn : x = S.next
    · subst hxn
      simpa using hm0
    · simpa [hxn] using H.items.stored x hx
  · exact ⟨fun n hn => Nat.lt_succ_of_lt (H.logged.fresh n hn), H.logged.nodup, H.logged.deleted,
      H.logged.live, H.logged.apart⟩
  · intro t ht k hk
    rw [← H.map t ht k hk, value, value, contents_newItem]
    cases hx : contents S p.levels t k with
    | none => rfl
    | some x =>
      obtain ⟨h1, h2, -⟩ := H.good.root t ht
      have hlt := (H.good.contents_not_live h1 h2 hx).2
      exact congrArg some (update_of_ne (by omega) _ _)

theorem Shared.deleteItem (H : Shared p S R held A L lvl) {x : ℕ} (hx : x ∈ held) :
    Shared p (S.deleteItem x) R (held.erase x) A L lvl := by
  have I := H.items
  have hnd := I.nodup.2.2
  refine ⟨H.good.of_node_eq rfl rfl, H.full,
    ⟨I.fresh, ?_, ?_, fun y hy => I.client y (List.mem_of_mem_erase hy), ?_⟩, ⟨H.logged.fresh,
      H.logged.nodup, H.logged.deleted, H.logged.live, H.logged.apart⟩, H.nodup, ?_⟩
  · exact ⟨I.nodup.1, List.nodup_cons.mpr ⟨fun h => (I.deleted x h).2 hx, I.nodup.2.1⟩, hnd.erase x⟩
  · intro y hy
    rcases List.mem_cons.mp hy with rfl | hy
    · exact ⟨I.client y hx, hnd.not_mem_erase⟩
    · exact ⟨(I.deleted y hy).1, fun h => (I.deleted y hy).2 (List.mem_of_mem_erase h)⟩
  · intro y hy
    show refsTo S L y + [].count y = if y ∈ S.newItems ∧ y ∉ x :: S.deletedItems ∧
        y ∉ held.erase x then 1 else 0
    have h0 := I.stored y hy
    by_cases hyx : y = x
    · subst hyx
      rw [if_neg (fun h => h.2.2 hx)] at h0
      rw [if_neg (fun h => h.2.1 (by simp)), h0]
    · rw [h0]
      simp [hyx, List.mem_erase_of_ne hyx]
  · intro t ht k hk
    have hrows : ∀ m, ((S.deleteItem x).node m).pointers = (S.node m).pointers := fun _ => rfl
    rw [← H.map t ht k hk, value_of_rows hrows rfl]

/-- **One operation of a tree**, with its answer. -/
theorem Shared.on (hp : p.Valid) (H : Shared p S R held A L lvl) (ht : t ∈ R) (op : Op)
    (hop : op.Allowed held) :
    op.Answer p (A t) ((op.exec p t S).2.map (op.exec p t S).1.item) ∧
    ∃ L' lvl', Shared p (op.exec p t S).1 R (op.heldAfter p held (op.exec p t S).2)
      (update A t (op.after p S.item (A t))) L' lvl' := by
  have hsame : Shared p S R held (update A t (A t)) L lvl := by
    rw [update_eq_self]
    exact H
  have hnone : ∀ (b : Bool) (index : ℕ), p.key index = none → (S.query b p t index).map S.item = none := by
    intro b index hk
    have h := query_spec hp H.good H.full ht b index
    simp only [hk] at h
    rw [h, Option.map_none]
  have hnear : ∀ (b : Bool) (index k : ℕ), p.key index = some k →
      Nearest b (A t) (32 ^ p.levels) k ((S.query b p t index).map S.item) := by
    intro b index k hk
    have h := query_spec hp H.good H.full ht b index
    simp only [hk] at h
    exact (h.map S.item).congr fun j hj => (H.map t ht j hj).symm
  cases op with
  | insert index item =>
    simp only [Op.Answer, Op.exec, Op.after, Op.heldAfter, insert_eq_edit]
    cases hk : p.key index with
    | none =>
      rw [show S.edit p t index (some item) = (S, none) by rw [Store.edit, hp.adjustIndex_eq, hk]]
      exact ⟨rfl, L, lvl, hsame⟩
    | some k => exact H.edit hp ht hk fun x hx => by rw [← Option.some.inj hx]; exact hop
  | remove index =>
    simp only [Op.Answer, Op.exec, Op.after, Op.heldAfter, remove_eq_edit]
    cases hk : p.key index with
    | none =>
      rw [show S.edit p t index none = (S, none) by rw [Store.edit, hp.adjustIndex_eq, hk]]
      exact ⟨rfl, L, lvl, hsame⟩
    | some k => exact H.edit hp ht hk (by simp)
  | lookupExact index =>
    refine ⟨?_, L, lvl, hsame⟩
    simp only [Op.Answer, Op.exec, lookupExact_eq hp]
    cases hk : p.key index with
    | none => rfl
    | some k => exact H.map t ht k (p.key_lt hk)
  | lookupFloor index =>
    refine ⟨?_, L, lvl, hsame⟩
    simp only [Op.Answer, Op.exec]
    cases hk : p.key index with
    | none => exact hnone true index hk
    | some k => exact hnear true index k hk
  | lookupCeil index =>
    refine ⟨?_, L, lvl, hsame⟩
    simp only [Op.Answer, Op.exec]
    cases hk : p.key index with
    | none => exact hnone false index hk
    | some k => exact hnear false index k hk

variable {s : Family T}

theorem Shared.exec (hp : p.Valid) (h2 : 2 ≤ p.levels) (H : Shared p s.store s.trees s.held A L lvl)
    (op : FamilyOp T) (hop : s.Allowed op) :
    ∃ L' lvl', Shared p (s.exec p op).store (s.exec p op).trees (s.exec p op).held (s.after p A op)
      L' lvl' := by
  cases op with
  | newItem v => exact ⟨L, lvl, H.newItem v⟩
  | deleteItem item => exact ⟨L, lvl, H.deleteItem hop⟩
  | newTree => exact H.newTree h2
  | copy t =>
    have hnext : (s.store.copyTree t).2 = s.store.next := by simp [Store.copyTree, copyNode_eq]
    simp only [Family.exec, Family.after, hnext]
    exact H.copyTree h2 hop
  | clear t => exact H.clear hp h2 hop
  | destroy t =>
    obtain ⟨L', H', -⟩ := H.destroyTree hp hop
    exact ⟨L', lvl, H'⟩
  | on t op => exact (H.on hp hop.1 op hop.2).2

theorem FamilyRuns.shared (hp : p.Valid) (h2 : 2 ≤ p.levels) (h : FamilyRuns p s A) :
    ∃ L lvl, Shared p s.store s.trees s.held A L lvl := by
  induction h with
  | start item =>
    have H : Shared p (⟨fun _ => .empty, item, 0, [], [], [], []⟩ : Store T) [] []
        (fun _ _ => none) ∅ fun _ => 0 :=
      ⟨⟨by simp, by simp, by simp, by simp, by simp, by simp, by simp, by simp, by simp⟩,
        fun c hc => by simp at hc, ⟨by simp, by simp, by simp, by simp, by simp [refs]⟩,
          ⟨by simp, by simp, by simp, by simp, by simp⟩, .nil, by simp⟩
    simpa using H.newTree h2
  | step _ op allowed ih =>
    obtain ⟨L, lvl, H⟩ := ih
    exact H.exec hp h2 op allowed

theorem Shared.live_eq (H : Shared p s.store s.trees s.held A L lvl) : s.live = L := by
  ext n
  have h := H.logged.live n
  simp only [List.not_mem_nil, or_false] at h
  rw [Family.live, List.mem_toFinset, List.mem_append, List.mem_filter, decide_eq_true_iff, ← h]
  constructor
  · rintro (hn | hn)
    · exact (H.good.root n hn).1
    · exact hn.1
  · intro hn
    by_cases hR : n ∈ s.trees
    · exact .inl hR
    · exact .inr ⟨hn, hR⟩

theorem FamilyRuns.destroyAll (h : FamilyRuns p s A) (hnd : s.trees.Nodup) :
    FamilyRuns p (s.destroyAll p) A ∧ (s.destroyAll p).trees = [] := by
  unfold Family.destroyAll
  generalize hts : s.trees = ts
  induction ts generalizing s with
  | nil => exact ⟨h, hts⟩
  | cons t ts ih =>
    rw [List.foldl_cons]
    have htrees : (s.exec p (.destroy t)).trees = ts := by simp [Family.exec, hts]
    refine ih (h.step (.destroy t) (show t ∈ s.trees by simp [hts])) ?_ htrees
    rw [htrees]
    rw [hts] at hnd
    exact (List.nodup_cons.mp hnd).2

/-- Without trees everything that was allocated is deleted, or in the client's hands. -/
theorem Shared.all_deleted (H : Shared p S [] held A L lvl) :
    S.deletedNodes.Perm S.newNodes ∧ (S.deletedItems ++ held).Perm S.newItems := by
  obtain rfl := H.good.eq_empty
  constructor
  · refine (List.perm_ext_iff_of_nodup H.logged.nodup.2 H.logged.nodup.1).mpr fun n =>
      ⟨H.logged.deleted n, fun hn => ?_⟩
    by_contra hd
    simpa using (H.logged.live n).mpr ⟨hn, hd⟩
  · have hnd : (S.deletedItems ++ held).Nodup :=
      List.nodup_append'.mpr ⟨H.items.nodup.2.1, H.items.nodup.2.2,
        fun x hx h => (H.items.deleted x hx).2 h⟩
    refine (List.perm_ext_iff_of_nodup hnd H.items.nodup.1).mpr fun x => ?_
    rw [List.mem_append]
    constructor
    · rintro (hx | hx)
      · exact (H.items.deleted x hx).1
      · exact H.items.client x hx
    · intro hx
      by_contra hc
      rw [not_or] at hc
      have h0 := H.items.stored x (by simp)
      rw [if_pos ⟨hx, hc.1, hc.2⟩] at h0
      simp [refs] at h0

/-- **Independent maps.**  In every run of a family: each tree answers as its own map; the count of
every node that is no root is the number of slots that point to it; whatever a tree stores is an
item that exists, in one slot only; and after the destruction of all trees every node and every item
that no client has was deleted once. -/
theorem independent_maps (hp : p.Valid) (h2 : 2 ≤ p.levels) (h : FamilyRuns p s A) :
    (∀ t ∈ s.trees, ∀ op : Op, op.Allowed s.held →
      op.Answer p (A t) ((op.exec p t s.store).2.map (op.exec p t s.store).1.item)) ∧
    (∀ n ∈ s.live, n ∉ s.trees → (s.store.node n).refCount = refs s.live (slots s.store) n) ∧
    (∀ t ∈ s.trees, ∀ k x, contents s.store p.levels t k = some x →
      x ∈ s.store.newItems ∧ x ∉ s.store.deletedItems ∧ x ∉ s.held ∧ refs s.live (slots s.store) x = 1) ∧
    (∀ x ∈ s.store.newItems, x ∉ s.store.deletedItems → x ∉ s.held → refs s.live (slots s.store) x = 1) ∧
    (s.destroyAll p).trees = [] ∧
    (s.destroyAll p).store.newNodes.Nodup ∧
    (s.destroyAll p).store.deletedNodes.Perm (s.destroyAll p).store.newNodes ∧
    (s.destroyAll p).store.newItems.Nodup ∧
    ((s.destroyAll p).store.deletedItems ++ (s.destroyAll p).held).Perm
      (s.destroyAll p).store.newItems := by
  obtain ⟨L, lvl, H⟩ := h.shared hp h2
  obtain ⟨hall, hnil⟩ := h.destroyAll H.nodup
  obtain ⟨L', lvl', H'⟩ := hall.shared hp h2
  rw [hnil] at H'
  obtain ⟨hnodes, hitems⟩ := H'.all_deleted
  rw [H.live_eq]
  refine ⟨fun t ht op hop => (H.on hp ht op hop).1, ?_, ?_, ?_, hnil, H'.logged.nodup.1, hnodes,
    H'.items.nodup.1, hitems⟩
  · intro n hn hR
    simpa using (H.good.count n hn hR).1
  · intro t ht k x hx
    obtain ⟨h3, h4, -⟩ := H.good.root t ht
    exact (H.items.of_contents H.good h3 h4 hx).2
  · intro x hx hd hh
    have h0 := H.items.stored x (H.items.fresh x hx).2
    rw [if_pos ⟨hx, hd, hh⟩] at h0
    simpa using h0

/-- An entry in the tree `0`, a copy of the tree at the address `5`, and the entry removed from the
copy. -/
def copyThenRemove : Family ℕ :=
  let s : Family ℕ := ⟨emptyStore.newTree.1, [0], []⟩
  (((s.exec mappingParams (.newItem 7)).exec mappingParams (.on 0 (.insert 0x80001000 1))).exec
    mappingParams (.copy 0)).exec mappingParams (.on 5 (.remove 0x80001000))

theorem independent_maps_copy_then_remove :
    ∃ A, FamilyRuns mappingParams copyThenRemove A ∧ copyThenRemove.trees = [5, 0] ∧
      copyThenRemove.store.lookupExact mappingParams 0 0x80001000 = some 1 ∧
      copyThenRemove.store.lookupExact mappingParams 5 0x80001000 = none ∧
      (copyThenRemove.destroyAll mappingParams).store.deletedNodes.Perm
        (copyThenRemove.destroyAll mappingParams).store.newNodes := by
  have h₁ := (FamilyRuns.start (p := mappingParams) fun _ => 0).step (.newItem 7) trivial
  have h₂ := h₁.step (.on 0 (.insert 0x80001000 1)) ⟨by decide, show 1 ∈ [1] by decide⟩
  have h₃ := h₂.step (.copy 0) (show 0 ∈ [0] by decide)
  have h₄ := h₃.step (.on 5 (.remove 0x80001000)) ⟨by decide, trivial⟩
  exact ⟨_, h₄, by decide, by decide, by decide,
    (independent_maps ⟨by decide, by decide⟩ (by decide) h₄).2.2.2.2.2.2.1⟩

end GheithOS.BitTree
