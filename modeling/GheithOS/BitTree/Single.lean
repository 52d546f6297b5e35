import GheithOS.BitTree.Entry

/-!
# GheithOS.BitTree.Single — one tree is an ordered map

A tree that was never copied shares nothing, so an edit meets no node to copy and the map it stores
is a map of addresses: `insert` and `remove` update it at one key, and the queries read it
(`ordered_map`).  The first part, the operations in terms of `contents`, does not need a single
tree.
-/

namespace GheithOS.BitTree

open Lib Store Function

universe u

variable {T : Type u} {S S' : Store T} {L L' : Finset ℕ} {lvl lvl' : ℕ → ℕ} {P R E D : List ℕ} {top : ℕ}
  {n : ℕ} {i : Fin 32} {p : Params}

/-! ### The operations in terms of the map -/

/-- The key of an index, if it has one. -/
def Params.key (p : Params) (index : ℕ) : Option ℕ :=
  if p.offset ≤ index ∧ (index - p.offset) / p.divisor < 32 ^ p.levels
    then some ((index - p.offset) / p.divisor) else none

/-- The template arguments for which `size` does not wrap around. -/
structure Params.Valid (p : Params) : Prop where
  pos : 1 ≤ p.levels
  size : 32 ^ p.levels < 2 ^ 32

theorem Params.Valid.le_six (hp : p.Valid) : p.levels ≤ 6 := by
  by_contra hc
  have h1 : 32 ^ 7 ≤ 32 ^ p.levels := Nat.pow_le_pow_right (by decide) (by omega)
  have h2 := hp.size
  have h3 : (2 : ℕ) ^ 32 < 32 ^ 7 := by decide
  omega

theorem Params.Valid.exists_succ (hp : p.Valid) : ∃ level, p.levels = level + 1 :=
  Nat.exists_eq_succ_of_ne_zero (by have := hp.pos; omega)

theorem Params.Valid.adjustIndex_eq (hp : p.Valid) (index : ℕ) : p.adjustIndex index = p.key index := by
  have hsize : p.size = 32 ^ p.levels := by
    rw [Params.size, if_neg (by have := hp.pos; omega), Nat.mod_eq_of_lt hp.size]
  unfold Params.adjustIndex Params.key
  by_cases ho : index < p.offset
  · rw [if_pos ho, if_neg (by omega)]
  · simp only [ho, ite_false, hsize, not_lt.mp ho, true_and]

theorem Params.key_lt {index k : ℕ} (h : p.key index = some k) : k < 32 ^ p.levels := by
  unfold Params.key at h
  split at h
  · rename_i hc
    rw [← Option.some.inj h]
    exact hc.2
  · simp at h

/-- `insert` and `remove` are one edit, with the value to store as a parameter. -/
def Store.edit (S : Store T) (p : Params) (root index : ℕ) (v : Option ℕ) : Store T × Option ℕ :=
  match p.adjustIndex index with
  | none => (S, none)
  | some index => finish (S.getEntryRef root index (actionOf v) p.levels .rootNode) v

theorem insert_eq_edit (S : Store T) (p : Params) (root index item : ℕ) :
    S.insert p root index item = S.edit p root index (some item) := by
  unfold Store.insert insertPointer Store.edit
  cases p.adjustIndex index with
  | none => rfl
  | some k =>
    simp only [actionOf, reduceCtorEq, ite_false]
    generalize S.getEntryRef root k .insert p.levels .rootNode = r
    obtain ⟨S', _ | ⟨n, i⟩⟩ := r <;> rfl

theorem remove_eq_edit (S : Store T) (p : Params) (root index : ℕ) :
    S.remove p root index = S.edit p root index none := by
  unfold Store.remove Store.edit
  cases p.adjustIndex index with
  | none => rfl
  | some k =>
    simp only [actionOf, ite_true]
    generalize S.getEntryRef root k .delete p.levels .rootNode = r
    obtain ⟨S', _ | ⟨n, i⟩⟩ := r <;> rfl

theorem lookupExact_eq (hp : p.Valid) (S : Store T) (root index : ℕ) :
    S.lookupExact p root index = (p.key index).bind (contents S p.levels root) := by
  obtain ⟨level, hl⟩ := hp.exists_succ
  unfold lookupExact
  rw [hp.adjustIndex_eq]
  cases p.key index with
  | none => rfl
  | some k =>
    obtain ⟨h1, h2⟩ := getEntryRef_lookup root k level .rootNode root (show S.deref root .rootNode =
        some root from rfl)
    simp only [Option.bind_some, hl]
    rw [← h2]
    generalize S.getEntryRef root k .lookup (level + 1) .rootNode = r at *
    obtain ⟨S', _ | ⟨n, i⟩⟩ := r
    · rfl
    · simp only at h1
      subst h1
      rfl

/-- The two ordered queries. -/
def Store.query (S : Store T) (isFloor : Bool) (p : Params) (root index : ℕ) : Option ℕ :=
  if isFloor then S.lookupFloor p root index else S.lookupCeil p root index

theorem query_spec (hp : p.Valid) (G : Good S L lvl P R p.levels) (hF : Full S L R []) {root : ℕ}
    (hr : root ∈ R) (b : Bool) (index : ℕ) :
    match p.key index with
    | none => S.query b p root index = none
    | some k => Nearest b (contents S p.levels root) (32 ^ p.levels) k (S.query b p root index) := by
  obtain ⟨level, hl⟩ := hp.exists_succ
  have hq : S.query b p root index = match p.key index with
      | none => none
      | some k => S.runQuery b p.levels k (some root) := by
    unfold Store.query lookupFloor lookupCeil
    rw [hp.adjustIndex_eq]
    cases b <;> rfl
  rw [hq]
  cases hk : p.key index with
  | none => rfl
  | some k =>
    have hlt := p.key_lt hk
    have ht := G.tidy hF (G.root root hr).1 (G.root root hr).2.1
    rw [hl] at ht hlt
    have h := runQuery_spec (b := b) level k root ht (by have := hp.le_six; omega)
    rw [Nat.mod_eq_of_lt hlt] at h
    simpa only [hl] using h

/-! ### A tree without sharing -/

/-- A lone tree that stores the map `M`; the items of the client lie outside its nodes. -/
structure OneTree (p : Params) (S : Store T) (root : ℕ) (M : ℕ → Option ℕ) (L : Finset ℕ)
    (lvl : ℕ → ℕ) : Prop where
  good : Good S L lvl [] [root] p.levels
  full : Full S L [root] []
  sole : ∀ n ∈ L, (S.node n).refCount ≤ 1
  items : ∀ x ∈ S.newItems, x ∉ L ∧ x < S.next
  map : ∀ k < 32 ^ p.levels, contents S p.levels root k = M k

theorem Good.privPath (G : Good S L lvl P R top) (hs : ∀ n ∈ L, (S.node n).refCount ≤ 1) (index : ℕ) :
    ∀ {level n : ℕ}, n ∈ L → lvl n = level → PrivPath S index level n
  | 0, _, _, _ => trivial
  | level + 1, n, hn, hl => by
    intro h0 c hc
    obtain ⟨hcL, hcl⟩ := G.child n hn _ c hc (by omega)
    exact ⟨hs c hcL, G.privPath hs index hcL (by omega)⟩

theorem OneTree.edit {root : ℕ} {M : ℕ → Option ℕ} (hp : p.Valid) (H : OneTree p S root M L lvl)
    (index : ℕ) {v : Option ℕ} (hv : ∀ x, v = some x → x ∈ S.newItems) :
    (S.edit p root index v).2 = (p.key index).bind M ∧
    ∃ L' lvl', OneTree p (S.edit p root index v).1 root
      (match p.key index with
        | none => M
        | some k => update M k v) L' lvl' := by
  obtain ⟨level, hl⟩ := hp.exists_succ
  obtain ⟨hr, hrl, hr1, -⟩ := H.good.root root (by simp)
  unfold Store.edit
  rw [hp.adjustIndex_eq]
  cases hk : p.key index with
  | none => exact ⟨rfl, L, lvl, H⟩
  | some k =>
    have hlt := p.key_lt hk
    have hv' : ∀ x, v = some x → x ∉ L ∧ x < S.next := fun x hx => H.items x (hv x hx)
    have hF : Full S L [root] [root] := fun c hc hcR _ => H.full c hc hcR (by simp)
    have hpriv : PrivPath S k (level + 1) root := H.good.privPath H.sole k hr (by omega)
    have hput := (getEntryRef_put H.good hF hr (hrl.trans hl)
      (show S.deref root .rootNode = some root from rfl) (by omega) hpriv (by simp) hv').1
    obtain ⟨L', lvl', W⟩ := put_spec H.good hF hr (hrl.trans hl) hpriv (show root ∈ [root] by simp) hv'
    simp only [Option.bind_some, hl, hput]
    refine ⟨?_, L', lvl', hl ▸ W.good, ?_, ?_, ?_, ?_⟩
    · rw [W.result, ← hl]
      exact H.map k hlt
    · exact fun c hc hcR _ => W.full c hc hcR (by simpa using hcR)
    · intro m hm
      rw [W.counts m hm]
      split
      · exact H.sole m ‹_›
      · exact le_rfl
    · intro x hx
      rw [W.items.2.1] at hx
      obtain ⟨h1, h2⟩ := H.items x hx
      have hnext := W.next
      exact ⟨fun h => (W.new x h).elim h1 (by omega), by omega⟩
    · intro j hj
      have hm := H.map j hj
      rw [hl] at hj hlt hm ⊢
      rw [W.updated j, Nat.mod_eq_of_lt hj, Nat.mod_eq_of_lt hlt, hm, update_apply]

theorem Good.newItem (G : Good S L lvl P R top) (v : T) : Good (S.newItem v).1 L lvl P R top :=
  ⟨fun n hn => Nat.lt_succ_of_lt (G.fresh n hn), G.level, G.bits,
    fun n hn i c hc => Nat.lt_succ_of_lt (G.target n hn i c hc), G.child, G.leaf,
    fun c hc => Nat.lt_succ_of_lt (G.pending c hc), G.root, G.count⟩

theorem contents_newItem (S : Store T) (v : T) : ∀ level n k : ℕ,
    contents (S.newItem v).1 level n k = contents S level n k
  | 0, _, _ => rfl
  | level + 1, n, k => by
    simp only [contents, contents_newItem S v level]
    rfl

theorem OneTree.newItem {root : ℕ} {M : ℕ → Option ℕ} (H : OneTree p S root M L lvl) (v : T) :
    OneTree p (S.newItem v).1 root M L lvl := by
  refine ⟨H.good.newItem v, H.full, H.sole, ?_, fun k hk => (contents_newItem S v _ _ _).trans (H.map k hk)⟩
  intro x hx
  rcases List.mem_cons.mp hx with rfl | hx
  · exact ⟨fun h => absurd (H.good.fresh _ h) (lt_irrefl _), Nat.lt_succ_self _⟩
  · exact ⟨(H.items x hx).1, Nat.lt_succ_of_lt (H.items x hx).2⟩

/-- A new tree, in a store that may hold anything else. -/
theorem OneTree.newTree (hp : p.Valid) (S : Store T) (hS : ∀ x ∈ S.newItems, x < S.next) :
    OneTree p (S.newTree).1 (S.newTree).2 (fun _ => none) {S.next} (fun _ => p.levels) := by
  have hnode : (S.newTree).1.node S.next = .empty := by simp [Store.newTree]
  have hmem : ∀ n, n ∈ ({S.next} : Finset ℕ) ↔ n = S.next := fun n => Finset.mem_singleton
  have hpos := hp.pos
  obtain ⟨level, hl⟩ := hp.exists_succ
  refine ⟨⟨?_, ?_, ?_, ?_, ?_, ?_, by simp, ?_, ?_⟩, ?_, ?_, ?_, ?_⟩
  · intro n hn
    rw [(hmem n).mp hn]
    exact Nat.lt_succ_self _
  · exact fun _ _ => ⟨hpos, le_rfl⟩
  · intro n hn i
    rw [(hmem n).mp hn, hnode]
    simp [BitTreeNode.empty]
  · intro n hn i c hc
    rw [(hmem n).mp hn, hnode] at hc
    simp [BitTreeNode.empty] at hc
  · intro n hn i c hc
    rw [(hmem n).mp hn, hnode] at hc
    simp [BitTreeNode.empty] at hc
  · intro n hn i c hc
    rw [(hmem n).mp hn, hnode] at hc
    simp [BitTreeNode.empty] at hc
  · intro r hr
    rw [List.mem_singleton.mp hr]
    exact ⟨by simp [Store.newTree], rfl, by rw [show (S.newTree).2 = S.next from rfl, hnode]; rfl, by simp⟩
  · intro c hc hcR
    exact absurd (List.mem_singleton.mpr ((hmem c).mp hc)) hcR
  · intro c hc hcR
    exact absurd (List.mem_singleton.mpr ((hmem c).mp hc)) hcR
  · intro n hn
    rw [(hmem n).mp hn, hnode]
    exact le_rfl
  · intro x hx
    have := hS x hx
    exact ⟨fun h => by rw [hmem] at h; omega, Nat.lt_succ_of_lt this⟩
  · intro k hk
    rw [show (S.newTree).2 = S.next from rfl, hl, contents, hnode]
    rfl

/-! ### Runs -/

/-- The operations on a tree. -/
inductive Op
  | insert (index item : ℕ)
  | remove (index : ℕ)
  | lookupExact (index : ℕ)
  | lookupFloor (index : ℕ)
  | lookupCeil (index : ℕ)

namespace Op

variable {α : Type*}

/-- The operation on the store, and what it returns. -/
def exec (p : Params) (root : ℕ) (S : Store T) : Op → Store T × Option ℕ
  | insert index item => S.insert p root index item
  | remove index => S.remove p root index
  | lookupExact index => (S, S.lookupExact p root index)
  | lookupFloor index => (S, S.lookupFloor p root index)
  | lookupCeil index => (S, S.lookupCeil p root index)

/-- What is inserted is an item that the client has. -/
def Allowed (items : List ℕ) : Op → Prop
  | insert _ item => item ∈ items
  | _ => True

/-- The operation on the map, which has `f item` for an item. -/
def after (p : Params) (f : ℕ → α) (M : ℕ → Option α) : Op → ℕ → Option α
  | insert index item => match p.key index with
    | none => M
    | some k => update M k (some (f item))
  | remove index => match p.key index with
    | none => M
    | some k => update M k none
  | _ => M

/-- The answers of the map: an index without a key has the answer null. -/
def Answer (p : Params) (M : ℕ → Option α) : Op → Option α → Prop
  | insert index _, r => r = (p.key index).bind M
  | remove index, r => r = (p.key index).bind M
  | lookupExact index, r => r = (p.key index).bind M
  | lookupFloor index, r => match p.key index with
    | none => r = none
    | some k => Nearest true M (32 ^ p.levels) k r
  | lookupCeil index, r => match p.key index with
    | none => r = none
    | some k => Nearest false M (32 ^ p.levels) k r

def index : Op → ℕ
  | insert index _ => index
  | remove index => index
  | lookupExact index => index
  | lookupFloor index => index
  | lookupCeil index => index

end Op

/-- The runs of one tree, each with the map that the same operations build.  The client allocates
its items itself. -/
inductive Runs (p : Params) (root : ℕ) : Store T → (ℕ → Option ℕ) → Prop
  | start (S : Store T) (fresh : ∀ x ∈ S.newItems, x < S.next) (here : S.next = root) :
      Runs p root (S.newTree).1 fun _ => none
  | newItem {S : Store T} {M : ℕ → Option ℕ} (h : Runs p root S M) (v : T) : Runs p root (S.newItem v).1 M
  | step {S : Store T} {M : ℕ →
      Option ℕ} (h : Runs p root S M) (op : Op) (allowed : op.Allowed S.newItems) :
      Runs p root (op.exec p root S).1 (op.after p id M)

variable {root : ℕ} {M : ℕ → Option ℕ}

theorem OneTree.exec (hp : p.Valid) (H : OneTree p S root M L lvl) (op : Op) (hop : op.Allowed S.newItems) :
    op.Answer p M (op.exec p root S).2 ∧
    ∃ L' lvl', OneTree p (op.exec p root S).1 root (op.after p id M) L' lvl' := by
  have hquery : ∀ (b : Bool) (index : ℕ), match p.key index with
      | none => S.query b p root index = none
      | some k => Nearest b M (32 ^ p.levels) k (S.query b p root index) := by
    intro b index
    have h := query_spec hp H.good H.full (show root ∈ [root] by simp) b index
    cases hk : p.key index with
    | none => simpa only [hk] using h
    | some k =>
      simp only [hk] at h ⊢
      exact h.congr fun j hj => (H.map j hj).symm
  cases op with
  | insert index item =>
    have h := H.edit hp index (v := some item) fun x hx => by rw [← Option.some.inj hx]; exact hop
    rw [← insert_eq_edit] at h
    exact h
  | remove index =>
    have h := H.edit hp index (v := none) (by simp)
    rw [← remove_eq_edit] at h
    exact h
  | lookupExact index =>
    refine ⟨?_, L, lvl, H⟩
    simp only [Op.Answer, Op.exec, lookupExact_eq hp]
    cases hk : p.key index with
    | none => rfl
    | some k => exact H.map k (p.key_lt hk)
  | lookupFloor index => exact ⟨hquery true index, L, lvl, H⟩
  | lookupCeil index => exact ⟨hquery false index, L, lvl, H⟩

theorem Runs.oneTree (hp : p.Valid) (h : Runs p root S M) : ∃ L lvl, OneTree p S root M L lvl := by
  induction h with
  | start S fresh here =>
    subst here
    exact ⟨_, _, OneTree.newTree hp S fresh⟩
  | newItem _ v ih =>
    obtain ⟨L, lvl, H⟩ := ih
    exact ⟨L, lvl, H.newItem v⟩
  | step _ op allowed ih =>
    obtain ⟨L, lvl, H⟩ := ih
    exact (H.exec hp op allowed).2

/-- **An ordered map.**  In every run of a tree each operation answers as the map does, and an index
outside the range is answered with null and changes nothing. -/
theorem ordered_map (hp : p.Valid) (h : Runs p root S M) (op : Op) (hop : op.Allowed S.newItems) :
    op.Answer p M (op.exec p root S).2 ∧ (p.key op.index = none → op.exec p root S = (S, none)) := by
  obtain ⟨L, lvl, H⟩ := h.oneTree hp
  refine ⟨(H.exec hp op hop).1, fun hk => ?_⟩
  have hadj := (hp.adjustIndex_eq op.index).trans hk
  cases op <;> simp only [Op.index] at hadj <;>
    simp only [Op.exec, Store.insert, insertPointer, Store.remove, Store.lookupExact,
      Store.lookupFloor, Store.lookupCeil, hadj]

/-- The parameters of the tree in `memory_mapping.h`. -/
def mappingParams : Params := ⟨4, 0x80000000, 4096⟩

def emptyStore : Store ℕ := ⟨fun _ => .empty, fun _ => 0, 0, [], [], [], []⟩

def twoItems : Store ℕ := ((emptyStore.newTree.1.newItem 7).1.newItem 8).1

/-- The two items under the keys 1 and 33. -/
def twoEntries : Store ℕ :=
  ((twoItems.insert mappingParams 0 0x80001000 1).1.insert mappingParams 0 0x80021000 2).1

theorem ordered_map_two_entries :
    let M := update (update (fun _ => none) 1 (some 1)) 33 (some 2)
    Runs mappingParams 0 twoEntries M ∧ twoEntries.lookupFloor mappingParams 0 0x80005000 = some 1 ∧
      Nearest true M (32 ^ mappingParams.levels) 5 (some 1) := by
  intro M
  have h₂ : Runs mappingParams 0 twoItems fun _ => none :=
    ((Runs.start emptyStore (by simp [emptyStore]) rfl).newItem 7).newItem 8
  have h₃ := h₂.step (Op.insert 0x80001000 1) (show 1 ∈ twoItems.newItems by decide)
  have h₄ := h₃.step (Op.insert 0x80021000 2)
    (show 2 ∈ (twoItems.insert mappingParams 0 0x80001000 1).1.newItems by decide)
  have hk : mappingParams.key 0x80001000 = some 1 ∧ mappingParams.key 0x80021000 = some 33 ∧
      mappingParams.key 0x80005000 = some 5 := by decide
  simp only [Op.after, hk.1, hk.2.1] at h₄
  have hf : twoEntries.lookupFloor mappingParams 0 0x80005000 = some 1 := by decide
  have h := (ordered_map ⟨by decide, by decide⟩ h₄ (Op.lookupFloor 0x80005000) trivial).1
  simp only [Op.Answer, hk.2.2] at h
  exact ⟨h₄, hf, hf ▸ h⟩

end GheithOS.BitTree
