import GheithOS.BitTree.Steps

/-!
# GheithOS.BitTree.Live — `get_entry_ref` on nodes that exist

By induction on the level an edit touches only nodes that are in the store until it returns its slot
(`editsLive`).  The slot of an insertion is in a live leaf.  That of a removal is in a deleted one
exactly if nothing is left in the leaf (`Removed`): the recursion releases an empty child on its way
back, and only then is the slot returned.
-/

namespace GheithOS.BitTree

open Lib Store

variable {T : Type} {S S' : Store T} {L L' : Finset ℕ} {lvl lvl' : ℕ → ℕ} {P Q R E : List ℕ} {top : ℕ}
  {n m c : ℕ} {i : Fin 32}

/-! ### The leaf of an index -/

/-- What a removal would leave in the leaf of an index below a node: its bits without that of the
index.  There may be no such leaf. -/
def Store.left (S : Store T) (index : ℕ) : ℕ → ℕ → Option (BitVec 32)
  | 0, _ => none
  | level + 1, n =>
    if level = 0 then some ((S.node n).presentBits &&& ~~~(1#32 <<< (getLevelIndex index 1).val))
    else ((S.node n).pointers (getLevelIndex index (level + 1))).bind (S.left index level)

theorem left_leaf (S : Store T) (index n : ℕ) :
    S.left index 1 n = some ((S.node n).presentBits &&& ~~~(1#32 <<< (getLevelIndex index 1).val)) := rfl

theorem left_node (S : Store T) (index level n : ℕ) :
    S.left index (level + 2) n = ((S.node n).pointers (getLevelIndex index (level + 2))).bind
      (S.left index (level + 1)) := by
  rw [Store.left, if_neg (by omega)]

theorem Standing.left_congr {index top' : ℕ} (W : Standing S L lvl P R E top)
    (h : ∀ m ∈ L, lvl m ≤ top' → (S'.node m).pointers = (S.node m).pointers ∧
      (S'.node m).presentBits = (S.node m).presentBits) :
    ∀ {level n : ℕ}, n ∈ L → lvl n = level + 1 → level + 1 ≤ top' →
      S'.left index (level + 1) n = S.left index (level + 1) n
  | 0, n, hn, hl, hle => by
    rw [left_leaf, left_leaf, (h n hn (by omega)).2]
  | level + 1, n, hn, hl, hle => by
    rw [left_node, left_node, (h n hn (by omega)).1]
    cases hc : (S.node n).pointers (getLevelIndex index (level + 2)) with
    | none => rfl
    | some c =>
      obtain ⟨hcL, hcl⟩ := W.child hn (by omega) hc
      exact W.left_congr h hcL (by omega) (by omega)

/-- The copying of a node does not change it. -/
theorem SameBelow.left {index level n' : ℕ} (W : Standing S L lvl P R E top) (hn : n ∈ L)
    (hl : lvl n = level + 1) (B : SameBelow S S' L lvl (level + 1) n n') :
    S'.left index (level + 1) n' = S.left index (level + 1) n := by
  cases level with
  | zero => rw [left_leaf, left_leaf, B.bits]
  | succ level =>
    rw [left_node, left_node, B.pointers (by omega)]
    cases hc : (S.node n).pointers (getLevelIndex index (level + 2)) with
    | none => rfl
    | some c =>
      obtain ⟨hcL, hcl⟩ := W.child hn (by omega) hc
      exact W.left_congr B.rows hcL (by omega) (by omega)

/-! ### `get_entry_ref` -/

/-- The slot that an insertion gets is in a live leaf. -/
structure Inserted (S' : Store T) (L' : Finset ℕ) (lvl' : ℕ → ℕ) (index n' : ℕ)
    (r : Option (ℕ × Fin 32)) : Prop where
  full : (S'.node n').presentBits ≠ 0
  entry : ∃ m, r = some (m, getLevelIndex index 1) ∧ m ∈ L' ∧ lvl' m = 1

/-- The slot that a removal gets is in the leaf, or in its copy.  The leaf is deleted if nothing is
left in it, unless it is the node `n'` at which the removal began. -/
structure Removed (left : Option (BitVec 32)) (S' : Store T) (L' : Finset ℕ) (lvl' : ℕ → ℕ)
    (index level n' : ℕ) (r : Option (ℕ × Fin 32)) : Prop where
  absent : left = none → r = none
  entry : ∀ v, left = some v → ∃ m, r = some (m, getLevelIndex index 1) ∧
    (level ≠ 1 → v = 0 → m ∈ S'.deletedNodes ∧ m ∉ L') ∧ ((level ≠ 1 → v ≠ 0) → m ∈ L' ∧ lvl' m = 1) ∧
    (level = 1 → m = n' ∧ (S'.node n').presentBits = v)

section Descent

variable {root index level n' : ℕ} {nodeRef : NodeRef} {action : GetEntryAction}

variable {S₁ : Store T} {L₁ : Finset ℕ} {lvl₁ : ℕ → ℕ}

/-- The nodes above do not change while the work is done below. -/
theorem Arrived.ascend (A : Arrived S S₁ L L₁ lvl lvl₁ R top root level n' nodeRef)
    (hframe : ∀ m ∈ L₁, level < lvl₁ m → m ∈ L' ∧ lvl' m = lvl₁ m ∧ S'.node m = S₁.node m)
    (hn : n' ∈ L' ∧ lvl' n' = level ∧ (S'.node n').refCount ≤ 1)
    (W : Standing S' L' lvl' [] R [n'] top) :
    Arrived S S' L L' lvl lvl' R top root level n' nodeRef := by
  refine ⟨W, hn, ?_, fun m hm hl => ?_⟩
  · cases nodeRef with
    | rootNode => exact A.ref
    | slot p j =>
      obtain ⟨hp, hpl, hj⟩ := A.ref
      obtain ⟨h1, h2, h3⟩ := hframe p hp (by omega)
      exact ⟨h1, h2.trans hpl, by rw [h3, hj]⟩
  · obtain ⟨h1, h2, h3⟩ := A.above m hm hl
    obtain ⟨h4, h5, h6⟩ := hframe m h1 (by omega)
    exact ⟨h4, h5.trans h2, h6.trans h3⟩

theorem Arrived.setBits (v : BitVec 32) (A : Arrived S S₁ L L₁ lvl lvl₁ R top root 1 n' nodeRef) :
    Arrived S (S₁.setNode n' { S₁.node n' with presentBits := v })
      L L₁ lvl lvl₁ R top root 1 n' nodeRef := by
  obtain ⟨hn, hl, h1⟩ := A.here
  have hother : ∀ m, m ≠ n' →
      (S₁.setNode n' { S₁.node n' with presentBits := v }).node m = S₁.node m := fun m hm => by
    rw [setNode_node, if_neg hm]
  have hcount : ((S₁.setNode n' { S₁.node n' with presentBits := v }).node n').refCount =
      (S₁.node n').refCount := by
    rw [setNode_node, if_pos rfl]
  refine A.ascend (fun m hm hlm => ⟨hm, rfl, hother m (by rintro rfl; omega)⟩) ⟨hn, hl,
    by rw [hcount]; exact h1⟩
    ⟨A.standing.good.congr (fun m _ => ?_) le_rfl fun _ _ => rfl, fun c hc hcR hcE => ?_,
      A.standing.live, A.standing.old⟩
  · by_cases hm : m = n'
    · subst hm
      exact bare_congr rfl hcount fun h => absurd hl h
    · exact bare_congr rfl (by rw [hother m hm]) fun _ => hother m hm
  · rw [hother c (by simpa using hcE)]
    exact A.standing.full c hc hcR hcE

variable {S₂ : Store T} {L₂ : Finset ℕ} {lvl₂ : ℕ → ℕ} {c' : ℕ}

/-- What the work on the child `c`, now `c'`, leaves of the nodes above it. -/
theorem Descended.frame (hn : n ∈ L) (hl : lvl n = level + 2)
    (D : Descended S S₁ L L₁ lvl lvl₁ R top n c i)
    (A : Arrived S₁ S₂ L₁ L₂ lvl₁ lvl₂ R top root (level + 1) c' (.slot n i)) :
    (∀ m ∈ L, level + 2 < lvl m → m ∈ L₂ ∧ lvl₂ m = lvl m ∧ S₂.node m = S.node m) ∧
      n ∈ L₂ ∧ lvl₂ n = level + 2 ∧ (S₂.node n).refCount = (S.node n).refCount := by
  constructor
  · intro m hm hlm
    have hmn : m ≠ n := by
      rintro rfl
      omega
    obtain ⟨h1, h2, h3⟩ := D.old m hm
    obtain ⟨h4, h5, h6⟩ := A.above m h1 (by omega)
    refine ⟨h4, h5.trans h2, ?_⟩
    rw [h6, writeRef, setPtr, setNode_node, if_neg hmn, h3 hmn]
  · obtain ⟨h1, h2, -⟩ := D.old n hn
    obtain ⟨h4, h5, h6⟩ := A.above n h1 (by omega)
    refine ⟨h4, by omega, ?_⟩
    rw [h6, writeRef, setPtr_refCount, D.count]

theorem Standing.full_child (W : Standing S L lvl P R [c] top) (hc : (S.node c).presentBits ≠ 0) :
    Standing S L lvl P R [] top := by
  refine ⟨W.good, fun d hd hdR _ => ?_, W.live, W.old⟩
  by_cases hdc : d = c
  · rw [hdc]
    exact hc
  · exact W.full d hd hdR (by simpa using hdc)

theorem Standing.weaken (W : Standing S L lvl P R [] top) (E : List ℕ) : Standing S L lvl P R E top :=
  ⟨W.good, fun d hd hdR _ => W.full d hd hdR (by simp), W.live, W.old⟩

variable {r : Option (ℕ × Fin 32)}

theorem Removed.ascend {left : Option (BitVec 32)}
    (H : Removed left S₁ L₁ lvl' index (level + 1) c' r) (hc' : lvl' c' = level + 1)
    (hout : (S₁.node c').presentBits ≠ 0 ∧ S' = S₁ ∧ L' = L₁ ∨ (S₁.node c').presentBits = 0 ∧
      L' = L₁.erase c' ∧ S'.deletedNodes = c' :: S₁.deletedNodes) :
    Removed left S' L' lvl' index (level + 2) n' r := by
  refine ⟨H.absent, fun v hv => ?_⟩
  obtain ⟨m, hr, hgone, hlive, hown⟩ := H.entry v hv
  refine ⟨m, hr, fun _ h0 => ?_, fun h0 => ?_, fun h => absurd h (by omega)⟩
  · -- nothing is left: either the child is the leaf and goes now, or the leaf has gone before
    by_cases hl : level = 0
    · obtain ⟨rfl, hbits⟩ := hown (by omega)
      rcases hout with ⟨h1, -⟩ | ⟨-, hL, hd⟩
      · exact absurd (hbits.trans h0) h1
      · rw [hL, hd]
        exact ⟨List.mem_cons_self, by simp⟩
    · obtain ⟨h1, h2⟩ := hgone (by omega) h0
      rcases hout with ⟨-, hS, hL⟩ | ⟨-, hL, hd⟩
      · rw [hS, hL]
        exact ⟨h1, h2⟩
      · rw [hL, hd]
        exact ⟨List.mem_cons_of_mem _ h1, fun h => h2 (Finset.mem_of_mem_erase h)⟩
  · have hne := h0 (by omega)
    obtain ⟨h1, h2⟩ := hlive fun _ => hne
    refine ⟨?_, h2⟩
    rcases hout with ⟨-, -, hL⟩ | ⟨hb, hL, -⟩
    · rw [hL]
      exact h1
    · rw [hL]
      refine Finset.mem_erase.mpr ⟨fun hm => ?_, h1⟩
      obtain ⟨-, hbits⟩ := hown (by rw [hm] at h2; omega)
      exact hne (hbits.symm.trans hb)

variable {n₁ : ℕ}

/-- The removal from a child is done, and an empty child is released. -/
theorem Arrived.prune {left : Option (BitVec 32)} {S₃ : Store T} {L₃ : Finset ℕ} {lvl₃ : ℕ → ℕ}
    (A : Arrived S S₁ L L₁ lvl lvl₁ R top root (level + 2) n₁ nodeRef)
    (hframe : ∀ m ∈ L₁, level + 2 < lvl₁ m → m ∈ L₃ ∧ lvl₃ m = lvl₁ m ∧ S₃.node m = S₁.node m)
    (hn : n₁ ∈ L₃) (hl : lvl₃ n₁ = level + 2) (h1 : (S₃.node n₁).refCount ≤ 1)
    (A₃ : Arrived S₂ S₃ L₂ L₃ lvl₂ lvl₃ R top root (level + 1) c' (.slot n₁ i)) (hroot : root ∈ R)
    (H : Removed left S₃ L₃ lvl₃ index (level + 1) c' r) :
    Checked.prune root (level + 1) n₁ i S₃ = .ok ((), S₃.prune root (level + 1) n₁ i) ∧
      ∃ L', Arrived S (S₃.prune root (level + 1) n₁ i) L L' lvl lvl₃ R top root (level + 2) n₁ nodeRef ∧
        Removed left (S₃.prune root (level + 1) n₁ i) L' lvl₃ index (level + 2) n₁ r := by
  obtain ⟨-, hcl, hc1⟩ := A₃.here
  obtain ⟨hprune, hkeep, hdrop⟩ := A₃.standing.prune hn hl A₃.ref.2.2 hc1 hroot
  refine ⟨hprune, ?_⟩
  by_cases hb : (S₃.node c').presentBits = 0
  · obtain ⟨heq, W'⟩ := hdrop hb
    have hne : ∀ m, level + 2 ≤ lvl₃ m → m ≠ c' := by
      rintro m hm rfl
      omega
    have hother : ∀ m, m ≠ n₁ → m ≠ c' → (S₃.prune root (level + 1) n₁ i).node m = S₃.node m :=
      fun m hm hmc => by
      rw [heq, decRef_deleteNode_node _ hmc, writeSlot_node_of_ne _ _ _ hm]
    refine ⟨L₃.erase c', A.ascend (fun m hm hlm => ?_) ⟨?_, hl, ?_⟩ W', H.ascend hcl (.inr ⟨hb, rfl, ?_⟩)⟩
    · obtain ⟨h2, h3, h4⟩ := hframe m hm hlm
      have hmc := hne m (by omega)
      exact ⟨Finset.mem_erase.mpr ⟨hmc, h2⟩, h3, (hother m (by rintro rfl; omega) hmc).trans h4⟩
    · exact Finset.mem_erase.mpr ⟨hne n₁ (by omega), hn⟩
    · rw [heq, decRef_deleteNode_node _ (hne n₁ (by omega)), writeSlot_refCount]
      exact h1
    · rw [heq]
      exact congrArg (c' :: ·) (writeSlot_logs S₃ n₁ i none).2.1
  · rw [hkeep hb]
    exact ⟨L₃, A.ascend hframe ⟨hn, hl, h1⟩ ((A₃.standing.full_child hb).weaken [n₁]),
      H.ascend hcl (.inl ⟨hb, rfl, rfl⟩)⟩

theorem Standing.deref (W : Standing S L lvl P R E top) (href : RefOk S L lvl R root level n nodeRef) :
    Checked.deref root nodeRef S = .ok (some n, S) := by
  cases nodeRef with
  | rootNode =>
    rw [href.1]
    rfl
  | slot p j =>
    obtain ⟨hp, -, hj⟩ := href
    rw [Checked.deref, bind_of_eq (node_live (W.live p hp)), hj]
    rfl

/-- What an edit does to a live tree, from a node down. -/
def EditsLive (T : Type) (R : List ℕ) (top root index : ℕ) (action : GetEntryAction) (level : ℕ) : Prop :=
  ∀ (n : ℕ) (nodeRef : NodeRef) (S : Store T) (L : Finset ℕ) (lvl : ℕ → ℕ), Standing S L lvl [] R [n] top →
    ((S.node n).presentBits ≠ 0 ∨ (S.node n).refCount ≤ 1) → n ∈ L → lvl n = level →
    RefOk S L lvl R root level n nodeRef →
    ∃ S' r n' L' lvl', S.getEntryRef root index action level nodeRef = (S', r) ∧
      Checked.getEntryRef root index action level nodeRef S = .ok (r, S') ∧
      Arrived S S' L L' lvl lvl' R top root level n' nodeRef ∧
      (action = .insert → Inserted S' L' lvl' index n' r) ∧
      (action = .delete → Removed (S.left index level n) S' L' lvl' index level n' r)

/-- The bit of the entry is set or cleared. -/
def markEntry (action : GetEntryAction) (n : ℕ) (i : Fin 32) (S : Store T) : Store T :=
  match action with
  | .insert => S.setBit n i
  | .delete => S.clearBit n i
  | .lookup => S

theorem markEntry_live (hn : n ∉ S.deletedNodes) (action : GetEntryAction) (i : Fin 32) :
    Checked.markEntry action n i S = .ok ((), markEntry action n i S) := by
  cases action with
  | insert => exact update_live hn _
  | delete => exact update_live hn _
  | lookup => rfl

theorem getEntryRef_leaf (ha : action ≠ .lookup) (hd : S.deref root nodeRef = some n)
    (hcow : S.copyOnWrite 1 nodeRef n = (S₁, n₁)) :
    S.getEntryRef root index action 1 nodeRef =
      (markEntry action n₁ (getLevelIndex index 1) S₁, some (n₁, getLevelIndex index 1)) := by
  rw [getEntryRef, hd]
  simp only [ha, ne_eq, not_false_eq_true, ite_true, Nat.zero_add, hcow]
  cases action with
  | insert => rfl
  | delete => rfl
  | lookup => rfl

theorem Arrived.mark (action : GetEntryAction) (i : Fin 32)
    (A : Arrived S S₁ L L₁ lvl lvl₁ R top root 1 n' nodeRef) :
    Arrived S (markEntry action n' i S₁) L L₁ lvl lvl₁ R top root 1 n' nodeRef := by
  cases action with
  | insert => exact A.setBits _
  | delete => exact A.setBits _
  | lookup => exact A

theorem editsLive_leaf (ha : action ≠ .lookup) : EditsLive T R top root index action 1 := by
  intro n nodeRef S L lvl W hempty hn hl href
  obtain ⟨S₁, n₁, L₁, lvl₁, hcow, hchecked, A, B⟩ := W.copyOnWrite hempty hn hl le_rfl href
  obtain ⟨hn₁, hl₁, -⟩ := A.here
  have hown : Checked.own action 1 nodeRef n S = .ok (n₁, S₁) := by
    unfold Checked.own
    rw [if_pos ha, hchecked]
  refine ⟨_, _, n₁, L₁, lvl₁, getEntryRef_leaf ha href.deref hcow, ?_, A.mark action _, ?_, ?_⟩
  · rw [Checked.getEntryRef, bind_of_eq (W.deref href)]
    dsimp only
    rw [bind_of_eq hown, if_pos rfl, bind_of_eq (markEntry_live (A.standing.live n₁ hn₁) _ _)]
    rfl
  · rintro rfl
    refine ⟨(presentBits_ne_zero_iff _).mpr ⟨getLevelIndex index 1, ?_⟩, n₁, rfl, hn₁, hl₁⟩
    simp only [markEntry, setBit, setNode_node, ite_true]
    rw [BitVec.getLsbD_or, getLsbD_one_shiftLeft]
    simp
  · rintro rfl
    refine ⟨fun h => ?_, fun v hv => ⟨n₁, rfl, fun h => absurd rfl h, fun _ => ⟨hn₁, hl₁⟩,
      fun _ => ⟨rfl, ?_⟩⟩⟩
    · rw [left_leaf] at h
      cases h
    · rw [left_leaf] at hv
      rw [← Option.some_inj.mp hv]
      simp only [markEntry, clearBit, setNode_node, ite_true]
      rw [B.bits]

theorem checked_getEntryRef_node (hd : Checked.deref root nodeRef S = .ok (some n, S))
    (hown : Checked.own action (level + 2) nodeRef n S = .ok (n₁, S₁)) (hn₁ : n₁ ∉ S₁.deletedNodes) :
    Checked.getEntryRef root index action (level + 2) nodeRef S =
      (if (S₁.node n₁).pointers (getLevelIndex index (level + 2)) = none ∧
        action ≠ GetEntryAction.insert then return none
      else do
        Checked.ensureChild n₁ (getLevelIndex index (level + 2))
        let result ← Checked.getEntryRef root index action (level + 1)
            (.slot n₁ (getLevelIndex index (level + 2)))
        if action = GetEntryAction.delete then
          Checked.prune root (level + 1) n₁ (getLevelIndex index (level + 2))
          return result
        else return result : Prog Gone (Store T) (Option (ℕ × Fin 32))) S₁ := by
  rw [Checked.getEntryRef, bind_of_eq hd]
  dsimp only
  rw [bind_of_eq hown, if_neg (Nat.succ_ne_zero level), bind_of_eq (node_live hn₁)]

theorem editsLive_node (ha : action ≠ .lookup) (hroot : root ∈ R)
    (ih : EditsLive T R top root index action (level + 1)) :
    EditsLive T R top root index action (level + 2) := by
  intro n nodeRef S L lvl W hempty hn hl href
  obtain ⟨S₁, n₁, L₁, lvl₁, hcow, hchecked, A, B⟩ := W.copyOnWrite hempty hn hl (by omega) href
  obtain ⟨hn₁, hl₁, h1⟩ := A.here
  have hn₁d := A.standing.live n₁ hn₁
  have hown : Checked.own action (level + 2) nodeRef n S = .ok (n₁, S₁) := by
    unfold Checked.own
    rw [if_pos ha, hchecked]
  have hleft : S₁.left index (level + 2) n₁ = S.left index (level + 2) n := B.left W hn hl
  rw [← hleft, getEntryRef_edit ha href.deref hcow, checked_getEntryRef_node (W.deref href) hown hn₁d]
  dsimp only
  generalize hi : getLevelIndex index (level + 2) = i at *
  by_cases hmiss : (S₁.node n₁).pointers i = none ∧ action ≠ .insert
  · rw [if_pos hmiss, if_pos hmiss]
    refine ⟨S₁, none, n₁, L₁, lvl₁, rfl, rfl, A, fun h => absurd h hmiss.2, fun _ => ?_⟩
    rw [left_node, hi, hmiss.1]
    exact ⟨fun _ => rfl, fun v hv => by cases hv⟩
  · rw [if_neg hmiss, if_neg hmiss]
    obtain ⟨S₂, L₂, lvl₂, c, hS₂, hensure, D⟩ := A.standing.descend hn₁ hl₁ i
    obtain ⟨hn₂, hln₂, -⟩ := D.old n₁ hn₁
    obtain ⟨hcL, hcl⟩ := D.standing.child hn₂ (by omega) D.slot
    obtain ⟨S₃, r, c', L₃, lvl₃, hmodel, hchild, A₃, hins, hrem⟩ :=
      ih c (.slot n₁ i) S₂ L₂ lvl₂ D.standing D.empty hcL
      (by omega) ⟨hn₂, by omega, D.slot⟩
    obtain ⟨hframe, hn₃, hln₃, hcount⟩ := D.frame hn₁ hl₁ A₃
    rw [hS₂, hmodel, bind_of_eq hensure, bind_of_eq hchild]
    dsimp only
    cases action with
    | lookup => exact absurd rfl ha
    | insert =>
      have I := hins rfl
      rw [if_neg (by simp), if_neg (by simp)]
      have hfull : (S₃.node n₁).presentBits ≠ 0 := by
        refine (presentBits_ne_zero_iff _).mpr ⟨i, ?_⟩
        rw [A₃.standing.bits hn₃ (by omega), A₃.ref.2.2]
        rfl
      exact ⟨S₃, r, n₁, L₃, lvl₃, rfl, rfl, A.ascend hframe ⟨hn₃, hln₃, by omega⟩
        ((A₃.standing.full_child I.full).weaken [n₁]), fun _ => ⟨hfull, I.entry⟩,
        fun h => absurd h (by simp)⟩
    | delete =>
      have hnone : (S₁.node n₁).pointers i ≠ none := fun h => hmiss ⟨h, by simp⟩
      obtain ⟨c₀, hc₀⟩ := Option.ne_none_iff_exists'.mp hnone
      obtain ⟨rfl, rfl⟩ := D.same c₀ hc₀
      have H := hrem rfl
      obtain ⟨hprune, L₄, A₄, H₄⟩ := A.prune hframe hn₃ hln₃ (by omega) A₃ hroot H
      rw [left_node, hi, hc₀, Option.bind_some, if_pos rfl, if_pos rfl, bind_of_eq hprune]
      exact ⟨_, _, n₁, L₄, lvl₃, rfl, rfl, A₄, fun h => absurd h (by simp), fun _ => H₄⟩

variable (index) in
/-- **An edit** of a live tree touches only nodes that exist until it returns its slot. -/
theorem editsLive (ha : action ≠ .lookup) (hroot : root ∈ R) :
    ∀ level : ℕ, EditsLive T R top root index action (level + 1)
  | 0 => editsLive_leaf ha
  | level + 1 => editsLive_node ha hroot (editsLive ha hroot level)

end Descent

end GheithOS.BitTree
