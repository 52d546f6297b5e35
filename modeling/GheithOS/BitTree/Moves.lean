import GheithOS.BitTree.Invariant

/-!
# GheithOS.BitTree.Moves — the elementary moves that operations are made of

Each move is stated on the invariants alone: writing a slot of a leaf (`Good.writeLeaf`) or of an
inner node (`Good.writeNode`), a new node (`Good.addNode`), dropping a reference that is not the
last (`Good.dropRef`) or the last one (`Good.retire`), and a root becoming an ordinary node or back
(`Good.unroot`, `Good.toRoot`).  A reference on its way between two slots is in the list `P`.
-/

namespace GheithOS.BitTree

open Lib Store Function

universe u

variable {T : Type u} {S S' : Store T} {L L' : Finset ℕ} {lvl lvl' : ℕ → ℕ} {P R E D : List ℕ} {top : ℕ}
  {n : ℕ} {i : Fin 32} {x : Option ℕ}

/-! ### Writing one slot -/

namespace Store

/-- A slot together with its presence bit. -/
def writeSlot (S : Store T) (n : ℕ) (i : Fin 32) (x : Option ℕ) : Store T :=
  (if x.isSome then S.setBit n i else S.clearBit n i).setPtr n i x

@[simp] theorem writeSlot_pointers (S : Store T) (n m : ℕ) (i : Fin 32) (x : Option ℕ) :
    ((S.writeSlot n i x).node m).pointers = if m = n then update (S.node n).pointers i x
      else (S.node m).pointers := by
  unfold writeSlot setBit clearBit
  rw [setPtr_pointers]
  split <;> split <;> simp_all

@[simp] theorem writeSlot_refCount (S : Store T) (n m : ℕ) (i : Fin 32) (x : Option ℕ) :
    ((S.writeSlot n i x).node m).refCount = (S.node m).refCount := by
  unfold writeSlot setBit clearBit
  rw [setPtr_refCount]
  split <;> rw [setNode_node] <;> split <;> simp_all

theorem getLsbD_one_shiftLeft (i j : Fin 32) : (1#32 <<< i.val).getLsbD j = decide (j = i) := by
  revert i j
  decide

@[simp] theorem writeSlot_bit (S : Store T) (n m : ℕ) (i j : Fin 32) (x : Option ℕ) :
    ((S.writeSlot n i x).node m).presentBits.getLsbD j =
      if m = n ∧ j = i then x.isSome else (S.node m).presentBits.getLsbD j := by
  unfold writeSlot setBit clearBit
  rw [setPtr_presentBits]
  by_cases hm : m = n
  · subst hm
    cases x with
    | none =>
      rw [if_neg (by simp), setNode_node, if_pos rfl, BitVec.getLsbD_and, BitVec.getLsbD_not,
        getLsbD_one_shiftLeft]
      by_cases hj : j = i <;> simp only [hj, and_self, ite_true, ite_false, decide_true, decide_false,
        Option.isSome_none, Bool.not_true, Bool.not_false, Bool.and_false, j.isLt, Bool.and_true, and_false]
    | some c =>
      rw [if_pos (by simp), setNode_node, if_pos rfl, BitVec.getLsbD_or, getLsbD_one_shiftLeft]
      by_cases hj : j = i <;> simp only [hj, and_self, ite_true, ite_false, decide_true, decide_false,
        Option.isSome_some, Bool.or_true, Bool.or_false, and_false]
  · rw [if_neg (show ¬ (m = n ∧ j = i) from fun h => hm h.1)]
    split <;> rw [setNode_node, if_neg hm]

theorem writeSlot_node_of_ne (S : Store T) {n m : ℕ} (i : Fin 32) (x : Option ℕ) (h : m ≠ n) :
    (S.writeSlot n i x).node m = S.node m := by
  unfold writeSlot setPtr setBit clearBit
  cases x <;> simp [h]

@[simp] theorem writeSlot_item (S : Store T) (n : ℕ) (i : Fin 32) (x : Option ℕ) :
    (S.writeSlot n i x).item = S.item := by
  unfold writeSlot setPtr setBit clearBit
  split <;> rfl

@[simp] theorem writeSlot_next (S : Store T) (n : ℕ) (i : Fin 32) (x : Option ℕ) :
    (S.writeSlot n i x).next = S.next := by
  unfold writeSlot setPtr setBit clearBit
  split <;> rfl

@[simp] theorem writeSlot_logs (S : Store T) (n : ℕ) (i : Fin 32) (x : Option ℕ) :
    (S.writeSlot n i x).newNodes = S.newNodes ∧ (S.writeSlot n i x).deletedNodes = S.deletedNodes ∧
    (S.writeSlot n i x).newItems = S.newItems ∧ (S.writeSlot n i x).deletedItems = S.deletedItems := by
  unfold writeSlot setPtr setBit clearBit
  split <;> exact ⟨rfl, rfl, rfl, rfl⟩

end Store

theorem slots_writeSlot (S : Store T) (n : ℕ) (i : Fin 32) (x : Option ℕ) :
    slots (S.writeSlot n i x) = update (slots S) n (update (slots S n) i x) := by
  funext m
  by_cases hm : m = n
  · subst hm
    simp [slots]
  · simp [slots, hm]

theorem refsTo_writeSlot (hn : n ∈ L) (i : Fin 32) (x : Option ℕ) (c : ℕ) :
    refsTo (S.writeSlot n i x) L c + (if (S.node n).pointers i = some c then 1 else 0) =
      refsTo S L c + (if x = some c then 1 else 0) := by
  unfold refsTo
  rw [slots_writeSlot]
  exact refs_write hn i x

theorem presentBits_ne_zero_iff (v : BitVec 32) : v ≠ 0 ↔ ∃ j : Fin 32, v.getLsbD j = true := by
  refine ⟨exists_present, ?_⟩
  rintro ⟨j, hj⟩ rfl
  simp at hj

theorem Good.ne_zero (G : Good S L lvl P R top) (hn : n ∈ L) {c : ℕ}
    (hc : (S.node n).pointers i = some c) : (S.node n).presentBits ≠ 0 :=
  (presentBits_ne_zero_iff _).mpr ⟨i, by rw [G.bits n hn, hc]; rfl⟩

theorem Good.eq_none (G : Good S L lvl P R top) (hn : n ∈ L) (h0 : (S.node n).presentBits = 0)
    (j : Fin 32) : (S.node n).pointers j = none := by
  have := G.bits n hn j
  rw [h0] at this
  simpa using this

theorem bits_writeSlot
    (hb : ∀ m ∈ L, ∀ j : Fin 32, (S.node m).presentBits.getLsbD j = ((S.node m).pointers j).isSome)
    (m : ℕ) (hm : m ∈ L) (j : Fin 32) :
    ((S.writeSlot n i x).node m).presentBits.getLsbD j =
      (((S.writeSlot n i x).node m).pointers j).isSome := by
  rw [writeSlot_bit, writeSlot_pointers]
  by_cases hmn : m = n
  · subst hmn
    by_cases hj : j = i
    · subst hj
      rw [if_pos ⟨rfl, rfl⟩, if_pos rfl, update_self]
    · rw [if_neg (fun h => hj h.2), if_pos rfl, update_of_ne hj, hb m hm]
  · rw [if_neg (fun h => hmn h.1), if_neg hmn, hb m hm]

/-- **A leaf slot** is set to an item or to null. -/
theorem Good.writeLeaf (G : Good S L lvl P R top) (hn : n ∈ L) (hl : lvl n = 1)
    (hx : ∀ c, x = some c → c ∉ L ∧ c < S.next) : Good (S.writeSlot n i x) L lvl P R top := by
  refine ⟨by simpa using G.fresh, G.level, bits_writeSlot G.bits, ?_, ?_, ?_,
    by simpa using G.pending, ?_, ?_⟩
  · intro m hm j c hc
    rw [writeSlot_next]
    rw [writeSlot_pointers] at hc
    split at hc
    · by_cases hj : j = i
      · subst hj
        simp only [update_self] at hc
        exact (hx c hc).2
      · rw [update_of_ne hj] at hc
        exact G.target n hn j c hc
    · exact G.target m hm j c hc
  · intro m hm j c hc h2
    rw [writeSlot_pointers, if_neg (by rintro rfl; omega)] at hc
    exact G.child m hm j c hc h2
  · intro m hm j c hc h1
    rw [writeSlot_pointers] at hc
    split at hc
    · by_cases hj : j = i
      · subst hj
        simp only [update_self] at hc
        exact (hx c hc).1
      · rw [update_of_ne hj] at hc
        exact G.leaf n hn j c hc hl
    · exact G.leaf m hm j c hc h1
  · simpa using G.root
  · intro c hc hR
    have h := refsTo_writeSlot (S := S) hn i x c
    -- a leaf slot does not refer to a node, before or after
    rw [if_neg (fun h => G.leaf n hn i c h hl hc), if_neg (fun h => (hx c h).1 hc)] at h
    rw [writeSlot_refCount, show refsTo (S.writeSlot n i x) L c = refsTo S L c by simpa using h]
    exact G.count c hc hR

/-- **A slot of an inner node** is written; the old reference becomes pending, a pending one is
stored. -/
theorem Good.writeNode (G : Good S L lvl P R top) (hn : n ∈ L) (h2 : 2 ≤ lvl n)
    (hx : ∀ c, x = some c → c ∈ L ∧ lvl c + 1 = lvl n) {Q : List ℕ}
    (hQ : ∀ c ∈ Q, c < S.next) (hR : ∀ r ∈ R, r ∉ Q)
    (hP : ∀ c ∈ L, Q.count c + (if x = some c then 1 else 0) =
      P.count c + (if (S.node n).pointers i = some c then 1 else 0)) :
    Good (S.writeSlot n i x) L lvl Q R top := by
  -- what a slot holds afterwards
  have hslot : ∀ m j c, ((S.writeSlot n i x).node m).pointers j = some c →
      (m = n ∧ x = some c) ∨ (S.node m).pointers j = some c := by
    intro m j c hc
    rw [writeSlot_pointers] at hc
    split at hc
    · rename_i hm
      subst hm
      by_cases hj : j = i
      · subst hj
        rw [update_self] at hc
        exact .inl ⟨rfl, hc⟩
      · rw [update_of_ne hj] at hc
        exact .inr hc
    · exact .inr hc
  refine ⟨by simpa using G.fresh, G.level, bits_writeSlot G.bits, ?_, ?_, ?_, by simpa using hQ, ?_, ?_⟩
  · intro m hm j c hc
    rw [writeSlot_next]
    rcases hslot m j c hc with ⟨-, h⟩ | h
    · exact G.fresh c (hx c h).1
    · exact G.target m hm j c h
  · intro m hm j c hc h2
    rcases hslot m j c hc with ⟨rfl, h⟩ | h
    · exact hx c h
    · exact G.child m hm j c h h2
  · intro m hm j c hc h1
    rcases hslot m j c hc with ⟨rfl, -⟩ | h
    · omega
    · exact G.leaf m hm j c h h1
  · intro r hr
    obtain ⟨h1, h2, h3, -⟩ := G.root r hr
    exact ⟨h1, h2, by simpa using h3, hR r hr⟩
  · intro c hc hcR
    have h1 := refsTo_writeSlot (S := S) hn i x c
    have h2 := hP c hc
    have h3 := G.count c hc hcR
    rw [writeSlot_refCount]
    refine ⟨?_, h3.2⟩
    omega

/-! ### Nodes come and go -/

/-- **A new node** `m` with one pending reference; each of its targets has gained one reference per
slot. -/
theorem Good.addNode (G : Good S L lvl P R top) {m l : ℕ} (hm : m ∉ L) (hmP : m ∉ P)
    (hm0 : refsTo S L m = 0)
    (hnext : S.next ≤ S'.next) (hmn : m < S'.next) (hl : 1 ≤ l ∧ l ≤ top)
    (hold : ∀ c ∈ L, (S'.node c).pointers = (S.node c).pointers ∧
      (S'.node c).presentBits = (S.node c).presentBits ∧
      (S'.node c).refCount = (S.node c).refCount + hits (slots S' m) c)
    (hroot : ∀ r ∈ R, hits (slots S' m) r = 0)
    (hbits : ∀ i : Fin 32, (S'.node m).presentBits.getLsbD i = ((S'.node m).pointers i).isSome)
    (hcount : (S'.node m).refCount = 1)
    (htarget : ∀ i c, (S'.node m).pointers i = some c → c < S'.next ∧ c ≠ m ∧
      (2 ≤ l → c ∈ L ∧ lvl c + 1 = l) ∧
      (l = 1 → c ∉ L)) :
    Good S' (insert m L) (update lvl m l) (m :: P) R top := by
  have hne : ∀ c ∈ L, c ≠ m := fun c hc h => hm (h ▸ hc)
  have hlvl : ∀ c ∈ L, update lvl m l c = lvl c := fun c hc => update_of_ne (hne c hc) _ _
  have hmem : ∀ {c : ℕ}, c ∈ insert m L → c = m ∨ c ∈ L := Finset.mem_insert.mp
  have hrefs : ∀ c, refsTo S' (insert m L) c = hits (slots S' m) c + refsTo S L c := fun c => by
    unfold refsTo
    rw [refs_insert hm]
    congr 1
    exact refs_congr fun n hn => (hold n hn).1
  refine ⟨?_, ?_, ?_, ?_, ?_, ?_, ?_, ?_, ?_⟩
  · intro c hc
    rcases hmem hc with rfl | hc
    · exact hmn
    · exact lt_of_lt_of_le (G.fresh c hc) hnext
  · intro c hc
    rcases hmem hc with rfl | hc
    · simpa using hl
    · rw [hlvl c hc]
      exact G.level c hc
  · intro c hc
    rcases hmem hc with rfl | hc
    · exact hbits
    · rw [(hold c hc).1, (hold c hc).2.1]
      exact G.bits c hc
  · intro c hc i t ht
    rcases hmem hc with rfl | hc
    · exact (htarget i t ht).1
    · rw [(hold c hc).1] at ht
      exact lt_of_lt_of_le (G.target c hc i t ht) hnext
  · intro c hc i t ht h2
    rcases hmem hc with rfl | hc
    · rw [update_self] at h2 ⊢
      obtain ⟨h3, h4⟩ := (htarget i t ht).2.2.1 h2
      exact ⟨Finset.mem_insert_of_mem h3, by rwa [hlvl t h3]⟩
    · rw [(hold c hc).1] at ht
      rw [hlvl c hc] at h2 ⊢
      obtain ⟨h3, h4⟩ := G.child c hc i t ht h2
      exact ⟨Finset.mem_insert_of_mem h3, by rwa [hlvl t h3]⟩
  · intro c hc i t ht h1
    rcases hmem hc with rfl | hcL
    · rw [update_self] at h1
      obtain ⟨-, h3, -, h4⟩ := htarget i t ht
      exact fun h => (hmem h).elim h3 (h4 h1)
    · rw [(hold c hcL).1] at ht
      rw [hlvl c hcL] at h1
      refine fun h => (hmem h).elim (fun htm => ?_) (G.leaf c hcL i t ht h1)
      rw [htm] at ht
      have hpos : 0 < refs L (slots S) m := refs_pos hcL ht
      exact absurd hm0 (ne_of_gt hpos)
  · intro c hc
    rcases List.mem_cons.mp hc with rfl | hc
    · exact hmn
    · exact lt_of_lt_of_le (G.pending c hc) hnext
  · intro r hr
    obtain ⟨h1, h2, h3, h4⟩ := G.root r hr
    refine ⟨Finset.mem_insert_of_mem h1, by rwa [hlvl r h1], ?_, ?_⟩
    · rw [(hold r h1).2.2, h3, hroot r hr]
    · exact fun h => (List.mem_cons.mp h).elim (hne r h1) h4
  · intro c hc hcR
    rw [hrefs]
    rcases hmem hc with rfl | hc
    · have h0 : hits (slots S' c) c = 0 := hits_eq_zero.mpr fun i hi => (htarget i c hi).2.1 rfl
      rw [hcount, h0, hm0, List.count_cons_self, List.count_eq_zero.mpr hmP]
      exact ⟨rfl, le_rfl⟩
    · obtain ⟨h1, h2⟩ := G.count c hc hcR
      rw [(hold c hc).2.2, List.count_cons_of_ne (fun h => hne c hc h.symm)]
      omega

theorem Good.dropRef {c : ℕ} (G : Good S L lvl (c :: P) R top) (hc : c ∈ L) (hR : c ∉ R)
    (h1 : 1 < (S.node c).refCount) : Good (S.decRef c) L lvl P R top := by
  have hptr : ∀ m, ((S.decRef c).node m).pointers = (S.node m).pointers ∧
      ((S.decRef c).node m).presentBits = (S.node m).presentBits := fun m => by
    unfold decRef
    rw [setNode_node]
    split <;> simp_all
  have hslots : slots (S.decRef c) = slots S := funext fun m => (hptr m).1
  have hcount : ∀ m, ((S.decRef c).node m).refCount = if m = c then (S.node c).refCount - 1
      else (S.node m).refCount :=
    fun m => by
      unfold decRef
      rw [setNode_node]
      split <;> rfl
  refine ⟨G.fresh, G.level, ?_, ?_, ?_, ?_, fun d hd => G.pending d (by simp [hd]), ?_, ?_⟩
  · intro n hn
    rw [(hptr n).1, (hptr n).2]
    exact G.bits n hn
  · intro n hn
    rw [(hptr n).1]
    exact G.target n hn
  · intro n hn
    rw [(hptr n).1]
    exact G.child n hn
  · intro n hn
    rw [(hptr n).1]
    exact G.leaf n hn
  · intro r hr
    obtain ⟨h2, h3, h4, h5⟩ := G.root r hr
    refine ⟨h2, h3, ?_, fun h => h5 (by simp [h])⟩
    rw [hcount, if_neg (by rintro rfl; exact hR hr), h4]
  · intro d hd hdR
    obtain ⟨h2, h3⟩ := G.count d hd hdR
    rw [hcount, refsTo, hslots]
    unfold refsTo at h2
    by_cases hdc : d = c
    · subst hdc
      rw [List.count_cons_self] at h2
      rw [if_pos rfl]
      omega
    · rw [List.count_cons_of_ne (Ne.symm hdc)] at h2
      rw [if_neg hdc]
      exact ⟨h2, h3⟩

/-- **The last reference** is dropped: the node dies, and its own references become pending. -/
theorem Good.retire {c : ℕ} (G : Good S L lvl (c :: P) R top) (hc : c ∈ L) (hR : c ∉ R)
    (h1 : (S.node c).refCount = 1) :
    Good (S.decRef c) (L.erase c) lvl (targets (slots S c) ++ P) R top := by
  obtain ⟨hcnt, -⟩ := G.count c hc hR
  rw [h1, List.count_cons_self] at hcnt
  have hrefs0 : refs L (slots S) c = 0 := by
    have : refsTo S L c = 0 := by omega
    exact this
  have hother : ∀ m ∈ L.erase c, (S.decRef c).node m = S.node m := fun m hm => by
    unfold decRef
    rw [setNode_node, if_neg (Finset.ne_of_mem_erase hm)]
  have hL : ∀ {m : ℕ}, m ∈ L.erase c → m ∈ L := Finset.mem_of_mem_erase
  refine ⟨fun m hm => G.fresh m (hL hm), fun m hm => G.level m (hL hm), ?_, ?_, ?_, ?_, ?_, ?_, ?_⟩
  · intro m hm
    rw [hother m hm]
    exact G.bits m (hL hm)
  · intro m hm
    rw [hother m hm]
    exact G.target m (hL hm)
  · intro m hm i t ht h2
    rw [hother m hm] at ht
    obtain ⟨h3, h4⟩ := G.child m (hL hm) i t ht h2
    refine ⟨Finset.mem_erase.mpr ⟨?_, h3⟩, h4⟩
    rintro rfl
    have hpos : 0 < refs L (slots S) t := refs_pos (hL hm) ht
    omega
  · intro m hm i t ht h2
    rw [hother m hm] at ht
    exact fun h => G.leaf m (hL hm) i t ht h2 (hL h)
  · intro t ht
    rcases List.mem_append.mp ht with ht | ht
    · obtain ⟨i, hi⟩ := mem_targets.mp ht
      exact G.target c hc i t hi
    · exact G.pending t (by simp [ht])
  · intro r hr
    obtain ⟨h2, h3, h4, h5⟩ := G.root r hr
    have hrc : r ≠ c := by rintro rfl; exact hR hr
    have hrL : r ∈ L.erase c := Finset.mem_erase.mpr ⟨hrc, h2⟩
    refine ⟨hrL, h3, by rw [hother r hrL]; exact h4, fun h => ?_⟩
    rcases List.mem_append.mp h with h | h
    · -- a root is the target of no slot
      obtain ⟨i, hi⟩ := mem_targets.mp h
      have hpos : 0 < refs L (slots S) r := refs_pos hc hi
      exact absurd (G.refs_top h2 h3) (ne_of_gt hpos)
    · exact h5 (by simp [h])
  · intro d hd hdR
    have hdc := Finset.ne_of_mem_erase hd
    obtain ⟨h2, h3⟩ := G.count d (hL hd) hdR
    rw [hother d hd]
    refine ⟨?_, h3⟩
    have he : hits (slots S c) d + refs (L.erase c) (slots S) d = refs L (slots S) d := refs_erase hc
    have hcongr : refsTo (S.decRef c) (L.erase c) d = refs (L.erase c) (slots S) d :=
      refs_congr fun m hm => by unfold slots; rw [hother m hm]
    rw [hcongr, List.count_append, count_targets]
    rw [List.count_cons_of_ne (Ne.symm hdc)] at h2
    unfold refsTo at h2
    omega

/-- A root whose tree goes away becomes a node with a pending reference. -/
theorem Good.unroot {r : ℕ} (G : Good S L lvl P (r :: R) top) (hr : r ∉ R) :
    Good S L lvl (r :: P) R top := by
  obtain ⟨h1, h2, h3, h4⟩ := G.root r (by simp)
  refine ⟨G.fresh, G.level, G.bits, G.target, G.child, G.leaf, ?_, ?_, ?_⟩
  · intro c hc
    rcases List.mem_cons.mp hc with rfl | hc
    · exact G.fresh c h1
    · exact G.pending c hc
  · intro s hs
    obtain ⟨g1, g2, g3, g4⟩ := G.root s (by simp [hs])
    refine ⟨g1, g2, g3, fun h => (List.mem_cons.mp h).elim (fun he => ?_) g4⟩
    subst he
    exact hr hs
  · intro c hc hcR
    by_cases hcr : c = r
    · subst hcr
      rw [h3, G.refs_top h1 h2, List.count_cons_self, List.count_eq_zero.mpr h4]
      exact ⟨rfl, le_rfl⟩
    · rw [List.count_cons_of_ne (Ne.symm hcr)]
      exact G.count c hc (by simp [hcr, hcR])

/-- A node of the top level with its one reference pending becomes a root. -/
theorem Good.toRoot {r : ℕ} (G : Good S L lvl (r :: P) R top) (hr : r ∈ L) (hl : lvl r = top)
    (hR : r ∉ R) (hP : r ∉ P) : Good S L lvl P (r :: R) top := by
  have h0 := G.count r hr hR
  rw [G.refs_top hr hl, List.count_cons_self, List.count_eq_zero.mpr hP] at h0
  refine ⟨G.fresh, G.level, G.bits, G.target, G.child, G.leaf,
    fun c hc => G.pending c (by simp [hc]), ?_, ?_⟩
  · intro s hs
    rcases List.mem_cons.mp hs with rfl | hs
    · exact ⟨hr, hl, h0.1, hP⟩
    · obtain ⟨g1, g2, g3, g4⟩ := G.root s hs
      exact ⟨g1, g2, g3, fun h => g4 (by simp [h])⟩
  · intro c hc hcR
    simp only [List.mem_cons, not_or] at hcR
    have := G.count c hc hcR.2
    rwa [List.count_cons_of_ne (Ne.symm hcR.1)] at this

end GheithOS.BitTree
