import Mathlib
import GheithOS.Heap.Layout

/-!
# GheithOS.Heap.Malloc — what `malloc` does to the layout

`search_eq`: the walk of the free list ends, meets no taken block, and folds over the first 20
blocks that are large enough; `foldl_remember`: the result is the smallest of them.  `malloc_spec`:
either nothing changes and the result is null, or that block `b` is replaced by `carve b ints`, and
every cell that changes lies in an available block.
-/

namespace GheithOS.Heap

open Lib

variable {a : Area} {h : State} {bs : List Blk} {fl : List ℤ}

/-- What is left of the available block `b` when `malloc` takes `ints` ints of it. -/
def carve (b : Blk) (ints : ℤ) : List Blk :=
  if b.len - ints ≥ 4 then [⟨b.start, ints, true⟩, ⟨b.start + ints, b.len - ints, false⟩]
  else [⟨b.start, b.len, true⟩]

theorem four_le_intsFor (bytes : ℕ) : 4 ≤ intsFor bytes := by
  unfold intsFor
  dsimp only
  split <;> omega

/-- What the walk remembers of the blocks that are large enough: the least size so far, and its
block. -/
def remember (h : State) (best : ℤ × ℤ) (x : ℤ) : ℤ × ℤ := if size h x < best.1 then (size h x, x) else best

/-- The blocks the walk compares: the first 20 of the list with at least `ints` ints. -/
def candidates (h : State) (fl : List ℤ) (ints : ℤ) : List ℤ := (fl.filter fun x => ints ≤ size h x).take 20

variable {l : List ℤ} {mx it : ℤ}

/-- **The walk** meets no taken block, ends within its fuel, and compares the first `k + 1` blocks
that are large enough. -/
theorem search_eq (H : Layout h bs fl) (ints : ℤ) {fuel k : ℕ} {pr p : ℤ}
    (hl : Linked (next h) (prev h) 0 pr p l) (hmem : ∀ x ∈ l, x ∈ fl) (hf : l.length < fuel) :
    search h ints fuel p mx it (k + 1) =
      .ok (((l.filter fun x => ints ≤ size h x).take (k + 1)).foldl (remember h) (mx, it)) := by
  induction l generalizing fuel k pr p mx it with
  | nil =>
    obtain ⟨fuel, rfl⟩ : ∃ m, fuel = m + 1 := ⟨fuel - 1, by simp at hf; omega⟩
    have hp : p = 0 := hl
    simp [search, hp]
  | cons x l ih =>
    obtain ⟨fuel, rfl⟩ : ∃ m, fuel = m + 1 := ⟨fuel - 1, by simp at hf; omega⟩
    obtain ⟨rfl, hp0, -, hrest⟩ := hl
    obtain ⟨b, hb, ht, hbp⟩ := (H.free p).mp (hmem p (by simp))
    have hav : isAvail h p = true := by rw [← hbp, H.isAvail_iff hb, ht]; rfl
    have hrec : ∀ {k : ℕ} {mx it : ℤ}, search h ints fuel (next h p) mx it (k + 1) =
        .ok (((l.filter fun x => ints ≤ size h x).take (k + 1)).foldl (remember h) (mx, it)) :=
          fun {k mx it} =>
      ih hrest (fun y hy => hmem y (by simp [hy])) (by simpa using hf)
    simp only [search, hp0, ite_false, hav, Bool.not_true, Bool.false_eq_true]
    by_cases hsz : size h p ≥ ints
    · have hone : (if size h p < mx then size h p else mx, if size h p < mx then p else it) =
          remember h (mx, it) p := by
        unfold remember
        split <;> rfl
      rw [if_pos hsz, List.filter_cons_of_pos (by simpa using hsz), List.take_succ_cons,
        List.foldl_cons, ← hone]
      cases k with
      | zero => simp
      | succ k =>
        rw [if_neg (by push_cast; omega), show ((k + 1 : ℕ) : ℤ) + 1 - 1 = (k : ℤ) + 1 by push_cast; omega]
        exact hrec
    · rw [if_neg hsz, List.filter_cons_of_neg (by simpa using hsz)]
      exact hrec

theorem foldl_remember (hmx : ∀ x ∈ l, size h x < mx) :
    l.foldl (remember h) (mx, it) = (l.argmin (size h)).elim (mx, it) fun x => (size h x, x) := by
  induction l using List.reverseRecOn with
  | nil => rfl
  | append_singleton l x ih =>
    rw [List.foldl_concat, ih fun y hy => hmx y (by simp [hy]), List.argmin_concat]
    cases hmin : l.argmin (size h) with
    | none =>
      simp only [Option.elim]
      rw [remember, if_pos (hmx x (by simp))]
    | some y =>
      by_cases hlt : size h x < size h y
      · simp [remember, hlt]
      · simp [remember, hlt]

theorem Layout.length_fl (H : Layout h bs fl) : fl.length < h.len.toNat + 1 := by
  have hsub : fl ⊆ bs.map Block.start := fun i hi => by
    obtain ⟨b, hb, -, rfl⟩ := (H.free i).mp hi
    exact List.mem_map_of_mem hb
  have h1 := (H.nodup.subperm hsub).length_le
  have h2 := H.tiles.length_le
  rw [List.length_map] at h1
  omega

variable {ints : ℤ}

/-- **Taking a block**: the available block `b` is unlinked and carved. -/
theorem takeBlock_spec {xs ys : List Blk} {b : Blk} (H : Layout h (xs ++ [b] ++ ys) fl)
    (ht : b.tag = false) (h4 : 4 ≤ ints) (hle : ints ≤ b.len) :
    (∃ fl', Layout (takeBlock h b.start b.len ints) (xs ++ carve b ints ++ ys) fl') ∧
      ∀ k, ¬ InAvail (xs ++ [b] ++ ys) k → (takeBlock h b.start b.len ints).array k = h.array k := by
  have hb : b ∈ xs ++ [b] ++ ys := by simp
  have hns := H.not_sentinel hb ht
  have hxs : xs ≠ [] := Layout.left_ne_nil (by simpa using H) hns.1
  have hys : ys ≠ [] := H.right_ne_nil hns.2
  have hb4 := (H.avail_bounds hb ht).1
  have htile : Tiles b.start [b] b.stop := tiles_singleton.mpr ⟨rfl, by omega, rfl⟩
  obtain ⟨fl', F, hmem', hframe'⟩ := H.freeList.remove ((H.free _).mpr ⟨b, hb, ht, rfl⟩)
  have hfree : ∀ i, i ∈ fl' ↔ ∃ c ∈ xs ++ ys, c.tag = false ∧ c.start = i := fun i => by
    rw [hmem' i, H.avail_around (by simp) htile i, H.free i]
    simp only [List.mem_singleton, forall_eq, ne_eq, eq_comm (a := i)]
  -- the blocks on both sides of `b`; the one after it is taken
  obtain ⟨hcx, hcy, hys_tag⟩ : Apart xs ∧ Apart ys ∧ ∀ y ∈ ys.head?, y.tag = true := by
    obtain ⟨h1, h2, h3⟩ := List.isChain_append.mp H.apart
    refine ⟨(List.isChain_append.mp h1).1, h2, fun y hy => ?_⟩
    simpa [ht] using h3 b (by simp) y hy
  have hout : ∀ k, ¬ InAvail (xs ++ [b] ++ ys) k → (k < b.start ∨ b.stop ≤ k) ∧ ¬ IsLink fl k := by
    intro k hk
    refine ⟨?_, fun hl => hk (H.inAvail_of_link hl)⟩
    by_contra hc
    exact hk ⟨b, hb, ht, by omega, by omega⟩
  -- taking the first `n` ints of the unlinked block
  have hT : ∀ n, 4 ≤ n → n ≤ b.len → ∀ k, (k < b.start ∨ b.stop ≤ k) →
      (makeTaken (remove h b.start) b.start n).array k = (remove h b.start).array k := by
    intro n hn hnb k hk
    rw [makeTaken_cell _ (by omega), if_neg]
    unfold Block.stop at hk
    omega
  have hTF : ∀ n, 4 ≤ n → n ≤ b.len → FreeList (makeTaken (remove h b.start) b.start n) fl' := by
    refine fun n hn hnb => ⟨linked_frame F.linked fun k hk => hT n hn hnb k ?_, F.nodup, F.spaced⟩
    obtain ⟨j, hj, hk⟩ := hk
    have := H.node_far hb ((hmem' j).mp hj).1 ((hmem' j).mp hj).2
    omega
  have hTtags : ∀ n, 4 ≤ n → n ≤ b.len → ∀ c ∈ xs ++ ys,
      (makeTaken (remove h b.start) b.start n).array c.start = h.array c.start ∧
      (makeTaken (remove h b.start) b.start n).array c.foot = h.array c.foot := by
    intro n hn hnb c hc
    have ho := H.outside (by simp) htile hc
    have hnl := H.tag_not_link (b := c) (by simp only [List.mem_append] at hc ⊢; tauto)
    rw [hT n hn hnb _ (by omega), hT n hn hnb _ (by omega), hframe' _ hnl.1, hframe' _ hnl.2]
    exact ⟨rfl, rfl⟩
  have hTblk : ∀ n, 4 ≤ n → (makeTaken (remove h b.start) b.start n).array b.start = -n ∧
      (makeTaken (remove h b.start) b.start n).array (b.start + n - 1) = -n := by
    intro n hn
    rw [makeTaken_cell _ (by omega), makeTaken_cell _ (by omega)]
    simp
  by_cases hex : b.len - ints ≥ 4
  · simp only [takeBlock, carve, hex, ite_true]
    have hput := H.putAvail (p := [⟨b.start, ints, true⟩]) (i := b.start + ints) hxs hys (by simp) htile
      (by simp) (hTF ints h4 hle) hfree (hTtags ints h4 hle)
      (tiles_singleton.mpr ⟨rfl, by simp only; omega, rfl⟩) (by simpa using h4)
      (by simpa [word, Block.foot] using hTblk ints h4) (by unfold Block.stop; omega) hex
      (by
        rw [List.append_assoc]
        refine List.isChain_append.mpr ⟨hcx, List.isChain_cons.mpr ⟨by simp, ?_⟩, by simp⟩
        exact List.isChain_cons.mpr ⟨fun y hy => .inr (hys_tag y hy), hcy⟩)
    refine ⟨⟨_, hput.1⟩, fun k hk => ?_⟩
    rw [hput.2 k hk (hout k hk).1, hT ints h4 hle k (hout k hk).1, hframe' k (hout k hk).2]
  · simp only [takeBlock, carve, hex, ite_false]
    refine ⟨⟨fl', H.replace hxs hys (by simp) htile (by simp) ?_ (by simpa using hb4) ?_
      (hTtags _ hb4 le_rfl) ?_ (hTF _ hb4 le_rfl).linked F.nodup ?_⟩, fun k hk => ?_⟩
    · exact tiles_singleton.mpr ⟨rfl, by simp only; omega, rfl⟩
    · simpa [word, Block.foot] using hTblk _ hb4
    · rw [List.append_assoc]
      exact List.isChain_append.mpr ⟨hcx, List.isChain_cons.mpr ⟨by simp, hcy⟩, by simp⟩
    · intro i
      rw [hfree i]
      simp only [List.mem_append, List.mem_singleton]
      constructor
      · rintro ⟨c, hc, hcs⟩
        exact ⟨c, by tauto, hcs⟩
      · rintro ⟨c, (hc | rfl) | hc, hcs⟩
        · exact ⟨c, .inl hc, hcs⟩
        · simp at hcs
        · exact ⟨c, .inr hc, hcs⟩
    · rw [hT _ hb4 le_rfl _ (hout k hk).1, hframe' _ (hout k hk).2]

@[simp] theorem takeBlock_len (h : State) (it mx ints : ℤ) : (takeBlock h it mx ints).len = h.len := by
  unfold takeBlock
  dsimp only
  split <;> simp

@[simp] theorem takeBlock_heapCount (h : State) (it mx ints : ℤ) :
    (takeBlock h it mx ints).heapCount = h.heapCount := by
  unfold takeBlock
  dsimp only
  split <;> simp

variable {x : ℤ}

theorem Layout.size_lt (H : Layout h bs fl) (hx : x ∈ fl) : size h x < h.len := by
  obtain ⟨b, hb, ht, rfl⟩ := (H.free x).mp hx
  have := H.avail_bounds hb ht
  rw [H.size_eq hb]
  unfold Block.stop at this
  omega

theorem Layout.search (H : Layout h bs fl) (hmax : h.len ≤ 0x7FFFFFFF) (ints : ℤ) :
    Heap.search h ints (h.len.toNat + 1) h.avail 0x7FFFFFFF 0 20 =
      .ok (((candidates h fl ints).argmin (size h)).elim (0x7FFFFFFF, 0) fun x => (size h x, x)) := by
  rw [show (20 : ℤ) = (19 : ℕ) + 1 by rfl, search_eq H ints H.linked (fun _ hx => hx) H.length_fl]
  refine congrArg Except.ok (foldl_remember fun x hx => ?_)
  have := H.size_lt (List.mem_filter.mp (List.mem_of_mem_take hx)).1
  omega

theorem Layout.candidate (H : Layout h bs fl) (hx : x ∈ candidates h fl ints) :
    ∃ b ∈ bs, b.tag = false ∧ b.start = x ∧ ints ≤ b.len := by
  obtain ⟨hfl, hle⟩ := List.mem_filter.mp (List.mem_of_mem_take hx)
  obtain ⟨b, hb, ht, rfl⟩ := (H.free x).mp hfl
  rw [H.size_eq hb] at hle
  exact ⟨b, hb, ht, rfl, by simpa using hle⟩

theorem Layout.candidates_eq_nil (H : Layout h bs fl) :
    candidates h fl ints = [] ↔ ∀ b ∈ bs, b.tag = false → b.len < ints := by
  rw [candidates, List.take_eq_nil_iff, or_iff_right (by decide), List.filter_eq_nil_iff]
  constructor
  · intro h b hb ht
    have := h b.start ((H.free _).mpr ⟨b, hb, ht, rfl⟩)
    rw [H.size_eq hb] at this
    simpa using this
  · intro h x hx
    obtain ⟨b, hb, ht, rfl⟩ := (H.free x).mp hx
    rw [H.size_eq hb]
    simpa using h b hb ht

/-- **`malloc`** takes the smallest of the candidates, or returns null and changes nothing; null
means that no available block is large enough. -/
theorem malloc_spec (H : Layout h bs fl) (hmax : h.len ≤ 0x7FFFFFFF) {bytes : ℕ} (h0 : bytes ≠ 0) :
    (malloc a h bytes = .ok (0, h) ∧ ∀ b ∈ bs, b.tag = false → b.len < intsFor bytes) ∨
    ∃ xs b ys h', bs = xs ++ [b] ++ ys ∧ b.tag = false ∧ intsFor bytes ≤ b.len ∧
      (candidates h fl (intsFor bytes)).argmin (size h) = some b.start ∧
      malloc a h bytes = .ok (a.addr (b.start + 1), h') ∧ h'.len = h.len ∧
      h'.heapCount = (h.heapCount + 1) % 2 ^ 32 ∧
      (∃ fl', Layout h' (xs ++ carve b (intsFor bytes) ++ ys) fl') ∧
      ∀ k, ¬ InAvail bs k → h'.array k = h.array k := by
  have hs := H.search hmax (intsFor bytes)
  cases hmin : (candidates h fl (intsFor bytes)).argmin (size h) with
  | none =>
    rw [hmin] at hs
    refine .inl ⟨by simp only [malloc, h0, ite_false, hs]; rfl, ?_⟩
    exact H.candidates_eq_nil.mp (List.argmin_eq_none.mp hmin)
  | some it =>
    obtain ⟨b, hb, ht, rfl, hle⟩ := H.candidate (List.argmin_mem hmin)
    have hb0 := (H.not_sentinel hb ht).1
    rw [hmin, Option.elim, H.size_eq hb] at hs
    obtain ⟨xs, ys, rfl⟩ := List.append_of_mem hb
    have e : xs ++ b :: ys = xs ++ [b] ++ ys := by simp
    rw [e] at H ⊢
    obtain ⟨⟨fl', hL⟩, hframe⟩ := takeBlock_spec H ht (four_le_intsFor bytes) hle
    refine .inr ⟨xs, b, ys, { takeBlock h b.start b.len (intsFor bytes) with
      heapCount := (h.heapCount + 1) % 2 ^ 32 }, rfl, ht, hle, rfl, ?_, by simp, rfl,
        ⟨fl', hL.withCount _⟩, hframe⟩
    simp only [malloc, h0, ite_false, hs, bind, Except.bind, hb0, ne_eq,
      not_false_eq_true, ite_true, takeBlock_heapCount]
    rfl

end GheithOS.Heap
