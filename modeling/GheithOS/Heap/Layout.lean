import Mathlib.Data.List.Chain
import GheithOS.Lib.Linked
import GheithOS.Lib.Tiling
import GheithOS.Heap.Model

/-!
# GheithOS.Heap.Layout — the representation invariant of the heap and the list primitives

`Layout h bs fl`: the blocks `bs` tile the array between two taken sentinels of two ints, every
block carries its tag at both ends, no two available blocks touch, and `fl` is the doubly linked
list of the available blocks.  `remove` and `makeAvail` are described once, by the cells they change
and the list they leave (`remove_cell`, `remove_linked`, `makeAvail_cell`, `makeAvail_linked`);
`malloc` and `free` use these and `Layout.replace`, which exchanges a stretch of blocks for another
one.
-/

namespace GheithOS.Heap

open Lib

/-- A block of ints; the label says whether it is taken. -/
abbrev Blk := Block Bool

/-- The word at both ends of a block. -/
def word (b : Blk) : ℤ := if b.tag then -b.len else b.len

/-- The cells that hold the list links of the available blocks. -/
def IsLink (fl : List ℤ) (k : ℤ) : Prop := ∃ i ∈ fl, k = i + 1 ∨ k = i + 2

/-- Of two neighbours, one is taken. -/
abbrev Apart (bs : List Blk) : Prop := bs.IsChain fun b c => b.tag = true ∨ c.tag = true

structure Layout (h : State) (bs : List Blk) (fl : List ℤ) : Prop where
  tiles : Tiles 0 bs h.len
  first : bs.head? = some ⟨0, 2, true⟩
  final : bs.getLast? = some ⟨h.len - 2, 2, true⟩
  large : ∀ b ∈ bs, b.start = 0 ∨ b.start = h.len - 2 ∨ 4 ≤ b.len
  tags : ∀ b ∈ bs, h.array b.start = word b ∧ h.array b.foot = word b
  apart : Apart bs
  linked : Linked (next h) (prev h) 0 0 h.avail fl
  nodup : fl.Nodup
  free : ∀ i, i ∈ fl ↔ ∃ b ∈ bs, b.tag = false ∧ b.start = i

/-! ### Cells -/

variable {b : Blk} {i ints : ℤ}

section Cells

@[simp] theorem set_array (h : State) (i x k : ℤ) :
    (h.set i x).array k = if k = i then x else h.array k := by
  simp [State.set, Function.update_apply]

@[simp] theorem set_avail (h : State) (i x : ℤ) : (h.set i x).avail = h.avail := rfl

@[simp] theorem set_len (h : State) (i x : ℤ) : (h.set i x).len = h.len := rfl

@[simp] theorem set_heapCount (h : State) (i x : ℤ) : (h.set i x).heapCount = h.heapCount := rfl

variable {x : ℤ}

theorem abs_neg_of_pos (hx : 0 < x) : abs (-x) = x := by
  unfold abs
  split <;> omega

theorem abs_of_pos (hx : 0 < x) : abs x = x := by
  unfold abs
  split <;> omega

theorem abs_word (hb : 0 < b.len) : abs (word b) = b.len := by
  unfold word
  split
  · exact abs_neg_of_pos hb
  · exact abs_of_pos hb

theorem makeTaken_cell (h : State) (hi : 0 < ints) (k : ℤ) :
    (makeTaken h i ints).array k = if k = i ∨ k = i + ints - 1 then -ints else h.array k := by
  have hf : footerFromHeader (h.set i (-ints)) i = i + ints - 1 := by
    simp [footerFromHeader, size, abs_neg_of_pos hi]
  simp only [makeTaken, hf, set_array]
  split <;> split <;> simp_all

@[simp] theorem makeTaken_avail (h : State) (i ints : ℤ) : (makeTaken h i ints).avail = h.avail := rfl

@[simp] theorem makeTaken_len (h : State) (i ints : ℤ) : (makeTaken h i ints).len = h.len := rfl

@[simp] theorem makeTaken_heapCount (h : State) (i ints : ℤ) :
    (makeTaken h i ints).heapCount = h.heapCount := rfl

/-- The cells `makeAvail` writes: the two tags, the two links, and the back link of the old head. -/
theorem makeAvail_cell (h : State) (hi : 4 ≤ ints) (k : ℤ) :
    (makeAvail h i ints).array k =
      if h.avail ≠ 0 ∧ k = h.avail + 2 then i else if k = i + 2 then 0
      else if k = i + 1 then h.avail else if k = i ∨ k = i + ints - 1 then ints else h.array k := by
  have hf : footerFromHeader (h.set i ints) i = i + ints - 1 := by
    simp [footerFromHeader, size, abs_of_pos (show (0 : ℤ) < ints by omega)]
  simp only [makeAvail, hf, setNext, setPrev, set_avail]
  by_cases ha : h.avail = 0
  · simp only [ha, ne_eq, not_true_eq_false, ite_false, false_and, set_array]
    split_ifs <;> omega
  · simp only [ha, ne_eq, not_false_eq_true, ite_true, true_and, set_array]
    split_ifs <;> omega

@[simp] theorem makeAvail_avail (h : State) (i ints : ℤ) : (makeAvail h i ints).avail = i := rfl

@[simp] theorem makeAvail_len (h : State) (i ints : ℤ) : (makeAvail h i ints).len = h.len := by
  unfold makeAvail setNext setPrev
  dsimp only
  split <;> simp

@[simp] theorem makeAvail_heapCount (h : State) (i ints : ℤ) :
    (makeAvail h i ints).heapCount = h.heapCount := by
  unfold makeAvail setNext setPrev
  dsimp only
  split <;> simp

/-- The cells `remove` writes: the forward link of the predecessor and the back link of the
successor. -/
theorem remove_cell (h : State) (i k : ℤ) :
    (remove h i).array k =
      if next h i ≠ 0 ∧ k = next h i + 2 then prev h i
      else if prev h i ≠ 0 ∧ k = prev h i + 1 then next h i else h.array k := by
  unfold remove setNext setPrev
  by_cases hp : prev h i = 0 <;> by_cases hn : next h i = 0 <;> simp [hp, hn]

@[simp] theorem remove_avail (h : State) (i : ℤ) :
    (remove h i).avail = if prev h i = 0 then next h i else h.avail := by
  unfold remove setNext setPrev
  by_cases hp : prev h i = 0 <;> by_cases hn : next h i = 0 <;> simp [hp, hn]

@[simp] theorem remove_len (h : State) (i : ℤ) : (remove h i).len = h.len := by
  unfold remove setNext setPrev
  by_cases hp : prev h i = 0 <;> by_cases hn : next h i = 0 <;> simp [hp, hn]

@[simp] theorem remove_heapCount (h : State) (i : ℤ) : (remove h i).heapCount = h.heapCount := by
  unfold remove setNext setPrev
  by_cases hp : prev h i = 0 <;> by_cases hn : next h i = 0 <;> simp [hp, hn]

end Cells

/-! ### The free list -/

variable {k : ℤ} {h' : State}

section FreeList

/-- The nodes of a free list are far enough apart for their links not to overlap. -/
def Spaced (fl : List ℤ) : Prop := ∀ i ∈ fl, ∀ j ∈ fl, i = j ∨ i + 4 ≤ j ∨ j + 4 ≤ i

variable {h : State} {l₁ l₂ fl : List ℤ} {i : ℤ}

theorem remove_linked (hl : Linked (next h) (prev h) 0 0 h.avail (l₁ ++ i :: l₂))
    (hnd : (l₁ ++ i :: l₂).Nodup) (hsp : Spaced (l₁ ++ i :: l₂)) :
    Linked (next (remove h i)) (prev (remove h i)) 0 0 (remove h i).avail (l₁ ++ l₂) := by
  have hne := hl.ne_nil_of_mem
  have h0 : (0 :: l₁ ++ i :: l₂).Nodup := by
    rw [List.cons_append, List.nodup_cons]
    exact ⟨fun hm => hne 0 hm rfl, hnd⟩
  -- the two neighbours of `i` are nodes of the list, or the end of it
  have hnm : next h i ≠ 0 → next h i ∈ l₁ ++ i :: l₂ := fun hn => by simp [hl.nxt_mem hn]
  have hpm : prev h i ≠ 0 → prev h i ∈ l₁ ++ i :: l₂ := fun hp => by simp [hl.prv_mem hp]
  have hmem : ∀ y ∈ l₁ ++ l₂, y ∈ l₁ ++ i :: l₂ := fun y hy => by
    simp only [List.mem_append, List.mem_cons] at hy ⊢
    tauto
  have hlast : prev h i = 0 ↔ l₁ = [] := by
    constructor
    · intro hp
      by_contra hL
      obtain ⟨z, hz⟩ := Option.isSome_iff_exists.mp (List.getLast?_isSome.mpr hL)
      rw [hl.prv_eq, hz, Option.getD_some] at hp
      exact hne z (by simp [List.mem_of_getLast? hz]) hp
    · rintro rfl
      exact hl.prv_eq
  have key : Linked (next (remove h i)) (prev (remove h i)) 0 0 (if l₁ = [] then next h i else h.avail)
      (l₁ ++ l₂) := by
    refine Linked.remove hl h0 ?_ ?_
    · intro y hy
      have hsy := hsp y (hmem y hy)
      have hyz := hne y (hmem y hy)
      rw [next, sanity, remove_cell]
      rw [if_neg (by rintro ⟨hn, hc⟩; have := hsy _ (hnm hn); omega)]
      by_cases hp : prev h i = 0
      · simp only [hp, hyz, ne_eq, not_true_eq_false, false_and, ite_false]
        rfl
      · simp only [hp, ne_eq, not_false_eq_true, true_and, Int.add_left_inj]
        rfl
    · intro y hy
      have hsy := hsp y (hmem y hy)
      have hyz := hne y (hmem y hy)
      rw [prev, sanity, remove_cell]
      by_cases hn : next h i = 0
      · rw [if_neg (by simp [hn]), if_neg (by rintro ⟨hp, hc⟩; have := hsy _ (hpm hp); omega)]
        rw [hn, if_neg hyz]
        rfl
      · simp only [hn, ne_eq, not_false_eq_true, true_and, Int.add_left_inj]
        by_cases hyn : y = next h i
        · rw [if_pos hyn, if_pos hyn]
        · rw [if_neg hyn, if_neg hyn, if_neg (by rintro ⟨hp, hc⟩; have := hsy _ (hpm hp); omega)]
          rfl
  rw [remove_avail]
  by_cases hL : l₁ = []
  · rw [if_pos (hlast.mpr hL)]
    rwa [if_pos hL] at key
  · rw [if_neg (fun hc => hL (hlast.mp hc))]
    rwa [if_neg hL] at key

theorem remove_frame (hl : Linked (next h) (prev h) 0 0 h.avail (l₁ ++ i :: l₂))
    (hk : ¬ IsLink (l₁ ++ i :: l₂) k) : (remove h i).array k = h.array k := by
  rw [remove_cell, if_neg, if_neg]
  · rintro ⟨hp, rfl⟩
    exact hk ⟨prev h i, by simp [hl.prv_mem hp], .inl rfl⟩
  · rintro ⟨hn, rfl⟩
    exact hk ⟨next h i, by simp [hl.nxt_mem hn], .inr rfl⟩

/-- A list survives writes outside its links. -/
theorem linked_frame {a : ℤ} (hl : Linked (next h) (prev h) 0 0 a fl)
    (hk : ∀ k, IsLink fl k → h'.array k = h.array k) : Linked (next h') (prev h') 0 0 a fl :=
  hl.congr fun x hx => ⟨hk _ ⟨x, hx, .inl rfl⟩, hk _ ⟨x, hx, .inr rfl⟩⟩

theorem makeAvail_linked (hl : Linked (next h) (prev h) 0 0 h.avail fl) (hnd : fl.Nodup)
    (hi : i ≠ 0) (hints : 4 ≤ ints) (hsp : Spaced fl) (hfar : ∀ j ∈ fl, i + ints ≤ j ∨ j + 4 ≤ i) :
    Linked (next (makeAvail h i ints)) (prev (makeAvail h i ints)) 0 0 i (i :: fl) := by
  have hne := hl.ne_nil_of_mem
  have havail : h.avail ≠ 0 → i + ints ≤ h.avail ∨ h.avail + 4 ≤ i := fun h0 => hfar _ (hl.head_mem h0)
  refine hl.push hi hnd ?_ ?_ ?_ ?_
  · rw [next, sanity, makeAvail_cell h hints]
    split_ifs <;> omega
  · rw [prev, sanity, makeAvail_cell h hints]
    split_ifs <;> omega
  · intro y hy
    have hyi := hfar y hy
    have hya : h.avail ≠ 0 → y = h.avail ∨ y + 4 ≤ h.avail ∨ h.avail + 4 ≤ y := fun h0 =>
      hsp y hy _ (hl.head_mem h0)
    rw [next, sanity, makeAvail_cell h hints, next, sanity]
    split_ifs <;> omega
  · intro y hy
    have hyi := hfar y hy
    have hy0 := hne y hy
    rw [prev, sanity, makeAvail_cell h hints, prev, sanity]
    split_ifs <;> omega

/-- `makeAvail` only writes inside the new block and links of nodes of the list. -/
theorem makeAvail_frame (hl : Linked (next h) (prev h) 0 0 h.avail fl) (hints : 4 ≤ ints)
    (hk : ¬ IsLink fl k) (hout : k < i ∨ i + ints ≤ k) :
    (makeAvail h i ints).array k = h.array k := by
  rw [makeAvail_cell h hints]
  split_ifs with h1 h2 h3 h4
  · exact absurd ⟨h.avail, hl.head_mem h1.1, .inr h1.2⟩ hk
  · omega
  · omega
  · omega
  · rfl

theorem makeAvail_tags (hl : Linked (next h) (prev h) 0 0 h.avail fl) (hints : 4 ≤ ints)
    (hfar : ∀ j ∈ fl, i + ints ≤ j ∨ j + 4 ≤ i) :
    (makeAvail h i ints).array i = ints ∧ (makeAvail h i ints).array (i + ints - 1) = ints := by
  have havail : h.avail ≠ 0 → i + ints ≤ h.avail ∨ h.avail + 4 ≤ i := fun h0 => hfar _ (hl.head_mem h0)
  constructor <;> rw [makeAvail_cell h hints] <;> split_ifs <;> omega

/-- A well-formed free list: what `remove` and `makeAvail` need of it and keep. -/
structure FreeList (h : State) (fl : List ℤ) : Prop where
  linked : Linked (next h) (prev h) 0 0 h.avail fl
  nodup : fl.Nodup
  spaced : Spaced fl

/-- Unlinking one node leaves the list of the others. -/
theorem FreeList.remove (F : FreeList h fl) (hi : i ∈ fl) :
    ∃ fl', FreeList (remove h i) fl' ∧ (∀ j, j ∈ fl' ↔ j ∈ fl ∧ j ≠ i) ∧
      ∀ k, ¬ IsLink fl k → (Heap.remove h i).array k = h.array k := by
  obtain ⟨l₁, l₂, rfl⟩ := List.append_of_mem hi
  have hnd := F.nodup
  obtain ⟨-, h2, h3⟩ := List.nodup_append.mp hnd
  have hmem : ∀ j, j ∈ l₁ ++ l₂ ↔ j ∈ l₁ ++ i :: l₂ ∧ j ≠ i := by
    intro j
    simp only [List.mem_append, List.mem_cons]
    constructor
    · rintro (hj | hj)
      · exact ⟨.inl hj, h3 j hj i (by simp)⟩
      · exact ⟨.inr (.inr hj), fun hc => (List.nodup_cons.mp h2).1 (hc ▸ hj)⟩
    · rintro ⟨hj | hj | hj, hne⟩
      · exact .inl hj
      · exact absurd hj hne
      · exact .inr hj
  refine ⟨l₁ ++ l₂, ⟨remove_linked F.linked hnd F.spaced, ?_, ?_⟩, hmem,
    fun k hk => remove_frame F.linked hk⟩
  · exact hnd.sublist (List.Sublist.append_left (List.sublist_cons_self _ _) _)
  · exact fun i hi j hj => F.spaced i ((hmem i).mp hi).1 j ((hmem j).mp hj).1

theorem FreeList.removeIf (F : FreeList h fl) {c : Bool} (hc : c = true → i ∈ fl) :
    ∃ fl', FreeList (if c then Heap.remove h i else h) fl' ∧
      (∀ j, j ∈ fl' ↔ j ∈ fl ∧ ¬ (c = true ∧ j = i)) ∧
      ∀ k, ¬ IsLink fl k → (if c then Heap.remove h i else h).array k = h.array k := by
  cases c with
  | true =>
    obtain ⟨fl', hF, hmem, hframe⟩ := F.remove (hc rfl)
    exact ⟨fl', hF, by simpa using hmem, hframe⟩
  | false => exact ⟨fl, F, by simp, fun _ _ => rfl⟩

end FreeList

/-! ### Consequences of the invariant -/

section Facts

variable {h : State} {bs : List Blk} {fl : List ℤ} (H : Layout h bs fl)
include H

theorem Layout.first_mem : (⟨0, 2, true⟩ : Blk) ∈ bs := List.mem_of_head? H.first

theorem Layout.final_mem : (⟨h.len - 2, 2, true⟩ : Blk) ∈ bs := List.mem_of_getLast? H.final

/-- A block that is not a sentinel lies between the sentinels and has room for its links. -/
theorem Layout.inner (hb : b ∈ bs) (h0 : b.start ≠ 0) (h1 : b.start ≠ h.len - 2) :
    4 ≤ b.len ∧ 2 ≤ b.start ∧ b.stop ≤ h.len - 2 := by
  refine ⟨?_, ?_, ?_⟩
  · rcases H.large b hb with h | h | h
    · exact absurd h h0
    · exact absurd h h1
    · exact h
  · rcases H.tiles.eq_or_disjoint H.first_mem hb with h | h | h
    · exact absurd (by rw [← h]) h0
    · exact h
    · have := H.tiles.mem_bounds b hb
      unfold Block.stop at *
      simp only at h
      omega
  · rcases H.tiles.eq_or_disjoint hb H.final_mem with h | h | h
    · exact absurd (by rw [h]) h1
    · exact h
    · have := H.tiles.mem_bounds b hb
      unfold Block.stop at *
      simp only at h
      omega

theorem Layout.not_sentinel (hb : b ∈ bs) (ht : b.tag = false) :
    b.start ≠ 0 ∧ b.start ≠ h.len - 2 := by
  constructor
  · intro hc
    have := H.tiles.eq_of_start hb H.first_mem hc
    simp [this] at ht
  · intro hc
    have := H.tiles.eq_of_start hb H.final_mem hc
    simp [this] at ht

theorem Layout.avail_bounds (hb : b ∈ bs) (ht : b.tag = false) :
    4 ≤ b.len ∧ 2 ≤ b.start ∧ b.stop ≤ h.len - 2 :=
  H.inner hb (H.not_sentinel hb ht).1 (H.not_sentinel hb ht).2

theorem Layout.spaced : Spaced fl := by
  intro i hi j hj
  obtain ⟨b, hb, htb, rfl⟩ := (H.free i).mp hi
  obtain ⟨c, hc, htc, rfl⟩ := (H.free j).mp hj
  have h1 := H.avail_bounds hb htb
  have h2 := H.avail_bounds hc htc
  rcases H.tiles.eq_or_disjoint hb hc with h | h | h
  · exact .inl (by rw [h])
  · exact .inr (.inl (by unfold Block.stop at h; omega))
  · exact .inr (.inr (by unfold Block.stop at h; omega))

/-- Links lie strictly inside available blocks. -/
theorem Layout.link_inside (hk : IsLink fl k) :
    ∃ b ∈ bs, b.tag = false ∧ b.start < k ∧ k < b.foot := by
  obtain ⟨i, hi, hik⟩ := hk
  obtain ⟨b, hb, ht, rfl⟩ := (H.free i).mp hi
  have := H.avail_bounds hb ht
  refine ⟨b, hb, ht, by omega, ?_⟩
  unfold Block.foot
  omega

theorem Layout.tag_not_link (hb : b ∈ bs) : ¬ IsLink fl b.start ∧ ¬ IsLink fl b.foot := by
  have hlen := (H.tiles.mem_bounds b hb).2.1
  constructor
  · intro hc
    obtain ⟨c, hc', ht, h1, h2⟩ := H.link_inside hc
    have : b = c := H.tiles.eq_of_mem hb hc' (i := b.start) (by unfold Block.stop; omega)
      (by unfold Block.stop Block.foot at *; omega)
    subst this
    omega
  · intro hc
    obtain ⟨c, hc', ht, h1, h2⟩ := H.link_inside hc
    have : b = c := H.tiles.eq_of_mem hb hc' (i := b.foot) (by unfold Block.stop Block.foot; omega)
      (by unfold Block.stop Block.foot at *; omega)
    subst this
    omega

theorem Layout.size_eq (hb : b ∈ bs) : size h b.start = b.len := by
  rw [size, (H.tags b hb).1, abs_word (H.tiles.mem_bounds b hb).2.1]

theorem Layout.isAvail_iff (hb : b ∈ bs) : isAvail h b.start = !b.tag := by
  have hlen := (H.tiles.mem_bounds b hb).2.1
  rw [isAvail, (H.tags b hb).1, word]
  cases b.tag <;> simp <;> omega

theorem Layout.isTaken_iff (hb : b ∈ bs) : isTaken h b.start = b.tag := by
  have hlen := (H.tiles.mem_bounds b hb).2.1
  rw [isTaken, (H.tags b hb).1, word]
  cases b.tag <;> simp <;> omega

end Facts

variable {h : State} {bs : List Blk} {fl : List ℤ}

theorem Layout.withCount (H : Layout h bs fl) (c : ℕ) : Layout { h with heapCount := c } bs fl :=
  ⟨H.tiles, H.first, H.final, H.large, H.tags, H.apart, H.linked, H.nodup, H.free⟩

/-! ### Neighbours and unlinking -/

variable {xs ys : List Blk} {lo hi : ℤ}

section Unlink

variable {h : State} {bs : List Blk} {fl : List ℤ}

variable {c : Blk}

theorem Layout.left_ne_nil {cs : List Blk} (H : Layout h (xs ++ c :: cs) fl) (h0 : c.start ≠ 0) :
    xs ≠ [] := by
  rintro rfl
  have := H.first
  simp only [List.nil_append, List.head?_cons, Option.some.injEq] at this
  exact h0 (by rw [this])

theorem Layout.right_ne_nil (H : Layout h (xs ++ [c] ++ ys) fl) (h1 : c.start ≠ h.len - 2) :
    ys ≠ [] := by
  rintro rfl
  have := H.final
  simp only [List.append_nil, List.getLast?_concat, Option.some.injEq] at this
  exact h1 (by rw [this])

theorem Layout.freeList (H : Layout h bs fl) : FreeList h fl := ⟨H.linked, H.nodup, H.spaced⟩

/-- A node of the free list lies outside every block it does not start. -/
theorem Layout.node_far (H : Layout h bs fl) (hb : b ∈ bs) {j : ℤ} (hj : j ∈ fl) (hne : j ≠ b.start) :
    b.stop ≤ j ∨ j + 4 ≤ b.start := by
  obtain ⟨c, hc, htc, rfl⟩ := (H.free j).mp hj
  have h4 := (H.avail_bounds hc htc).1
  rcases H.tiles.eq_or_disjoint hb hc with h | h | h
  · exact absurd (by rw [h]) hne
  · exact .inl h
  · unfold Block.stop at h
    exact .inr (by omega)

/-- Cells outside a stretch of blocks: tags of the blocks around it. -/
theorem Layout.outside {cs : List Blk} (H : Layout h (xs ++ cs ++ ys) fl) (hne : cs ≠ [])
    (hcs : Tiles lo cs hi) (hc : c ∈ xs ++ ys) :
    (c.start < lo ∧ c.foot < lo) ∨ (hi ≤ c.start ∧ hi ≤ c.foot) := by
  obtain ⟨m1, ht, h3⟩ := tiles_append.mp H.tiles
  obtain ⟨m2, h1, h2⟩ := tiles_append.mp ht
  have hlo : m2 = lo := by
    cases cs with
    | nil => exact absurd rfl hne
    | cons c cs => exact h2.1.symm.trans hcs.1
  subst hlo
  have hhi : m1 = hi := tiles_end_unique h2 hcs
  subst hhi
  rcases List.mem_append.mp hc with hc | hc
  · have := h1.mem_bounds c hc
    unfold Block.stop at this
    unfold Block.foot
    omega
  · have := h3.mem_bounds c hc
    unfold Block.foot
    omega

/-- The available blocks around a stretch are those that do not start in it. -/
theorem Layout.avail_around {cs : List Blk} (H : Layout h (xs ++ cs ++ ys) fl) (hne : cs ≠ [])
    (hcs : Tiles lo cs hi) (i : ℤ) :
    (∃ c ∈ xs ++ ys, c.tag = false ∧ c.start = i) ↔
      (∃ c ∈ xs ++ cs ++ ys, c.tag = false ∧ c.start = i) ∧ ∀ c ∈ cs, c.start ≠ i := by
  constructor
  · rintro ⟨c, hc, ht, rfl⟩
    have ho := H.outside hne hcs hc
    refine ⟨⟨c, by simp only [List.mem_append] at hc ⊢; tauto, ht, rfl⟩, fun d hd => ?_⟩
    have := hcs.mem_bounds d hd
    unfold Block.stop at this
    omega
  · rintro ⟨⟨c, hc, ht, rfl⟩, hno⟩
    refine ⟨c, ?_, ht, rfl⟩
    have hncs : c ∉ cs := fun hc => hno c hc rfl
    simp only [List.mem_append] at hc ⊢
    tauto

end Unlink

/-! ### Exchanging a stretch of blocks -/

variable {fl' : List ℤ}

/-- **Exchange**: inside the sentinels, the stretch `cs` is replaced by the stretch `cs'` over the
same cells.  The rest of the invariant only asks for the tags of the new stretch, for the tags of
the others to be kept, and for the new free list. -/
theorem Layout.replace {cs cs' : List Blk} (H : Layout h (xs ++ cs ++ ys) fl) (hxs : xs ≠ [])
    (hys : ys ≠ []) (hlen : h'.len = h.len) (hcs : Tiles lo cs hi) (hne : cs ≠ [])
    (hcs' : Tiles lo cs' hi) (hlarge : ∀ b ∈ cs', 4 ≤ b.len)
    (htags : ∀ b ∈ cs', h'.array b.start = word b ∧ h'.array b.foot = word b)
    (hkeep : ∀ b ∈ xs ++ ys, h'.array b.start = h.array b.start ∧ h'.array b.foot = h.array b.foot)
    (hapart : Apart (xs ++ cs' ++ ys)) (hlinked : Linked (next h') (prev h') 0 0 h'.avail fl')
    (hnodup : fl'.Nodup) (hfree : ∀ i, i ∈ fl' ↔ ∃ b ∈ xs ++ cs' ++ ys, b.tag = false ∧ b.start = i) :
    Layout h' (xs ++ cs' ++ ys) fl' := by
  have hmem : ∀ b ∈ xs ++ ys, b ∈ xs ++ cs ++ ys := fun b hb => by
    simp only [List.mem_append] at hb ⊢
    tauto
  refine ⟨?_, ?_, ?_, ?_, ?_, hapart, hlinked, hnodup, hfree⟩
  · obtain ⟨m1, ht, h3⟩ := tiles_append.mp H.tiles
    obtain ⟨m2, h1, h2⟩ := tiles_append.mp ht
    -- a non-empty stretch determines its ends
    have hlo : m2 = lo := by
      cases cs with
      | nil => exact absurd rfl hne
      | cons c cs => exact h2.1.symm.trans hcs.1
    subst hlo
    have hhi : m1 = hi := tiles_end_unique h2 hcs
    subst hhi
    rw [hlen]
    exact tiles_append.mpr ⟨m1, tiles_append.mpr ⟨m2, h1, hcs'⟩, h3⟩
  · have := H.first
    cases xs with
    | nil => exact absurd rfl hxs
    | cons x xs => simpa using this
  · have := H.final
    rw [List.getLast?_append_of_ne_nil _ hys] at this
    rw [List.getLast?_append_of_ne_nil _ hys, hlen]
    exact this
  · intro b hb
    simp only [List.mem_append] at hb
    rw [hlen]
    by_cases hb' : b ∈ cs'
    · exact .inr (.inr (hlarge b hb'))
    · exact H.large b (hmem b (by simp only [List.mem_append]; tauto))
  · intro b hb
    simp only [List.mem_append] at hb
    by_cases hb' : b ∈ cs'
    · exact htags b hb'
    · have hin : b ∈ xs ++ ys := by simp only [List.mem_append]; tauto
      rw [(hkeep b hin).1, (hkeep b hin).2]
      exact H.tags b (hmem b hin)

/-- The cells of available blocks. -/
def InAvail (bs : List Blk) (k : ℤ) : Prop := ∃ b ∈ bs, b.tag = false ∧ b.start ≤ k ∧ k < b.stop

theorem Layout.inAvail_of_link (H : Layout h bs fl) (hk : IsLink fl k) : InAvail bs k := by
  obtain ⟨b, hb, ht, h1, h2⟩ := H.link_inside hk
  exact ⟨b, hb, ht, by omega, by unfold Block.foot at h2; unfold Block.stop; omega⟩

/-- **Putting an available block at the end of a stretch**: `T` is a state in which the stretch `cs`
is already unlinked and its front is taken by the blocks `p`; `makeAvail` then fills the rest of
it. -/
theorem Layout.putAvail {T : State} {cs p : List Blk} {n : ℤ} (H : Layout h (xs ++ cs ++ ys) fl)
    (hxs : xs ≠ []) (hys : ys ≠ []) (hlen : T.len = h.len) (hcs : Tiles lo cs hi) (hne : cs ≠ [])
    (F : FreeList T fl') (hfree : ∀ j, j ∈ fl' ↔ ∃ c ∈ xs ++ ys, c.tag = false ∧ c.start = j)
    (hkeep : ∀ b ∈ xs ++ ys, T.array b.start = h.array b.start ∧ T.array b.foot = h.array b.foot)
    (hpre : Tiles lo p i) (hpre4 : ∀ c ∈ p, 4 ≤ c.len)
    (hpretag : ∀ c ∈ p, c.tag = true ∧ T.array c.start = word c ∧ T.array c.foot = word c)
    (hn : i + n = hi) (h4 : 4 ≤ n) (hapart : Apart (xs ++ (p ++ [⟨i, n, false⟩]) ++ ys)) :
    Layout (makeAvail T i n) (xs ++ (p ++ [⟨i, n, false⟩]) ++ ys) (i :: fl') ∧
      ∀ k, ¬ InAvail (xs ++ cs ++ ys) k → (k < lo ∨ hi ≤ k) → (makeAvail T i n).array k = T.array k := by
  have hle : lo ≤ i := hpre.le
  have hmem : ∀ c ∈ xs ++ ys, c ∈ xs ++ cs ++ ys := fun c hc => by
    simp only [List.mem_append] at hc ⊢
    tauto
  -- the nodes that stay in the list, and their links, lie outside the stretch
  have hfar : ∀ j ∈ fl', hi ≤ j ∨ j + 4 ≤ lo := by
    intro j hj
    obtain ⟨c, hc, ht, rfl⟩ := (hfree j).mp hj
    have hc4 := (H.avail_bounds (hmem c hc) ht).1
    have ho := H.outside hne hcs hc
    unfold Block.foot at ho
    omega
  have hlink : ∀ k, IsLink fl' k → IsLink fl k := by
    rintro k ⟨j, hj, hk⟩
    obtain ⟨c, hc, hcj⟩ := (hfree j).mp hj
    exact ⟨j, (H.free j).mpr ⟨c, hmem c hc, hcj⟩, hk⟩
  have hfar' : ∀ j ∈ fl', i + n ≤ j ∨ j + 4 ≤ i := fun j hj => by
    have := hfar j hj
    omega
  have hframe : ∀ k, ¬ IsLink fl' k → (k < i ∨ hi ≤ k) → (makeAvail T i n).array k = T.array k :=
    fun k hk ho => makeAvail_frame F.linked h4 hk (by omega)
  refine ⟨H.replace hxs hys (by simpa using hlen) hcs hne ?_ ?_ ?_ ?_ hapart ?_ ?_ ?_, ?_⟩
  · exact tiles_append.mpr ⟨i, hpre, tiles_singleton.mpr ⟨rfl, by simp only; omega, hn⟩⟩
  · intro c hc
    rcases List.mem_append.mp hc with hc | hc
    · exact hpre4 c hc
    · rw [List.mem_singleton] at hc
      subst hc
      exact h4
  · intro c hc
    rcases List.mem_append.mp hc with hc | hc
    · obtain ⟨-, h1, h2⟩ := hpretag c hc
      have hb := hpre.mem_bounds c hc
      have hin : ∀ k, c.start ≤ k → k < c.stop → (makeAvail T i n).array k = T.array k := by
        intro k hk1 hk2
        refine hframe k ?_ (by omega)
        rintro ⟨j, hj, hk⟩
        have := hfar j hj
        omega
      rw [hin c.start le_rfl (by unfold Block.stop; omega),
        hin c.foot (by unfold Block.foot; omega) (by unfold Block.foot Block.stop; omega)]
      exact ⟨h1, h2⟩
    · rw [List.mem_singleton] at hc
      subst hc
      exact makeAvail_tags F.linked h4 hfar'
  · intro c hc
    have ho := H.outside hne hcs hc
    have hnl := H.tag_not_link (hmem c hc)
    rw [hframe c.start (fun hk => hnl.1 (hlink _ hk)) (by omega),
      hframe c.foot (fun hk => hnl.2 (hlink _ hk)) (by omega)]
    exact hkeep c hc
  · have hi0 : i ≠ 0 := by
      intro hc
      -- the first sentinel lies before the stretch
      have hfirst : (⟨0, 2, true⟩ : Blk) ∈ xs ++ ys := by
        have := H.first
        cases xs with
        | nil => exact absurd rfl hxs
        | cons x xs => simp_all
      have ho := H.outside hne hcs hfirst
      simp only at ho
      have := hcs.le
      omega
    exact makeAvail_linked F.linked F.nodup hi0 h4 F.spaced hfar'
  · refine List.nodup_cons.mpr ⟨fun hm => ?_, F.nodup⟩
    have := hfar' i hm
    omega
  · intro j
    rw [List.mem_cons, hfree j]
    simp only [List.mem_append, List.mem_singleton]
    constructor
    · rintro (rfl | ⟨c, hc, hcj⟩)
      · exact ⟨⟨j, n, false⟩, by tauto, rfl, rfl⟩
      · exact ⟨c, by tauto, hcj⟩
    · rintro ⟨c, (hc | hc | rfl) | hc, hcj⟩
      · exact .inr ⟨c, .inl hc, hcj⟩
      · exact absurd ((hpretag c hc).1.symm.trans hcj.1) (by decide)
      · exact .inl hcj.2.symm
      · exact .inr ⟨c, .inr hc, hcj⟩
  · intro k hk ho
    exact hframe k (fun hl => hk (H.inAvail_of_link (hlink k hl))) (by omega)

end GheithOS.Heap
