import GheithOS.Heap.Layout

/-!
# GheithOS.Heap.Free — what `free` does to the layout

The freed block `b` lies between two others, `l` and `r`.  Of these, the available ones are unlinked
and joined to `b`, the taken ones stay (`free_spec`); the four cases of the source differ only in
which of the two lists `kept` and `gone` holds each neighbour.
-/

namespace GheithOS.Heap

open Lib

variable {a : Area} {h : State} {fl : List ℤ} {xs ys : List Blk} {l b r : Blk}

/-- A neighbour stays if it is taken. -/
def kept (c : Blk) : List Blk := if c.tag then [c] else []

/-- A neighbour is absorbed if it is available. -/
def gone (c : Blk) : List Blk := if c.tag then [] else [c]

/-- The available block that `free` makes of `b` and its available neighbours. -/
def joined (l b r : Blk) : Blk where
  start := if l.tag then b.start else l.start
  len := b.len + (if l.tag then 0 else l.len) + (if r.tag then 0 else r.len)
  tag := false

theorem blocks_eq :
    xs ++ [l, b, r] ++ ys = (xs ++ kept l) ++ (gone l ++ [b] ++ gone r) ++ (kept r ++ ys) := by
  unfold kept gone
  cases l.tag <;> cases r.tag <;> simp

theorem Layout.neighbours (H : Layout h (xs ++ [l, b, r] ++ ys) fl) :
    l.stop = b.start ∧ b.stop = r.start ∧ left h b.start = l.start ∧ right h b.start = r.start := by
  obtain ⟨_, ht, -⟩ := tiles_append.mp H.tiles
  obtain ⟨_, -, -, hl, hb, -, hr, -⟩ := tiles_append.mp ht
  have hfoot : h.array (b.start - 1) = word l := by
    rw [← (H.tags l (by simp)).2, Block.foot, hb, Block.stop]
  refine ⟨hb.symm, hr.symm, ?_, ?_⟩
  · rw [left, sanity, headerFromFooter, size, hfoot, abs_word hl, hb, Block.stop]
    omega
  · rw [right, sanity, H.size_eq (by simp), hr, Block.stop]

theorem Layout.neighbours_sentinel (H : Layout h (xs ++ [l, b, r] ++ ys) fl) :
    b.start ≠ 0 ∧ b.start ≠ h.len - 2 := by
  obtain ⟨hlb, hbr, -, -⟩ := H.neighbours
  have hl := H.tiles.mem_bounds l (by simp)
  have hr := H.tiles.mem_bounds r (by simp)
  unfold Block.stop at *
  refine ⟨by omega, fun hc => ?_⟩
  have hb := H.tiles.eq_of_start (by simp) H.final_mem hc
  subst hb
  simp only at hbr
  omega

theorem Layout.tiles_joined (H : Layout h (xs ++ [l, b, r] ++ ys) fl) :
    Tiles (joined l b r).start (gone l ++ [b] ++ gone r) (joined l b r).stop := by
  obtain ⟨hlb, hbr, -, -⟩ := H.neighbours
  have hpos := fun c hc => (H.tiles.mem_bounds c hc).2.1
  have hl := hpos l (by simp)
  have hb := hpos b (by simp)
  have hr := hpos r (by simp)
  unfold gone joined
  unfold Block.stop at *
  cases l.tag <;> cases r.tag <;> simp [Tiles, Block.stop] <;> omega

theorem Layout.apart_joined (H : Layout h (xs ++ [l, b, r] ++ ys) fl) :
    Apart ((xs ++ kept l) ++ ([] ++ [joined l b r]) ++ (kept r ++ ys)) := by
  obtain ⟨h1, hy, hry⟩ := List.isChain_append.mp H.apart
  obtain ⟨hx, -, hxl⟩ := List.isChain_append.mp h1
  have hleft : Apart (xs ++ kept l) ∧ ∀ x ∈ (xs ++ kept l).getLast?, x.tag = true := by
    cases hl : l.tag with
    | true =>
      simp only [kept, hl, ite_true]
      exact ⟨List.isChain_append.mpr ⟨hx, by simp, by simp [hl]⟩, by simp [hl]⟩
    | false =>
      simp only [kept, hl, Bool.false_eq_true, ite_false, List.append_nil]
      exact ⟨hx, fun x hm => by simpa [hl] using hxl x hm l (by simp)⟩
  have hright : Apart (kept r ++ ys) ∧ ∀ y ∈ (kept r ++ ys).head?, y.tag = true := by
    cases hr : r.tag with
    | true =>
      simp only [kept, hr, ite_true]
      exact ⟨List.isChain_append.mpr ⟨by simp, hy, by simp [hr]⟩, by simp [hr]⟩
    | false =>
      simp only [kept, hr, Bool.false_eq_true, ite_false, List.nil_append]
      exact ⟨hy, fun y hm => by simpa [hr] using hry r (by simp) y hm⟩
  rw [List.append_assoc]
  refine List.isChain_append.mpr ⟨hleft.1, ?_, fun x hx y _ => .inl (hleft.2 x hx)⟩
  exact List.isChain_cons.mpr ⟨fun y hy => .inr (hright.2 y hy), hright.1⟩

/-- A live pointer is the address of a payload; `free` finds the header in front of it. -/
theorem addr_index {i : ℤ} (h0 : 0 ≤ i) (h1 : i < (a.bytes / 4 : ℕ)) :
    a.addr i ≠ 0 ∧ (i ≠ 0 → a.addr i ≠ a.addr 0) ∧
      (((a.addr i + 2 ^ 32 - a.addr 0) % 2 ^ 32 / 4 : ℕ) : ℤ) = i := by
  have hb := a.base_pos
  have hf := a.fits
  unfold Area.addr
  omega

/-- The state after an available neighbour is unlinked. -/
def absorb (h : State) (c : Blk) : State := if !c.tag then remove h c.start else h

@[simp] theorem absorb_len (h : State) (c : Blk) : (absorb h c).len = h.len := by
  unfold absorb
  split <;> simp

@[simp] theorem absorb_heapCount (h : State) (c : Blk) : (absorb h c).heapCount = h.heapCount := by
  unfold absorb
  split <;> simp

theorem Layout.absorb_both (H : Layout h (xs ++ [l, b, r] ++ ys) fl) (hb : b.tag = true) :
    (∀ k, ¬ IsLink fl k → (absorb h l).array k = h.array k) ∧
    (∀ k, ¬ IsLink fl k → (absorb (absorb h l) r).array k = h.array k) ∧
    ∃ fl', FreeList (absorb (absorb h l) r) fl' ∧
      ∀ j, j ∈ fl' ↔ ∃ c ∈ (xs ++ kept l) ++ (kept r ++ ys), c.tag = false ∧ c.start = j := by
  have hl : l ∈ xs ++ [l, b, r] ++ ys := by simp
  have hr : r ∈ xs ++ [l, b, r] ++ ys := by simp
  have hnode : ∀ c ∈ xs ++ [l, b, r] ++ ys, (!c.tag) = true → c.start ∈ fl := fun c hc ht =>
    (H.free _).mpr ⟨c, hc, by simpa using ht, rfl⟩
  have hlr : r.start ≠ l.start := by
    obtain ⟨h1, h2, -, -⟩ := H.neighbours
    have h3 := (H.tiles.mem_bounds l hl).2.1
    have h4 := (H.tiles.mem_bounds b (by simp)).2.1
    unfold Block.stop at *
    omega
  obtain ⟨fl₁, F₁, hmem₁, hframe₁⟩ := H.freeList.removeIf (hnode l hl)
  obtain ⟨fl₂, F₂, hmem₂, hframe₂⟩ :=
    F₁.removeIf fun ht => (hmem₁ _).mpr ⟨hnode r hr ht, fun hc => hlr hc.2⟩
  have hsub : ∀ k, IsLink fl₁ k → IsLink fl k := fun k ⟨j, hj, hk⟩ => ⟨j, ((hmem₁ j).mp hj).1, hk⟩
  refine ⟨hframe₁, fun k hk => (hframe₂ k fun hc => hk (hsub k hc)).trans (hframe₁ k hk), fl₂, F₂, ?_⟩
  intro j
  have htile := H.tiles_joined
  have hF : ∀ j, j ∈ fl ↔ ∃ c ∈ xs ++ [l, b, r] ++ ys, c.tag = false ∧ c.start = j := H.free
  rw [blocks_eq] at H hF
  rw [hmem₂, hmem₁, H.avail_around (by simp) htile, hF]
  -- the blocks that leave the list are the available ones of the stretch
  have hgone : ∀ c : Blk, (∀ d ∈ gone c, d.start ≠ j) ↔ ¬ ((!c.tag) = true ∧ j = c.start) := by
    intro c
    unfold gone
    cases c.tag <;> simp [eq_comm]
  have hbj : (∃ c ∈ (xs ++ kept l) ++ (gone l ++ [b] ++ gone r) ++ (kept r ++ ys), c.tag = false ∧
      c.start = j) →
      b.start ≠ j := by
    rintro ⟨c, hc, ht, rfl⟩ he
    rw [← H.tiles.eq_of_start (by simp) hc he, hb] at ht
    exact absurd ht (by decide)
  rw [List.forall_mem_append, List.forall_mem_append, List.forall_mem_singleton, hgone, hgone]
  constructor
  · rintro ⟨⟨hex, h1⟩, h2⟩
    exact ⟨hex, ⟨h1, hbj hex⟩, h2⟩
  · rintro ⟨hex, ⟨h1, -⟩, h2⟩
    exact ⟨⟨hex, h1⟩, h2⟩

/-- The four cases of `free`: unlink the available neighbours, then make one block of the
stretch. -/
theorem free_eq (hlen : h.len = (a.bytes / 4 : ℕ)) (H : Layout h (xs ++ [l, b, r] ++ ys) fl)
    (hb : b.tag = true) :
    free a h (a.addr (b.start + 1)) = .ok (makeAvail
      (absorb (absorb { h with heapCount := (h.heapCount + (2 ^ 32 - 1)) % 2 ^ 32 } l) r)
      (joined l b r).start (joined l b r).len) := by
  have hbm := H.tiles.mem_bounds b (by simp)
  have hrm := H.tiles.mem_bounds r (by simp)
  have hbr := H.neighbours.2.1
  obtain ⟨hp0, hpa, hidx⟩ := addr_index (a := a) (i := b.start + 1) (by omega)
    (by unfold Block.stop at *; omega)
  have H₀ := H.withCount ((h.heapCount + (2 ^ 32 - 1)) % 2 ^ 32)
  unfold free
  rw [if_neg hp0, if_neg (hpa (by omega)), hidx, Int.add_sub_cancel]
  generalize ({ h with heapCount := (h.heapCount + (2 ^ 32 - 1)) % 2 ^ 32 } : State) = g at H₀ ⊢
  obtain ⟨-, -, hleft, hright⟩ := H₀.neighbours
  -- unlinking keeps the tags that the source reads afterwards
  obtain ⟨hf₁, hf₂, -⟩ := H₀.absorb_both hb
  have htag := fun c hc => (H₀.tag_not_link (b := c) hc).1
  have hsl : size (absorb g l) l.start = l.len := by
    rw [size, hf₁ _ (htag l (by simp)), ← size, H₀.size_eq (by simp)]
  have hr : isAvail (absorb g l) r.start = !r.tag := by
    rw [isAvail, hf₁ _ (htag r (by simp)), ← isAvail, H₀.isAvail_iff (by simp)]
  have hsr : size (absorb (absorb g l) r) r.start = r.len := by
    rw [size, hf₂ _ (htag r (by simp)), ← size, H₀.size_eq (by simp)]
  have ea : ∀ (g : State) (c : Blk), (if !c.tag then remove g c.start else g) = absorb g c := fun _ _ => rfl
  simp only [H₀.isTaken_iff (b := b) (by simp), hb, Bool.not_true, Bool.false_eq_true, ite_false,
    hleft, hright, H₀.isAvail_iff (b := l) (by simp), H₀.size_eq (b := b) (by simp), ea, hsl,
      hr, hsr, joined]
  cases l.tag <;> cases r.tag <;> simp

/-- **`free`** of a taken block between two others. -/
theorem free_spec (hlen : h.len = (a.bytes / 4 : ℕ)) (H : Layout h (xs ++ [l, b, r] ++ ys) fl)
    (hb : b.tag = true) :
    ∃ h', free a h (a.addr (b.start + 1)) = .ok h' ∧ h'.len = h.len ∧
      h'.heapCount = (h.heapCount + (2 ^ 32 - 1)) % 2 ^ 32 ∧
      (∃ fl', Layout h' ((xs ++ kept l) ++ [joined l b r] ++ (kept r ++ ys)) fl') ∧
      ∀ k, ¬ InAvail (xs ++ [l, b, r] ++ ys) k → (k < b.start ∨ b.stop ≤ k) → h'.array k = h.array k := by
  have H₀ := H.withCount ((h.heapCount + (2 ^ 32 - 1)) % 2 ^ 32)
  refine ⟨_, free_eq hlen H hb, by simp, by simp, ?_⟩
  obtain ⟨-, hframe, fl', F, hfree⟩ := H₀.absorb_both hb
  have htile := H.tiles_joined
  have hapart := H.apart_joined
  have hsent := H.neighbours_sentinel
  have hlm := H.tiles.mem_bounds l (by simp)
  have hrm := H.tiles.mem_bounds r (by simp)
  have hb4 := (H.inner (b := b) (by simp) hsent.1 hsent.2).1
  have hxs : xs ++ kept l ≠ [] := by
    cases hl : l.tag with
    | true => simp [kept, hl]
    | false =>
      have H' : Layout h (xs ++ l :: b :: r :: ys) fl := by simpa using H
      simp [H'.left_ne_nil (H.not_sentinel (by simp) hl).1]
  have hys : kept r ++ ys ≠ [] := by
    cases hr : r.tag with
    | true => simp [kept, hr]
    | false =>
      have H' : Layout h ((xs ++ [l, b]) ++ [r] ++ ys) fl := by simpa using H
      simp [H'.right_ne_nil (H.not_sentinel (by simp) hr).2]
  have hin : ∀ c ∈ xs ++ kept l ++ (kept r ++ ys), c ∈ xs ++ [l, b, r] ++ ys := fun c hc => by
    rw [blocks_eq]
    simp only [List.mem_append] at hc ⊢
    tauto
  have hkeep : ∀ c ∈ xs ++ kept l ++ (kept r ++ ys), _ ∧ _ := fun c hc =>
    ⟨hframe _ (H₀.tag_not_link (hin c hc)).1, hframe _ (H₀.tag_not_link (hin c hc)).2⟩
  rw [blocks_eq] at H₀
  obtain ⟨hL, hout⟩ := H₀.putAvail (p := []) hxs hys (by simp) htile (by simp) F hfree hkeep rfl (by simp)
    (by simp) rfl (by unfold joined; dsimp only; split <;> split <;> omega) hapart
  refine ⟨⟨_, hL⟩, fun k hk ho => ?_⟩
  have hk' : ¬ IsLink fl k := fun hc => hk (H.inAvail_of_link hc)
  rw [← blocks_eq] at hout
  refine (hout k hk ?_).trans (hframe k hk')
  -- the stretch is `b` and available neighbours
  have hl : l.tag = false → k < l.start ∨ l.stop ≤ k := fun ht => by
    by_contra hc
    exact hk ⟨l, by simp, ht, by omega, by omega⟩
  have hr : r.tag = false → k < r.start ∨ r.stop ≤ k := fun ht => by
    by_contra hc
    exact hk ⟨r, by simp, ht, by omega, by omega⟩
  obtain ⟨hlb, hbr, -, -⟩ := H.neighbours
  unfold joined Block.stop at *
  cases hlt : l.tag <;> cases hrt : r.tag <;> simp_all <;> omega

end GheithOS.Heap
