import Mathlib.Data.List.Basic
import Mathlib.Data.Int.Order.Basic

/-!
# GheithOS.Lib.Tiling — an interval of integers tiled by consecutive blocks

A `Block` is a labelled interval `[start, start + len)`.  `Tiles lo bs hi` says that the blocks `bs`
tile `[lo, hi)` exactly, from left to right.  The lemmas are the ones a memory allocator needs:
tilings split and concatenate (`tiles_append`), two blocks of a tiling are equal or disjoint
(`Tiles.eq_or_disjoint`), and a point belongs to one block only.
-/

namespace GheithOS.Lib

variable {α : Type*}

/-- A labelled interval `[start, start + len)`. -/
structure Block (α : Type*) where
  start : ℤ
  len : ℤ
  tag : α

namespace Block

/-- One past the last point. -/
def stop (b : Block α) : ℤ := b.start + b.len

/-- The last point. -/
def foot (b : Block α) : ℤ := b.start + b.len - 1

end Block

/-- The blocks tile `[lo, hi)`, left to right. -/
def Tiles : ℤ → List (Block α) → ℤ → Prop
  | lo, [], hi => lo = hi
  | lo, b :: bs, hi => b.start = lo ∧ 0 < b.len ∧ Tiles b.stop bs hi

theorem tiles_append : ∀ {lo hi : ℤ} {bs cs : List (Block α)},
    Tiles lo (bs ++ cs) hi ↔ ∃ mid, Tiles lo bs mid ∧ Tiles mid cs hi
  | lo, hi, [], cs => by simp [Tiles]
  | lo, hi, b :: bs, cs => by
    simp only [List.cons_append, Tiles, @tiles_append b.stop hi bs cs]
    constructor
    · rintro ⟨h1, h2, mid, h3, h4⟩
      exact ⟨mid, ⟨h1, h2, h3⟩, h4⟩
    · rintro ⟨mid, ⟨h1, h2, h3⟩, h4⟩
      exact ⟨h1, h2, mid, h3, h4⟩

variable {lo hi : ℤ} {b : Block α}

theorem tiles_singleton : Tiles lo [b] hi ↔ b.start = lo ∧ 0 < b.len ∧ b.stop = hi := by
  simp [Tiles]

theorem tiles_end_unique : ∀ {lo hi hi' : ℤ} {bs : List (Block α)}, Tiles lo bs hi → Tiles lo bs hi' →
    hi = hi'
  | _, _, _, [], h, h' => h.symm.trans h'
  | _, _, _, _ :: _, h, h' => tiles_end_unique h.2.2 h'.2.2

theorem Tiles.le : ∀ {lo hi : ℤ} {bs : List (Block α)}, Tiles lo bs hi → lo ≤ hi
  | _, _, [], h => le_of_eq h
  | _, _, b :: bs, ⟨h1, h2, h3⟩ => by
    have := h3.le
    unfold Block.stop at this
    omega

theorem Tiles.mem_bounds : ∀ {lo hi : ℤ} {bs : List (Block α)}, Tiles lo bs hi → ∀ b ∈ bs,
    lo ≤ b.start ∧ 0 < b.len ∧ b.stop ≤ hi
  | _, _, [], _, b, hb => by simp at hb
  | lo, hi, c :: bs, ⟨h1, h2, h3⟩, b, hb => by
    rcases List.mem_cons.mp hb with rfl | hb
    · exact ⟨le_of_eq h1.symm, h2, h3.le⟩
    · obtain ⟨h4, h5, h6⟩ := h3.mem_bounds b hb
      unfold Block.stop at h4
      exact ⟨by omega, h5, h6⟩

theorem Tiles.length_le : ∀ {lo hi : ℤ} {bs : List (Block α)}, Tiles lo bs hi → (bs.length : ℤ) ≤ hi - lo
  | _, _, [], h => by simp [show _ = _ from h]
  | _, _, b :: bs, ⟨h1, h2, h3⟩ => by
    have := h3.length_le
    unfold Block.stop at this
    rw [List.length_cons]
    push_cast
    omega

/-- The tiling before and after one of its blocks. -/
theorem Tiles.split {xs ys : List (Block α)} (h : Tiles lo (xs ++ b :: ys) hi) :
    Tiles lo xs b.start ∧ 0 < b.len ∧ Tiles b.stop ys hi := by
  obtain ⟨mid, h1, h2, h3, h4⟩ := tiles_append.mp h
  exact ⟨h2 ▸ h1, h3, h4⟩

variable {bs : List (Block α)} {c : Block α}

theorem Tiles.eq_or_disjoint (h : Tiles lo bs hi) (hb : b ∈ bs) (hc : c ∈ bs) :
    b = c ∨ b.stop ≤ c.start ∨ c.stop ≤ b.start := by
  obtain ⟨xs, ys, rfl⟩ := List.append_of_mem hb
  obtain ⟨h1, h2, h3⟩ := h.split
  rcases List.mem_append.mp hc with hc | hc
  · exact .inr (.inr (h1.mem_bounds c hc).2.2)
  · rcases List.mem_cons.mp hc with rfl | hc
    · exact .inl rfl
    · exact .inr (.inl (h3.mem_bounds c hc).1)

/-- A point lies in one block only. -/
theorem Tiles.eq_of_mem (h : Tiles lo bs hi) (hb : b ∈ bs) (hc : c ∈ bs) {i : ℤ}
    (hbi : b.start ≤ i ∧ i < b.stop) (hci : c.start ≤ i ∧ i < c.stop) : b = c := by
  rcases h.eq_or_disjoint hb hc with h | h | h
  · exact h
  · omega
  · omega

theorem Tiles.eq_of_start (h : Tiles lo bs hi) (hb : b ∈ bs) (hc : c ∈ bs) (hs : b.start = c.start) :
    b = c := by
  have h1 := (h.mem_bounds b hb).2.1
  have h2 := (h.mem_bounds c hc).2.1
  refine h.eq_of_mem hb hc (i := b.start) ?_ ?_ <;> unfold Block.stop <;> omega

/-- The block that starts where the tiling starts is its first one. -/
theorem Tiles.head_of_start (h : Tiles lo bs hi) (hb : b ∈ bs) (hs : b.start = lo) :
    ∃ rest, bs = b :: rest ∧ Tiles b.stop rest hi := by
  cases bs with
  | nil => simp at hb
  | cons c rest =>
    obtain rfl := h.eq_of_start hb (List.mem_cons_self ..) (hs.trans h.1.symm)
    exact ⟨rest, rfl, h.2.2⟩

theorem Tiles.eq_nil (h : Tiles lo bs lo) : bs = [] := by
  cases bs with
  | nil => rfl
  | cons b rest =>
    have h1 := h.1
    have h2 := h.2.1
    have h3 := h.2.2.le
    unfold Block.stop at h3
    omega

theorem Tiles.exists_head (h : Tiles lo bs hi) (hlt : lo < hi) :
    ∃ b rest, bs = b :: rest ∧ b.start = lo ∧ Tiles b.stop rest hi := by
  cases bs with
  | nil => exact absurd h (ne_of_lt hlt)
  | cons b rest => exact ⟨b, rest, rfl, h.1, h.2.2⟩

end GheithOS.Lib
