import Mathlib.Algebra.BigOperators.Group.Finset.Piecewise

/-!
# GheithOS.Lib.Count — counting the cells of a finite array that satisfy a predicate

`countOn U p f` is the number of indices of `U` whose cell in `f` satisfies `p`.  Every accounting
argument of this development (threads at a program point, page-table entries that target a frame)
counts cells of an array that changes at one index at a time, so the one fact used again and again
is `countOn_update`: a single write moves the count by the difference between the new cell and the
old.
-/

namespace GheithOS.Lib

open Function

variable {ι α : Type*} [DecidableEq ι]

/-- The number of indices of `U` whose cell satisfies `p`. -/
def countOn (U : Finset ι) (p : α → Prop) [DecidablePred p] (f : ι → α) : ℕ :=
  (U.filter fun i => p (f i)).card

section Basic

variable {U : Finset ι} {p : α → Prop} [DecidablePred p] {f : ι → α}

omit [DecidableEq ι] in
theorem countOn_pos {i : ι} (hi : i ∈ U) (hp : p (f i)) : 0 < countOn U p f :=
  Finset.card_pos.mpr ⟨i, Finset.mem_filter.mpr ⟨hi, hp⟩⟩

omit [DecidableEq ι] in
theorem countOn_eq_zero_iff : countOn U p f = 0 ↔ ∀ i ∈ U, ¬ p (f i) := by
  rw [countOn, Finset.card_eq_zero, Finset.filter_eq_empty_iff]

omit [DecidableEq ι] in
theorem countOn_eq_sum : countOn U p f = ∑ i ∈ U, if p (f i) then 1 else 0 :=
  Finset.card_filter _ _

/-- **One write**: the count moves by the difference between the new cell and the old one. -/
theorem countOn_update {i : ι} (hi : i ∈ U) (x : α) :
    countOn U p (update f i x) + (if p (f i) then 1 else 0) =
      countOn U p f + (if p x then 1 else 0) := by
  rw [countOn_eq_sum, countOn_eq_sum, ← Finset.add_sum_erase U _ hi, ← Finset.add_sum_erase U _ hi]
  have hrest : ∑ j ∈ U.erase i, (if p (update f i x j) then 1 else 0) =
      ∑ j ∈ U.erase i, if p (f j) then 1 else 0 := by
    refine Finset.sum_congr rfl fun j hj => ?_
    rw [update_of_ne (Finset.ne_of_mem_erase hj)]
  rw [hrest, update_self]
  omega

end Basic

end GheithOS.Lib
