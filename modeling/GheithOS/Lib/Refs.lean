import Mathlib.Algebra.Order.BigOperators.Group.Finset
import GheithOS.Lib.Count

/-!
# GheithOS.Lib.Refs — counting references between the nodes of a store

A store has nodes, each with a finite row of slots, and a slot may refer to a target.  `hits row c`
is the number of slots of one row that refer to `c`, `refs L slot c` the number of slots of the
nodes in `L` that do.  Reference counting is an equation about `refs`, so the lemmas say how it
moves: when one slot is written (`hits_update`, `refs_write`), when a row is replaced (`refs_row`),
when a node enters or leaves the set (`refs_insert`, `refs_erase`); and what its value tells about
single slots (`refs_pos`, `refs_unique`).
-/

namespace GheithOS.Lib

open Function

variable {ι σ α : Type*} [DecidableEq ι] [Fintype σ] [DecidableEq σ] [DecidableEq α]

/-- The slots of a row that refer to `c`. -/
def hits (row : σ → Option α) (c : α) : ℕ := countOn Finset.univ (fun x => x = some c) row

/-- The slots of the nodes in `L` that refer to `c`. -/
def refs (L : Finset ι) (slot : ι → σ → Option α) (c : α) : ℕ := ∑ n ∈ L, hits (slot n) c

variable {i j : σ}

section Row

variable {row : σ → Option α} {c : α}

omit [DecidableEq σ] in
theorem hits_pos (h : row i = some c) : 0 < hits row c := countOn_pos (Finset.mem_univ i) h

omit [DecidableEq σ] in
theorem hits_eq_zero : hits row c = 0 ↔ ∀ i, row i ≠ some c := by
  rw [hits, countOn_eq_zero_iff]
  simp

omit [DecidableEq σ] in
@[simp] theorem hits_none : hits (fun _ : σ => none) c = 0 := hits_eq_zero.mpr fun _ => by simp

theorem hits_update (i : σ) (x : Option α) :
    hits (update row i x) c + (if row i = some c then 1 else 0) =
      hits row c + (if x = some c then 1 else 0) :=
  countOn_update (Finset.mem_univ i) x

omit [DecidableEq σ] in
theorem hits_unique (h : hits row c ≤ 1) (hi : row i = some c) (hj : row j = some c) : i = j :=
  Finset.card_le_one.mp h i (by simpa using hi) j (by simpa using hj)

/-- The references of a row as a list. -/
def targets {m : ℕ} (row : Fin m → Option α) : List α := (List.finRange m).filterMap row

variable {m : ℕ}

theorem count_targets (row : Fin m → Option α) (c : α) : (targets row).count c = hits row c := by
  rw [targets, List.count_filterMap, hits, countOn, Fin.univ_def, Finset.card_def,
    Finset.filter_val, Multiset.filter_coe, Multiset.coe_card, List.countP_eq_length_filter]
  congr 1
  refine List.filter_congr fun i _ => ?_
  rw [Bool.eq_iff_iff]
  simp

omit [DecidableEq α] in
theorem mem_targets {row : Fin m → Option α} {c : α} : c ∈ targets row ↔ ∃ i, row i = some c := by
  simp [targets]

omit [DecidableEq α] in
theorem targets_eq_nil {row : Fin m → Option α} : targets row = [] ↔ ∀ i, row i = none := by
  simp [targets, List.filterMap_eq_nil_iff]

omit [DecidableEq α] in
/-- A loop over the slots of a row that skips the empty ones is a loop over its references. -/
theorem foldl_targets {β : Type*} (row : Fin m → Option α) {f : β → Fin m → β} {g : β → α → β}
    (hnone : ∀ b i, row i = none → f b i = b) (hsome : ∀ b i c, row i = some c → f b i = g b c)
    (b : β) :
    (List.finRange m).foldl f b = (targets row).foldl g b := by
  unfold targets
  generalize List.finRange m = is
  induction is generalizing b with
  | nil => rfl
  | cons i is ih =>
    cases h : row i with
    | none => rw [List.foldl_cons, hnone b i h, List.filterMap_cons_none h, ih]
    | some c => rw [List.foldl_cons, hsome b i c h, List.filterMap_cons_some h, List.foldl_cons, ih]

end Row

section Store

variable {L : Finset ι} {slot slot' : ι → σ → Option α} {c : α} {n : ι}

omit [DecidableEq ι] [DecidableEq σ] in
theorem refs_congr (h : ∀ n ∈ L, slot' n = slot n) : refs L slot' c = refs L slot c :=
  Finset.sum_congr rfl fun n hn => by rw [h n hn]

omit [DecidableEq ι] [DecidableEq σ] in
/-- The slots that refer to `c`, as a set. -/
theorem refs_eq_card : refs L slot c = ((L ×ˢ Finset.univ).filter fun e => slot e.1 e.2 = some c).card := by
  rw [Finset.card_filter, Finset.sum_product]
  exact Finset.sum_congr rfl fun n _ => countOn_eq_sum

omit [DecidableEq σ] in
theorem refs_insert (hn : n ∉ L) : refs (insert n L) slot c = hits (slot n) c + refs L slot c :=
  Finset.sum_insert hn

omit [DecidableEq σ] in
theorem refs_erase (hn : n ∈ L) : hits (slot n) c + refs (L.erase n) slot c = refs L slot c :=
  Finset.add_sum_erase L (fun n => hits (slot n) c) hn

omit [DecidableEq σ] in
/-- **A row is replaced.** -/
theorem refs_row (hn : n ∈ L) (row : σ → Option α) :
    refs L (update slot n row) c + hits (slot n) c = refs L slot c + hits row c := by
  have h : refs (L.erase n) (update slot n row) c = refs (L.erase n) slot c :=
    refs_congr fun m hm => update_of_ne (Finset.ne_of_mem_erase hm) _ _
  have h1 : hits (update slot n row n) c + refs (L.erase n) (update slot n row) c =
      refs L (update slot n row) c := refs_erase hn
  have h2 : hits (slot n) c + refs (L.erase n) slot c = refs L slot c := refs_erase hn
  rw [update_self] at h1
  omega

/-- **One slot is written.** -/
theorem refs_write (hn : n ∈ L) (i : σ) (x : Option α) :
    refs L (update slot n (update (slot n) i x)) c + (if slot n i = some c then 1 else 0) =
      refs L slot c + (if x = some c then 1 else 0) := by
  have h1 : refs L (update slot n (update (slot n) i x)) c + hits (slot n) c =
      refs L slot c + hits (update (slot n) i x) c := refs_row hn _
  have h2 : hits (update (slot n) i x) c + (if slot n i = some c then 1 else 0) =
      hits (slot n) c + (if x = some c then 1 else 0) := hits_update i x
  omega

omit [DecidableEq ι] [DecidableEq σ] in
theorem hits_le_refs (hn : n ∈ L) : hits (slot n) c ≤ refs L slot c :=
  Finset.single_le_sum (f := fun n => hits (slot n) c) (fun _ _ => Nat.zero_le _) hn

omit [DecidableEq ι] [DecidableEq σ] in
theorem refs_pos (hn : n ∈ L) (h : slot n i = some c) : 0 < refs L slot c :=
  lt_of_lt_of_le (hits_pos h) (hits_le_refs hn)

omit [DecidableEq ι] [DecidableEq σ] in
theorem refs_eq_zero : refs L slot c = 0 ↔ ∀ n ∈ L, ∀ i, slot n i ≠ some c := by
  rw [refs, Finset.sum_eq_zero_iff]
  simp only [hits_eq_zero]

omit [DecidableEq ι] [DecidableEq σ] in
theorem exists_of_refs_pos (h : 0 < refs L slot c) : ∃ n ∈ L, ∃ i, slot n i = some c := by
  by_contra hc
  refine absurd (refs_eq_zero.mpr fun n hn i hi => hc ⟨n, hn, i, hi⟩) (by omega)

omit [DecidableEq σ] in
/-- **A single reference** comes from one slot. -/
theorem refs_unique {m : ι} (h : refs L slot c ≤ 1) (hn : n ∈ L) (hm : m ∈ L)
    (hi : slot n i = some c) (hj : slot m j = some c) : n = m ∧ i = j := by
  have hnm : n = m := by
    by_contra hne
    have h1 : hits (slot n) c + refs (L.erase n) slot c = refs L slot c := refs_erase hn
    have h2 := hits_pos hi
    have h3 := refs_pos (Finset.mem_erase.mpr ⟨Ne.symm hne, hm⟩) hj
    omega
  subst hnm
  exact ⟨rfl, hits_unique (le_trans (hits_le_refs hn) h) hi hj⟩

end Store

end GheithOS.Lib
