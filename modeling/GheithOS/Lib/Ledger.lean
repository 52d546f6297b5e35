import Mathlib.Tactic.Linarith
import Mathlib.Tactic.Ring
import GheithOS.Lib.Refs

/-!
# GheithOS.Lib.Ledger — counted references, shared or exclusive

The copy-on-write discipline in general.  A slot may hold a reference, which is exclusive (its
holder may write the target) or shared.  Each target has a counter that is meant to be the number of
its shared references; `bias` is by how much it is off.  `Balanced` says that the counters are what
they should be up to the bias, and that an exclusive reference is the only one.  The moves: a slot
is cleared, an exclusive reference becomes shared or back, a reference is stored, a holder comes or
goes.
-/

namespace GheithOS.Lib

open Function

variable {ι σ α : Type*} [DecidableEq ι] [Fintype σ] [DecidableEq σ] [DecidableEq α]

/-- The target of a shared reference. -/
def sharedTgt : Option (α × Bool) → Option α
  | some (a, false) => some a
  | _ => none

/-- The target of an exclusive reference. -/
def ownedTgt : Option (α × Bool) → Option α
  | some (a, true) => some a
  | _ => none

/-- The shared references to `a`. -/
def shared (L : Finset ι) (slot : ι → σ → Option (α × Bool)) (a : α) : ℕ :=
  refs L (fun n i => sharedTgt (slot n i)) a

/-- The exclusive references to `a`. -/
def owned (L : Finset ι) (slot : ι → σ → Option (α × Bool)) (a : α) : ℕ :=
  refs L (fun n i => ownedTgt (slot n i)) a

/-- All references to `a`. -/
def total (L : Finset ι) (slot : ι → σ → Option (α × Bool)) (a : α) : ℕ := shared L slot a + owned L slot a

/-- One slot changed. -/
def setSlot (slot : ι → σ → Option (α × Bool)) (n : ι) (i : σ) (x : Option (α × Bool)) :
    ι → σ → Option (α × Bool) :=
  update slot n (update (slot n) i x)

/-- A row whose exclusive references have become shared. -/
def demoteRow (row : σ → Option (α × Bool)) : σ → Option (α × Bool) :=
  fun i => (row i).map fun x => (x.1, false)

/-- **The ledger is balanced** up to `bias`: a counter is the number of shared references plus the
bias, and an exclusive reference is alone. -/
structure Balanced (L : Finset ι) (slot : ι → σ → Option (α × Bool)) (count bias : α → ℤ) : Prop where
  count_eq : ∀ a, count a = shared L slot a + bias a
  owner : ∀ a, owned L slot a ≤ 1
  exclusive : ∀ a, 0 < owned L slot a → shared L slot a = 0

variable {L : Finset ι} {slot slot' : ι → σ → Option (α × Bool)} {count bias : α → ℤ} {n m : ι} {i j : σ}
  {a b : α} {x : Option (α × Bool)}

/-! ### How the numbers move -/

section Slots

omit [Fintype σ] [DecidableEq α]

@[simp] theorem setSlot_self (slot : ι → σ → Option (α × Bool)) (n : ι) (i : σ)
    (x : Option (α × Bool)) : setSlot slot n i x n i = x := by
  simp [setSlot]

theorem setSlot_of_ne (h : m ≠ n ∨ j ≠ i) : setSlot slot n i x m j = slot m j := by
  unfold setSlot
  by_cases hm : m = n
  · subst hm
    rw [update_self, update_of_ne (h.resolve_left (by simp))]
  · rw [update_of_ne hm]

@[simp] theorem setSlot_setSlot (slot : ι → σ → Option (α × Bool)) (n : ι) (i : σ)
    (x y : Option (α × Bool)) : setSlot (setSlot slot n i x) n i y = setSlot slot n i y := by
  unfold setSlot
  rw [update_self, update_idem, update_idem]

end Slots

theorem refs_setSlot (f : Option (α × Bool) → Option α) (hn : n ∈ L) (i : σ) (x : Option (α × Bool))
    (a : α) :
    refs L (fun m j => f (setSlot slot n i x m j)) a + (if f (slot n i) = some a then 1 else 0) =
      refs L (fun m j => f (slot m j)) a + (if f x = some a then 1 else 0) := by
  have h : (fun m j => f (setSlot slot n i x m j)) =
      update (fun m j => f (slot m j)) n (update (fun j => f (slot n j)) i (f x)) := by
    funext m j
    by_cases hm : m = n
    · subst hm
      by_cases hj : j = i
      · subst hj
        simp
      · rw [setSlot_of_ne (Or.inr hj), update_self, update_of_ne hj]
    · rw [setSlot_of_ne (Or.inl hm), update_of_ne hm]
  rw [h]
  exact @refs_write _ _ _ _ _ _ _ L (fun m j => f (slot m j)) a n hn i (f x)

theorem shared_setSlot (slot : ι → σ → Option (α × Bool)) (hn : n ∈ L) (i : σ)
    (x : Option (α × Bool)) (a : α) :
    shared L (setSlot slot n i x) a + (if sharedTgt (slot n i) = some a then 1 else 0) =
      shared L slot a + (if sharedTgt x = some a then 1 else 0) :=
  refs_setSlot sharedTgt hn i x a

theorem owned_setSlot (slot : ι → σ → Option (α × Bool)) (hn : n ∈ L) (i : σ)
    (x : Option (α × Bool)) (a : α) :
    owned L (setSlot slot n i x) a + (if ownedTgt (slot n i) = some a then 1 else 0) =
      owned L slot a + (if ownedTgt x = some a then 1 else 0) :=
  refs_setSlot ownedTgt hn i x a

theorem total_setSlot (slot : ι → σ → Option (α × Bool)) (hn : n ∈ L) (i : σ)
    (x : Option (α × Bool)) (a : α) :
    total L (setSlot slot n i x) a + (if (slot n i).map Prod.fst = some a then 1 else 0) =
      total L slot a + (if x.map Prod.fst = some a then 1 else 0) := by
  have h1 := shared_setSlot slot hn i x a
  have h2 := owned_setSlot slot hn i x a
  have h3 : ∀ y : Option (α × Bool), (if y.map Prod.fst = some a then 1 else 0) =
      (if sharedTgt y = some a then 1 else 0) + (if ownedTgt y = some a then 1 else 0)
    | none => by simp [sharedTgt, ownedTgt]
    | some (b, true) => by simp [sharedTgt, ownedTgt]
    | some (b, false) => by simp [sharedTgt, ownedTgt]
  rw [h3, h3]
  unfold total
  omega

section Reading

omit [DecidableEq ι] [DecidableEq σ]

omit [Fintype σ] [DecidableEq α] in
theorem sharedTgt_eq {y : Option (α × Bool)} : sharedTgt y = some a ↔ y = some (a, false) := by
  match y with
  | none => simp [sharedTgt]
  | some (c, true) => simp [sharedTgt]
  | some (c, false) => simp [sharedTgt]

omit [Fintype σ] [DecidableEq α] in
theorem ownedTgt_eq {y : Option (α × Bool)} : ownedTgt y = some a ↔ y = some (a, true) := by
  match y with
  | none => simp [ownedTgt]
  | some (c, true) => simp [ownedTgt]
  | some (c, false) => simp [ownedTgt]

theorem shared_congr (h : ∀ n ∈ L, slot' n = slot n) (a : α) : shared L slot' a = shared L slot a :=
  refs_congr fun n hn => by rw [h n hn]

theorem owned_congr (h : ∀ n ∈ L, slot' n = slot n) (a : α) : owned L slot' a = owned L slot a :=
  refs_congr fun n hn => by rw [h n hn]

theorem shared_pos (hn : n ∈ L) (h : slot n i = some (a, false)) : 0 < shared L slot a :=
  refs_pos hn (show sharedTgt (slot n i) = some a by rw [h]; rfl)

theorem owned_pos (hn : n ∈ L) (h : slot n i = some (a, true)) : 0 < owned L slot a :=
  refs_pos hn (show ownedTgt (slot n i) = some a by rw [h]; rfl)

theorem total_pos (hn : n ∈ L) {b : Bool} (h : slot n i = some (a, b)) : 0 < total L slot a := by
  unfold total
  cases b with
  | true => exact Nat.add_pos_right _ (owned_pos hn h)
  | false => exact Nat.add_pos_left (shared_pos hn h) _

theorem exists_of_total_pos (h : 0 < total L slot a) : ∃ n ∈ L, ∃ i b, slot n i = some (a, b) := by
  rcases Nat.eq_zero_or_pos (shared L slot a) with h0 | h0
  · obtain ⟨n, hn, i, hi⟩ := exists_of_refs_pos (show 0 < owned L slot a by unfold total at h; omega)
    exact ⟨n, hn, i, true, ownedTgt_eq.mp hi⟩
  · obtain ⟨n, hn, i, hi⟩ := exists_of_refs_pos h0
    exact ⟨n, hn, i, false, sharedTgt_eq.mp hi⟩

theorem total_eq_zero : total L slot a = 0 ↔ ∀ n ∈ L, ∀ i b, slot n i ≠ some (a, b) := by
  constructor
  · intro h n hn i b hx
    have := total_pos hn hx
    omega
  · intro h
    by_contra hc
    obtain ⟨n, hn, i, b, hx⟩ := exists_of_total_pos (Nat.pos_of_ne_zero hc)
    exact h n hn i b hx

end Reading

/-! ### The moves -/

namespace Balanced

/-- **A single reference** comes from one slot. -/
theorem unique (H : Balanced L slot count bias) {b c : Bool} (h : total L slot a ≤ 1) (hn : n ∈ L)
    (hm : m ∈ L) (hi : slot n i = some (a, b)) (hj : slot m j = some (a, c)) : n = m ∧ i = j := by
  have hs : refs L (fun n i => sharedTgt (slot n i)) a ≤ 1 := le_trans (Nat.le_add_right _ _) h
  have ho : refs L (fun n i => ownedTgt (slot n i)) a ≤ 1 := le_trans (Nat.le_add_left _ _) h
  cases b <;> cases c
  · exact refs_unique hs hn hm (sharedTgt_eq.mpr hi) (sharedTgt_eq.mpr hj)
  · have := H.exclusive a (owned_pos hm hj)
    have := shared_pos hn hi
    omega
  · have := H.exclusive a (owned_pos hn hi)
    have := shared_pos hm hj
    omega
  · exact refs_unique ho hn hm (ownedTgt_eq.mpr hi) (ownedTgt_eq.mpr hj)

section

omit [DecidableEq ι] [DecidableEq σ]

/-- An exclusive reference is the only one. -/
theorem total_of_owned (H : Balanced L slot count bias) (hn : n ∈ L)
    (hx : slot n i = some (a, true)) : total L slot a = 1 := by
  have h1 := owned_pos hn hx
  have h2 := H.exclusive a h1
  have h3 := H.owner a
  unfold total
  omega

theorem owned_eq_zero (H : Balanced L slot count bias) (h : 0 < shared L slot a) : owned L slot a = 0 := by
  by_contra hc
  have := H.exclusive a (by omega)
  omega

theorem congr (H : Balanced L slot count bias) (h : ∀ n ∈ L, slot' n = slot n) :
    Balanced L slot' count bias where
  count_eq a := by rw [shared_congr h, H.count_eq]
  owner a := by rw [owned_congr h]; exact H.owner a
  exclusive a ha := by rw [owned_congr h] at ha; rw [shared_congr h]; exact H.exclusive a ha

end

/-- A slot is cleared, and a shared reference given up. -/
theorem clear (H : Balanced L slot count bias) (hn : n ∈ L) (i : σ) :
    Balanced L (setSlot slot n i none) (fun a =>
      count a - if sharedTgt (slot n i) = some a then 1 else 0) bias := by
  have h1 : ∀ a, (shared L (setSlot slot n i none) a : ℤ) =
      shared L slot a - if sharedTgt (slot n i) = some a then 1 else 0 := by
    intro a
    have := shared_setSlot slot hn i none a
    rw [show sharedTgt (none : Option (α × Bool)) = none from rfl] at this
    split <;> simp_all
    omega
  have h2 : ∀ a, owned L (setSlot slot n i none) a ≤ owned L slot a := by
    intro a
    have := owned_setSlot slot hn i none a
    rw [show ownedTgt (none : Option (α × Bool)) = none from rfl] at this
    simp only [reduceCtorEq, ite_false] at this
    omega
  refine ⟨fun a => ?_, fun a => le_trans (h2 a) (H.owner a), fun a ha => ?_⟩
  · rw [h1, H.count_eq]
    omega
  · have h3 := H.exclusive a (lt_of_lt_of_le ha (h2 a))
    have h4 := h1 a
    omega

/-- The only shared reference becomes an exclusive one. -/
theorem promote (H : Balanced L slot count bias) (hn : n ∈ L) (hx : slot n i = some (a, false))
    (hone : shared L slot a = 1) :
    Balanced L (setSlot slot n i (some (a, true))) (update count a (count a - 1)) bias := by
  have h0 : owned L slot a = 0 := H.owned_eq_zero (by omega)
  have h1 : ∀ b, shared L (setSlot slot n i (some (a, true))) b = if a = b then 0 else shared L slot b := by
    intro b
    have := shared_setSlot slot hn i (some (a, true)) b
    simp only [hx, sharedTgt, reduceCtorEq, ite_false, Nat.add_zero, Option.some.injEq] at this
    split at this <;> simp_all
  have h2 : ∀ b, owned L (setSlot slot n i (some (a, true))) b = if a = b then 1 else owned L slot b := by
    intro b
    have := owned_setSlot slot hn i (some (a, true)) b
    simp only [hx, ownedTgt, reduceCtorEq, ite_false, Nat.add_zero, Option.some.injEq] at this
    split at this <;> simp_all
  refine ⟨fun b => ?_, fun b => ?_, fun b hb => ?_⟩
  · rw [h1]
    have h3 := H.count_eq b
    by_cases hab : a = b
    · subst hab
      rw [update_self, if_pos rfl]
      omega
    · rw [update_of_ne (Ne.symm hab), if_neg hab, h3]
  · rw [h2]
    split
    · exact le_refl 1
    · exact H.owner b
  · rw [h1]
    rw [h2] at hb
    split
    · rfl
    · rw [if_neg ‹_›] at hb
      exact H.exclusive b hb

/-- A reference is stored in an empty slot: shared and counted, shared and not counted, or
exclusive. -/
theorem store (H : Balanced L slot count bias) (hn : n ∈ L) (hx : slot n i = none) (b : Bool)
    (h0 : owned L slot a = 0) (hb : b = true → shared L slot a = 0) (c : Bool) :
    Balanced L (setSlot slot n i (some (a, b)))
      (update count a (count a + if b = false ∧ c = true then 1 else 0))
      (update bias a (bias a - if b = false ∧ c = false then 1 else 0)) := by
  have h3 : ∀ d, shared L (setSlot slot n i (some (a, b))) d = shared L slot d + if b = false ∧
      a = d then 1 else 0 := by
    intro d
    have := shared_setSlot slot hn i (some (a, b)) d
    rw [hx] at this
    cases b <;> simpa [sharedTgt] using this
  have h4 : ∀ d, owned L (setSlot slot n i (some (a, b))) d = owned L slot d + if b = true ∧
      a = d then 1 else 0 := by
    intro d
    have := owned_setSlot slot hn i (some (a, b)) d
    rw [hx] at this
    cases b <;> simpa [ownedTgt] using this
  refine ⟨fun d => ?_, fun d => ?_, fun d hd => ?_⟩ <;> by_cases had : a = d
  · subst had
    rw [h3, update_self, update_self, H.count_eq]
    cases b <;> cases c <;> simp
    omega
  · rw [h3, update_of_ne (Ne.symm had), update_of_ne (Ne.symm had), H.count_eq]
    simp [had]
  · subst had
    rw [h4, h0]
    split <;> omega
  · rw [h4, if_neg (fun h => had h.2)]
    exact H.owner d
  · subst had
    rw [h4, h0] at hd
    cases b with
    | false => simp at hd
    | true =>
      rw [h3, hb rfl]
      simp
  · rw [h4, if_neg (fun h => had h.2)] at hd
    rw [h3, if_neg (fun h => had h.2)]
    exact H.exclusive d hd

/-- A shared reference is given up for an exclusive one to a target nothing refers to. -/
theorem redirect (H : Balanced L slot count bias) (hn : n ∈ L) (hx : slot n i = some (a, false))
    (hb : total L slot b = 0) :
    Balanced L (setSlot slot n i (some (b, true))) (update count a (count a - 1)) bias := by
  have hab : a ≠ b := by
    rintro rfl
    exact total_eq_zero.mp hb n hn i false hx
  have hle := total_setSlot slot hn i none b
  have h0 : total L (setSlot slot n i none) b = 0 := by
    simp only [hb, Option.map_none, reduceCtorEq, ite_false] at hle
    omega
  unfold total at h0
  have h1 := (H.clear hn i).store hn (setSlot_self slot n i none) true (a := b) (by omega)
      (fun _ => by omega) true
  rw [setSlot_setSlot] at h1
  simp only [Bool.true_eq_false, false_and, ite_false, add_zero, sub_zero, update_eq_self] at h1
  convert h1 using 1
  funext c
  rw [hx]
  by_cases hc : c = a
  · subst hc
    simp [sharedTgt]
  · rw [update_of_ne hc, if_neg (by simpa [sharedTgt] using Ne.symm hc), sub_zero]

end Balanced

/-! ### Whole rows -/

section Rows

variable {row : σ → Option (α × Bool)}

/-- The shared references of a row to `a`. -/
def sharedHits (row : σ → Option (α × Bool)) (a : α) : ℕ := hits (fun i => sharedTgt (row i)) a

/-- The exclusive references of a row to `a`. -/
def ownedHits (row : σ → Option (α × Bool)) (a : α) : ℕ := hits (fun i => ownedTgt (row i)) a

section

omit [DecidableEq σ]

@[simp] theorem sharedHits_demoteRow (row : σ → Option (α × Bool)) (a : α) :
    sharedHits (demoteRow row) a = sharedHits row a + ownedHits row a := by
  unfold sharedHits ownedHits hits
  rw [countOn_eq_sum, countOn_eq_sum, countOn_eq_sum, ← Finset.sum_add_distrib]
  refine Finset.sum_congr rfl fun i _ => ?_
  match h : row i with
  | none => simp [demoteRow, h, sharedTgt, ownedTgt]
  | some (c, true) => simp [demoteRow, h, sharedTgt, ownedTgt]
  | some (c, false) => simp [demoteRow, h, sharedTgt, ownedTgt]

@[simp] theorem ownedHits_demoteRow (row : σ → Option (α × Bool)) (a : α) :
    ownedHits (demoteRow row) a = 0 := by
  refine hits_eq_zero.mpr fun i => ?_
  match h : row i with
  | none => simp [demoteRow, h, ownedTgt]
  | some (c, b) => simp [demoteRow, h, ownedTgt]

theorem sharedHits_empty (h : ∀ i, row i = none) (a : α) : sharedHits row a = 0 :=
  hits_eq_zero.mpr fun i => by simp [h, sharedTgt]

theorem ownedHits_empty (h : ∀ i, row i = none) (a : α) : ownedHits row a = 0 :=
  hits_eq_zero.mpr fun i => by simp [h, ownedTgt]

theorem shared_insert (hn : n ∉ L) (a : α) :
    shared (insert n L) slot a = sharedHits (slot n) a + shared L slot a :=
  refs_insert hn

theorem owned_insert (hn : n ∉ L) (a : α) :
    owned (insert n L) slot a = ownedHits (slot n) a + owned L slot a :=
  refs_insert hn

theorem shared_erase (slot : ι → σ → Option (α × Bool)) (hn : n ∈ L) (a : α) :
    sharedHits (slot n) a + shared (L.erase n) slot a = shared L slot a :=
  @refs_erase _ _ _ _ _ _ L (fun n i => sharedTgt (slot n i)) a n hn

theorem owned_erase (slot : ι → σ → Option (α × Bool)) (hn : n ∈ L) (a : α) :
    ownedHits (slot n) a + owned (L.erase n) slot a = owned L slot a :=
  @refs_erase _ _ _ _ _ _ L (fun n i => ownedTgt (slot n i)) a n hn

end

/-- What the counters gain when the references of a row are taken once more. -/
def gain (row : σ → Option (α × Bool)) (a : α) : ℤ := sharedHits row a + 2 * ownedHits row a

namespace Balanced

omit [DecidableEq σ]

/-- A holder without references comes. -/
theorem addHolder (H : Balanced L slot count bias) (hn : n ∉ L) (hrow : ∀ i, slot n i = none) :
    Balanced (insert n L) slot count bias := by
  refine ⟨fun a => ?_, fun a => ?_, fun a ha => ?_⟩
  · rw [shared_insert hn, sharedHits_empty hrow, H.count_eq, Nat.zero_add]
  · rw [owned_insert hn, ownedHits_empty hrow, Nat.zero_add]
    exact H.owner a
  · rw [owned_insert hn, ownedHits_empty hrow, Nat.zero_add] at ha
    rw [shared_insert hn, sharedHits_empty hrow, Nat.zero_add]
    exact H.exclusive a ha

/-- A holder without references goes. -/
theorem dropHolder (H : Balanced L slot count bias) (hn : n ∈ L) (hrow : ∀ i, slot n i = none) :
    Balanced (L.erase n) slot count bias := by
  have h1 : ∀ a, shared (L.erase n) slot a = shared L slot a := fun a => by
    have := shared_erase slot hn a
    rwa [sharedHits_empty hrow, Nat.zero_add] at this
  have h2 : ∀ a, owned (L.erase n) slot a = owned L slot a := fun a => by
    have := owned_erase slot hn a
    rwa [ownedHits_empty hrow, Nat.zero_add] at this
  exact ⟨fun a => by rw [h1, H.count_eq], fun a => by rw [h2]; exact H.owner a,
    fun a ha => by rw [h1]; exact H.exclusive a (by rwa [h2] at ha)⟩

/-- **A row is shared** with a new holder: both copies are of shared references, and each is
counted. -/
theorem share (H : Balanced L slot count bias) (hn : n ∈ L) (hm : m ∉ L)
    (hsn : slot' n = demoteRow (slot n)) (hsm : slot' m = demoteRow (slot n))
    (hs : ∀ k ∈ L, k ≠ n → slot' k = slot k) :
    Balanced (insert m L) slot' (fun a => count a + gain (slot n) a) bias := by
  have hrest : ∀ k ∈ L.erase n, slot' k = slot k := fun k hk =>
    hs k (Finset.mem_of_mem_erase hk) (Finset.ne_of_mem_erase hk)
  have h1 : ∀ a, shared (insert m L) slot' a =
      shared L slot a + sharedHits (slot n) a + 2 * ownedHits (slot n) a := by
    intro a
    have e1 := shared_erase slot hn a
    have e2 := shared_erase slot' hn a
    rw [shared_insert hm, hsm, sharedHits_demoteRow]
    rw [hsn, sharedHits_demoteRow, shared_congr hrest] at e2
    omega
  have h2 : ∀ a, owned (insert m L) slot' a + ownedHits (slot n) a = owned L slot a := by
    intro a
    have e1 := owned_erase slot hn a
    have e2 := owned_erase slot' hn a
    rw [owned_insert hm, hsm, ownedHits_demoteRow]
    rw [hsn, ownedHits_demoteRow, owned_congr hrest] at e2
    omega
  refine ⟨fun a => ?_, fun a => ?_, fun a ha => ?_⟩ <;> have e1 := h1 a <;> have e2 := h2 a <;>
    have e3 := H.owner a
  · rw [e1, H.count_eq, gain]
    push_cast
    ring
  · omega
  · have e4 := H.exclusive a (by omega)
    have e5 := shared_erase slot hn a
    omega

/-- **A row is passed on** to a new holder, and the old one goes without giving its references
up. -/
theorem relay (H : Balanced L slot count bias) (hn : n ∈ L) (hm : m ∉ L)
    (hsm : slot' m = demoteRow (slot n)) (hs : ∀ k ∈ L, k ≠ n → slot' k = slot k) :
    Balanced (insert m (L.erase n)) slot' (fun a => count a + gain (slot n) a)
      (fun a => bias a + sharedHits (slot n) a + ownedHits (slot n) a) := by
  have hrest : ∀ k ∈ L.erase n, slot' k = slot k := fun k hk =>
    hs k (Finset.mem_of_mem_erase hk) (Finset.ne_of_mem_erase hk)
  have hm' : m ∉ L.erase n := fun h => hm (Finset.mem_of_mem_erase h)
  have h1 : ∀ a, shared (insert m (L.erase n)) slot' a = shared L slot a + ownedHits (slot n) a := by
    intro a
    have e1 := shared_erase slot hn a
    rw [shared_insert hm', hsm, sharedHits_demoteRow, shared_congr hrest]
    omega
  have h2 : ∀ a, owned (insert m (L.erase n)) slot' a + ownedHits (slot n) a = owned L slot a := by
    intro a
    have e1 := owned_erase slot hn a
    rw [owned_insert hm', hsm, ownedHits_demoteRow, owned_congr hrest]
    omega
  refine ⟨fun a => ?_, fun a => ?_, fun a ha => ?_⟩ <;> have e1 := h1 a <;> have e2 := h2 a <;>
    have e3 := H.owner a
  · rw [e1, H.count_eq, gain]
    push_cast
    ring
  · omega
  · have e4 := H.exclusive a (by omega)
    omega

end Balanced

end Rows

end GheithOS.Lib
