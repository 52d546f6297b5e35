import Mathlib.Data.List.Nodup

/-!
# GheithOS.Lib.Linked — doubly linked lists threaded through two maps

`Linked nxt prv nil p a L`: starting at `a` and following `nxt`, the nodes visited are `L`, the walk
ends at `nil`, and `prv` undoes every step (the predecessor of the first node is `p`).  The two maps
are whatever a memory stores at its nodes, so the lemmas never ask them to be updated at one point:
they ask for the values at the nodes of the list (`Linked.congr`, `Linked.remove`, `Linked.push`).
-/

namespace GheithOS.Lib

variable {ι : Type*}

/-- The doubly linked list `L` from `a`, entered from `p` and ended by `nil`. -/
def Linked (nxt prv : ι → ι) (nil : ι) : ι → ι → List ι → Prop
  | _, a, [] => a = nil
  | p, a, x :: L => a = x ∧ x ≠ nil ∧ prv x = p ∧ Linked nxt prv nil x (nxt x) L

namespace Linked

variable {nxt prv nxt' prv' : ι → ι} {nil p a : ι} {L : List ι}

theorem ne_nil_of_mem : ∀ {p a : ι} {L : List ι}, Linked nxt prv nil p a L → ∀ x ∈ L, x ≠ nil
  | _, _, [], _, x, hx => by simp at hx
  | _, _, y :: L, h, x, hx => by
    rcases List.mem_cons.mp hx with rfl | hx
    · exact h.2.1
    · exact ne_nil_of_mem h.2.2.2 x hx

theorem eq_nil_iff (h : Linked nxt prv nil p a L) : L = [] ↔ a = nil := by
  cases L with
  | nil => simpa [Linked] using h
  | cons x L =>
    obtain ⟨rfl, hx, -⟩ := h
    simp [hx]

theorem head_mem (h : Linked nxt prv nil p a L) (ha : a ≠ nil) : a ∈ L := by
  cases L with
  | nil => exact absurd h ha
  | cons x L => simp [h.1]

theorem congr : ∀ {p a : ι} {L : List ι}, Linked nxt prv nil p a L →
    (∀ x ∈ L, nxt' x = nxt x ∧ prv' x = prv x) → Linked nxt' prv' nil p a L
  | _, _, [], h, _ => h
  | _, _, x :: L, ⟨h1, h2, h3, h4⟩, hc => by
    obtain ⟨hn, hp⟩ := hc x (by simp)
    refine ⟨h1, h2, hp.trans h3, ?_⟩
    rw [hn]
    exact congr h4 fun y hy => hc y (by simp [hy])

theorem prv_eq : ∀ {p a x : ι} {L₁ L₂ : List ι}, Linked nxt prv nil p a (L₁ ++ x :: L₂) →
    prv x = L₁.getLast?.getD p
  | _, _, _, [], _, h => h.2.2.1
  | _, _, x, y :: L₁, L₂, h => by
    have := prv_eq h.2.2.2
    rw [this]
    cases L₁ with
    | nil => rfl
    | cons z L₁ => simp [List.getLast?_cons]

theorem nxt_linked : ∀ {p a x : ι} {L₁ L₂ : List ι}, Linked nxt prv nil p a (L₁ ++ x :: L₂) →
    Linked nxt prv nil x (nxt x) L₂
  | _, _, _, [], _, h => h.2.2.2
  | _, _, _, _ :: _, _, h => nxt_linked h.2.2.2

variable {x : ι} {L₁ L₂ : List ι}

theorem nxt_mem (h : Linked nxt prv nil p a (L₁ ++ x :: L₂)) (hn : nxt x ≠ nil) :
    nxt x ∈ L₂ := h.nxt_linked.head_mem hn

theorem prv_mem (h : Linked nxt prv nil p a (L₁ ++ x :: L₂)) (hp : prv x ≠ p) : prv x ∈ L₁ := by
  rw [h.prv_eq] at hp ⊢
  cases hlast : L₁.getLast? with
  | none => simp [hlast] at hp
  | some z => simpa using List.mem_of_getLast? hlast

/-- **Unlinking** the node `x`: its predecessor is sent to its successor and back. -/
theorem remove [DecidableEq ι] : ∀ {p a x : ι} {L₁ L₂ : List ι},
    Linked nxt prv nil p a (L₁ ++ x :: L₂) → (p :: L₁ ++ x :: L₂).Nodup →
    (∀ y ∈ L₁ ++ L₂, nxt' y = if y = prv x then nxt x else nxt y) →
    (∀ y ∈ L₁ ++ L₂, prv' y = if y = nxt x then prv x else prv y) →
    Linked nxt' prv' nil p (if L₁ = [] then nxt x else a) (L₁ ++ L₂)
  | p, a, x, [], L₂, h, hnd, hn, hp => by
    obtain ⟨rfl, hx, hpx, h⟩ := h
    simp only [List.nil_append, ite_true] at hn hp ⊢
    cases L₂ with
    | nil => exact h
    | cons y L₂ =>
      obtain ⟨hy, hyn, hpy, h⟩ := h
      simp only [List.cons_append, List.nil_append, List.nodup_cons, List.mem_cons, not_or] at hnd
      have hny := hn y (by simp)
      have hpy' := hp y (by simp)
      rw [if_neg (by rw [hpx]; exact fun hc => hnd.1.2.1 hc.symm)] at hny
      rw [if_pos hy.symm, hpx] at hpy'
      refine ⟨hy, hyn, hpy', ?_⟩
      rw [hny]
      refine congr h fun z hz => ⟨?_, ?_⟩
      · rw [hn z (by simp [hz]), if_neg]
        rintro rfl
        rw [hpx] at hz
        exact hnd.1.2.2 hz
      · rw [hp z (by simp [hz]), if_neg]
        rintro rfl
        rw [hy] at hz
        exact hnd.2.2.1 hz
  | p, a, x, y :: L₁, L₂, h, hnd, hn, hp => by
    obtain ⟨rfl, hy, hpy, h⟩ := h
    simp only [List.cons_append, List.nodup_cons] at hnd
    have hnd' : (a :: L₁ ++ x :: L₂).Nodup := by
      simpa only [List.cons_append, List.nodup_cons] using hnd.2
    have ih := remove h hnd' (fun z hz => hn z (by simp at hz ⊢; tauto))
      (fun z hz => hp z (by simp at hz ⊢; tauto))
    have hna := hn a (by simp)
    have hpa := hp a (by simp)
    -- the successor of `x` lies behind `a`
    have hane : a ≠ nxt x := by
      intro hc
      have : nxt x ∈ L₂ := nxt_mem h (hc ▸ hy)
      exact hnd.2.1 (by simp [hc, this])
    rw [if_neg hane] at hpa
    refine ⟨by simp, hy, hpa.trans hpy, ?_⟩
    have hpx := prv_eq h
    by_cases hL : L₁ = []
    · subst hL
      rw [List.getLast?_nil, Option.getD_none] at hpx
      rw [if_pos hpx.symm] at hna
      rw [hna]
      simpa using ih
    · have hlast : prv x ∈ L₁ := by
        obtain ⟨z, hz⟩ := Option.isSome_iff_exists.mp (List.getLast?_isSome.mpr hL)
        rw [hpx, hz, Option.getD_some]
        exact List.mem_of_getLast? hz
      rw [if_neg (fun hc => hnd.2.1 (by simp [hc, hlast]))] at hna
      rw [hna]
      simpa [hL] using ih

/-- **Pushing** a new node in front. -/
theorem push [DecidableEq ι] (h : Linked nxt prv nil nil a L) (hx : x ≠ nil) (hnd : L.Nodup)
    (hnx : nxt' x = a) (hpx : prv' x = nil) (hn : ∀ y ∈ L, nxt' y = nxt y)
    (hp : ∀ y ∈ L, prv' y = if y = a then x else prv y) :
    Linked nxt' prv' nil nil x (x :: L) := by
  refine ⟨rfl, hx, hpx, ?_⟩
  rw [hnx]
  cases L with
  | nil => exact h
  | cons y L =>
    obtain ⟨rfl, hy, -, h⟩ := h
    have hpa := hp a (by simp)
    rw [if_pos rfl] at hpa
    refine ⟨rfl, hy, hpa, ?_⟩
    rw [hn a (by simp)]
    refine congr h fun z hz => ⟨hn z (by simp [hz]), ?_⟩
    rw [hp z (by simp [hz]), if_neg]
    rintro rfl
    exact (List.nodup_cons.mp hnd).1 hz

end Linked

end GheithOS.Lib
