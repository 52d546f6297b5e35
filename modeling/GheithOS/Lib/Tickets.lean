import GheithOS.Lib.Count
import Mathlib.Data.Fintype.Basic

/-!
# GheithOS.Lib.Tickets — threads that draw numbers and pass a gate in the order of the numbers

A family of threads, each at a program point that has a rank; a step raises the rank of one thread
by one.  At rank `d` a thread draws a ticket: the number of tickets drawn before.  At rank `c` it
passes a gate, and only the thread with the number of threads that have passed may do so.  `Tickets`
is what such a family keeps: the tickets are 0, 1, 2, … without gaps, no two threads have the same,
and the threads that have passed are those with the lowest tickets.
-/

namespace GheithOS.Lib

open Function

variable {N : ℕ} {P : Type}

/-- The number of threads at rank `r` or higher. -/
def atLeast (rank : P → ℕ) (r : ℕ) (f : Fin N → P) : ℕ := countOn Finset.univ (fun p => r ≤ rank p) f

/-- Tickets are drawn at rank `d` and the gate is passed at rank `c`. -/
structure Tickets (rank ticket : P → ℕ) (d c : ℕ) (f : Fin N → P) : Prop where
  lt : ∀ i, d ≤ rank (f i) → ticket (f i) < atLeast rank d f
  unique : ∀ i j, d ≤ rank (f i) → d ≤ rank (f j) → ticket (f i) = ticket (f j) → i = j
  drawn : ∀ k < atLeast rank d f, ∃ i, d ≤ rank (f i) ∧ ticket (f i) = k
  order : ∀ i, d ≤ rank (f i) → (c ≤ rank (f i) ↔ ticket (f i) < atLeast rank c f)

section

variable {rank ticket : P → ℕ} {d c : ℕ} {f : Fin N → P} {i : Fin N} {x : P}

theorem atLeast_anti {q r : ℕ} (h : q ≤ r) : atLeast rank r f ≤ atLeast rank q f := by
  unfold atLeast countOn
  apply Finset.card_le_card
  intro j hj
  rw [Finset.mem_filter] at hj ⊢
  exact ⟨hj.1, h.trans hj.2⟩

theorem atLeast_advance (hx : rank x = rank (f i) + 1) (r : ℕ) :
    atLeast rank r (update f i x) = atLeast rank r f + if r = rank x then 1 else 0 := by
  have h := countOn_update (p := fun p => r ≤ rank p) (f := f) (Finset.mem_univ i) x
  change atLeast rank r (update f i x) + _ = atLeast rank r f + _ at h
  by_cases h1 : r ≤ rank (f i) <;> by_cases h2 : r ≤ rank x
  · rw [if_pos h1, if_pos h2] at h
    rw [if_neg (by omega)]
    omega
  · omega
  · rw [if_neg h1, if_pos h2] at h
    rw [if_pos (by omega)]
    omega
  · rw [if_neg h1, if_neg h2] at h
    rw [if_neg (by omega)]
    omega

theorem atLeast_zero_rank {p : P} (hp : rank p = 0) {r : ℕ} (hr : 0 < r) :
    atLeast rank r (fun _ : Fin N => p) = 0 :=
  countOn_eq_zero_iff.mpr fun _ _ => by omega

theorem tickets_init {p : P} (hp : rank p = 0) (hd : 0 < d) :
    Tickets rank ticket d c (fun _ : Fin N => p) where
  lt _ h := absurd h (by omega)
  unique _ _ h := absurd h (by omega)
  drawn k hk := absurd hk (by rw [atLeast_zero_rank hp hd]; omega)
  order _ h := absurd h (by omega)

/-- **One step**: the rank that draws gets the next number, later ranks keep it, and the gate is
passed by the thread whose turn it is. -/
theorem Tickets.advance (h : Tickets rank ticket d c f) (hdc : d < c) (hx : rank x = rank (f i) + 1)
    (hdraw : rank x = d → ticket x = atLeast rank d f) (hkeep : d ≤ rank (f i) → ticket x = ticket (f i))
    (hgate : rank x = c → ticket (f i) = atLeast rank c f) :
    Tickets rank ticket d c (update f i x) := by
  have hcd : atLeast rank c f ≤ atLeast rank d f := atLeast_anti (le_of_lt hdc)
  -- a thread has a ticket after the step if it had one, or has just drawn
  have hnew : ∀ j, d ≤ rank (update f i x j) → (j = i ∧ rank x = d) ∨ d ≤ rank (f j) := by
    intro j hj
    by_cases hji : j = i
    · subst hji
      rw [update_self] at hj
      omega
    · rw [update_of_ne hji] at hj
      exact .inr hj
  have hsame : ∀ j, d ≤ rank (f j) → ticket (update f i x j) = ticket (f j) := by
    intro j hj
    by_cases hji : j = i
    · subst hji
      rw [update_self, hkeep hj]
    · rw [update_of_ne hji]
  have hup : ∀ j, d ≤ rank (f j) → d ≤ rank (update f i x j) := by
    intro j hj
    by_cases hji : j = i
    · subst hji
      rw [update_self]
      omega
    · rwa [update_of_ne hji]
  refine ⟨fun j hj => ?_, fun j l hj hl heq => ?_, fun k hk => ?_, fun j hj => ?_⟩
  · rw [atLeast_advance hx]
    rcases hnew j hj with ⟨rfl, hd⟩ | hj'
    · rw [update_self, hdraw hd, if_pos hd.symm]
      omega
    · rw [hsame j hj']
      have := h.lt j hj'
      omega
  · rcases hnew j hj with ⟨rfl, hd⟩ | hj' <;> rcases hnew l hl with ⟨rfl, hd'⟩ | hl'
    · rfl
    · have := h.lt l hl'
      rw [hsame l hl', update_self, hdraw hd] at heq
      omega
    · have := h.lt j hj'
      rw [hsame j hj', update_self, hdraw hd'] at heq
      omega
    · rw [hsame j hj', hsame l hl'] at heq
      exact h.unique j l hj' hl' heq
  · rw [atLeast_advance hx] at hk
    by_cases hlt : k < atLeast rank d f
    · obtain ⟨j, hj, hjk⟩ := h.drawn k hlt
      exact ⟨j, hup j hj, (hsame j hj).trans hjk⟩
    · have hd : d = rank x := by
        by_contra hne
        rw [if_neg hne] at hk
        omega
      rw [if_pos hd] at hk
      refine ⟨i, ?_, ?_⟩
      · rw [update_self]
        omega
      · rw [update_self, hdraw hd.symm]
        omega
  · rw [atLeast_advance hx]
    rcases hnew j hj with ⟨rfl, hd⟩ | hj'
    · rw [update_self, hdraw hd, if_neg (by omega)]
      omega
    · rw [hsame j hj']
      have hord := h.order j hj'
      by_cases hji : j = i
      · subst hji
        rw [update_self]
        by_cases hc : c = rank x
        · rw [if_pos hc, hgate hc.symm]
          omega
        · rw [if_neg hc, Nat.add_zero, ← hord]
          omega
      · rw [update_of_ne hji, hord]
        by_cases hc : c = rank x
        · rw [if_pos hc]
          have hi : d ≤ rank (f i) := by omega
          have hne : ticket (f j) ≠ atLeast rank c f := fun heq =>
            hji (h.unique j i hj' hi (heq.trans (hgate hc.symm).symm))
          omega
        · rw [if_neg hc]
          omega

/-- **Whose turn it is**: numbers modulo `n` tell, as long as at most `n` threads are between the
draw and the gate. -/
theorem Tickets.turn (h : Tickets rank ticket d c f) {n : ℕ}
    (hn : atLeast rank d f ≤ atLeast rank c f + n) (hi : d ≤ rank (f i)) (hc : ¬c ≤ rank (f i))
    (hmod : atLeast rank c f % n = ticket (f i) % n) : ticket (f i) = atLeast rank c f := by
  have h1 := h.lt i hi
  have h2 := (h.order i hi).not.mp hc
  have h3 : ticket (f i) - atLeast rank c f < n := by omega
  have h4 : (ticket (f i) - atLeast rank c f) % n = 0 :=
    Nat.sub_mod_eq_zero_of_mod_eq hmod.symm
  rw [Nat.mod_eq_of_lt h3] at h4
  omega

end

end GheithOS.Lib
