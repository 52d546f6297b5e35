import Mathlib.Data.List.Forall2

/-!
# GheithOS.Lib.Simulation — components that answer calls

A component takes calls one after the other; a call gives an answer and leaves a new state.  One
component simulates another, along a relation between their states and one between their answers, if
every call that is legal in related states gets related answers and leaves related states.  Then
this holds of whole runs of legal calls (`Simulates.runs`).
-/

namespace GheithOS.Lib

variable {κ ρ ρ' σ τ : Type*}

/-- The answers to a sequence of calls, and the state after them. -/
def runs (m : κ → σ → ρ × σ) : σ → List κ → List ρ × σ
  | s, [] => ([], s)
  | s, k :: ks => ((m k s).1 :: (runs m (m k s).2 ks).1, (runs m (m k s).2 ks).2)

/-- Every call is legal in the state in which it is made. -/
def Legal (legal : κ → σ → Prop) (m : κ → σ → ρ × σ) : σ → List κ → Prop
  | _, [] => True
  | s, k :: ks => legal k s ∧ Legal legal m (m k s).2 ks

variable {legal : κ → σ → Prop} {m : κ → σ → ρ × σ}

theorem legal_of_forall (h : ∀ k s, legal k s) :
    ∀ (ks : List κ) (s : σ), Legal legal m s ks
  | [], _ => trivial
  | k :: ks, s => ⟨h k s, legal_of_forall h ks _⟩

/-- Related states give related answers to a legal call, and stay related. -/
structure Simulates (R : σ → τ → Prop) (A : ρ → ρ' → Prop) (legal : κ → σ → Prop)
    (m : κ → σ → ρ × σ) (m' : κ → τ → ρ' × τ) : Prop where
  answer : ∀ {k s t}, R s t → legal k s → A (m k s).1 (m' k t).1
  related : ∀ {k s t}, R s t → legal k s → R (m k s).2 (m' k t).2

/-- **Runs**: the answers are related one by one, and so are the states at the end. -/
theorem Simulates.runs {R : σ → τ → Prop} {A : ρ → ρ' → Prop} {m' : κ → τ → ρ' × τ}
    (h : Simulates R A legal m m') : ∀ (ks : List κ) {s : σ} {t : τ}, R s t → Legal legal m s ks →
    List.Forall₂ A (runs m s ks).1 (runs m' t ks).1 ∧ R (runs m s ks).2 (runs m' t ks).2
  | [], _, _, hR, _ => ⟨.nil, hR⟩
  | _ :: ks, _, _, hR, hk => by
    obtain ⟨hrest, hend⟩ := h.runs ks (h.related hR hk.1) hk.2
    exact ⟨.cons (h.answer hR hk.1) hrest, hend⟩

end GheithOS.Lib
