import Mathlib.Control.Lawful

/-!
# GheithOS.Lib.Prog — a small program logic for code that may stop

A program reads and writes a state and either returns or stops for a reason (a panic of the kernel).
`Ends E m s Q` says how a run of `m` from `s` ends: it returns with a result and a state that
satisfy `Q`, or it stops for a reason in `E`.  One rule for each form of statement, and the
invariant rule for a loop over a list.
-/

namespace GheithOS.Lib

/-- A program over the state `σ` that may stop with an `ε`. -/
abbrev Prog (ε σ α : Type) := StateT σ (Except ε) α

variable {ε σ α β ι : Type} {E : ε → Prop} {s : σ}

/-- A run of `m` from `s` returns as `Q` says, or stops for a reason in `E`. -/
def Ends (E : ε → Prop) (m : Prog ε σ α) (s : σ) (Q : α → σ → Prop) : Prop :=
  match m s with
  | .ok (a, s') => Q a s'
  | .error e => E e

variable {m : Prog ε σ α} {Q : α → σ → Prop}

theorem Ends.mono {Q' : α → σ → Prop} (h : Ends E m s Q) (hQ : ∀ a s', Q a s' → Q' a s') :
    Ends E m s Q' := by
  unfold Ends at h ⊢
  match hm : m s with
  | .ok (a, s') =>
    rw [hm] at h
    exact hQ a s' h
  | .error e =>
    rw [hm] at h
    exact h

theorem Ends.weaken {E' : ε → Prop} (h : Ends E m s Q) (hE : ∀ e, E e → E' e) : Ends E' m s Q := by
  unfold Ends at h ⊢
  match hm : m s with
  | .ok (a, s') =>
    rw [hm] at h
    exact h
  | .error e =>
    rw [hm] at h
    exact hE e h

variable {a : α} {s' : σ}

theorem Ends.ok (h : Ends E m s Q) (hm : m s = .ok (a, s')) : Q a s' := by
  unfold Ends at h
  rwa [hm] at h

theorem Ends.returns (h : Ends E m s Q) (hE : ∀ e, E e → m s ≠ .error e) :
    ∃ a s', m s = .ok (a, s') ∧ Q a s' := by
  unfold Ends at h
  match hm : m s with
  | .ok (a, s') =>
    rw [hm] at h
    exact ⟨a, s', rfl, h⟩
  | .error e =>
    rw [hm] at h
    exact absurd hm (hE e h)

theorem ends_any (m : Prog ε σ α) (s : σ) : Ends (fun _ => True) m s fun _ _ => True := by
  unfold Ends
  split <;> trivial

theorem ends_of_eq (hm : m s = .ok (a, s')) (hQ : Q a s') : Ends E m s Q := by
  unfold Ends
  rw [hm]
  exact hQ

theorem ends_pure (hQ : Q a s) : Ends E (pure a : Prog ε σ α) s Q := hQ

theorem ends_throw {e : ε} (he : E e) : Ends E (throw e : Prog ε σ α) s Q := he

variable {f : α → Prog ε σ β}

theorem ends_bind {Q : β → σ → Prop} (h : Ends E m s fun a s' => Ends E (f a) s' Q) :
    Ends E (m >>= f) s Q := by
  unfold Ends at h ⊢
  have hb : (m >>= f) s = (m s >>= fun p => f p.1 p.2) := rfl
  rw [hb]
  match hm : m s with
  | .ok (a, s') =>
    rw [hm] at h
    exact h
  | .error e =>
    rw [hm] at h
    exact h

/-- The first of two statements has a known end. -/
theorem bind_of_eq (hm : m s = .ok (a, s')) : (m >>= f) s = f a s' := by
  have hb : (m >>= f) s = (m s >>= fun p => f p.1 p.2) := rfl
  rw [hb, hm]
  rfl

theorem bind_of_error {e : ε} (hm : m s = .error e) : (m >>= f) s = .error e := by
  have hb : (m >>= f) s = (m s >>= fun p => f p.1 p.2) := rfl
  rw [hb, hm]
  rfl

/-- **Loops**: an invariant that every turn keeps, told what is still to do. -/
theorem ends_forM {f : ι → Prog ε σ PUnit} (I : List ι → σ → Prop)
    (hstep : ∀ i is s, I (i :: is) s → Ends E (f i) s fun _ s' => I is s') :
    ∀ (is : List ι) {s : σ}, I is s → Ends E (is.forM f) s fun _ s' => I [] s'
  | [], _, h => h
  | i :: is, _, h => ends_bind ((hstep i is _ h).mono fun _ _ h' => ends_forM I hstep is h')

/-- A loop whose turns are known functions of the state. -/
theorem forM_of_step {f : ι → Prog ε σ PUnit} {g : σ → ι → σ} (I : List ι → σ → Prop)
    (hstep : ∀ i is s, I (i :: is) s → f i s = .ok (⟨⟩, g s i) ∧ I is (g s i)) :
    ∀ (is : List ι) {s : σ}, I is s → is.forM f s = .ok (⟨⟩, is.foldl g s) ∧ I [] (is.foldl g s)
  | [], _, h => ⟨rfl, h⟩
  | i :: is, s, h => by
    obtain ⟨hi, hI⟩ := hstep i is s h
    rw [List.foldl_cons, show (i :: is).forM f s = is.forM f (g s i) from bind_of_eq hi]
    exact forM_of_step I hstep is hI

/-! ### Assertions -/

/-- The reason to stop: an assertion has failed. -/
inductive Halt where
  | assertion
  deriving DecidableEq, Repr

def assert (c : Prop) [Decidable c] : Prog Halt σ Unit := if c then pure () else throw .assertion

variable {c : Prop}

theorem ends_assert {E : Halt → Prop} [Decidable c] {Q : Unit → σ → Prop} (hc : c) (hQ : Q () s) :
    Ends E (assert c) s Q := by
  unfold assert
  rw [if_pos hc]
  exact ends_pure hQ

theorem ends_of_assert [Decidable c] {Q : Unit → σ → Prop} (hQ : c → Q () s) :
    Ends (fun _ => True) (assert c) s Q := by
  by_cases hc : c
  · exact ends_assert hc (hQ hc)
  · unfold assert
    rw [if_neg hc]
    exact ends_throw trivial

end GheithOS.Lib
