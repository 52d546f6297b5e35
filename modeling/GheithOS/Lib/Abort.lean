import Mathlib.Init

/-!
# GheithOS.Lib.Abort — programs that are abandoned where they stand

A program of `EStateM` that stops keeps what it has done to the state so far, as a handler that is
abandoned in the middle does.  `Runs m s N A` says how a run of `m` from `s` ends: it returns as `N`
says, or is abandoned as `A` says.

`runs_bind` follows the text of a program; `Runs.mono` weakens what is known of its runs.
-/

namespace GheithOS.Lib

variable {ε σ α β : Type}

/-- A run of `m` from `s` returns as `N` says or is abandoned as `A` says. -/
def Runs (m : EStateM ε σ α) (s : σ) (N : α → σ → Prop) (A : ε → σ → Prop) : Prop :=
  match m s with
  | .ok a s' => N a s'
  | .error e s' => A e s'

section Rules

variable {m : EStateM ε σ α} {f : α → EStateM ε σ β} {s : σ} {N N' : α → σ → Prop} {A A' : ε → σ → Prop}

theorem Runs.mono (h : Runs m s N A) (hN : ∀ a s', N a s' → N' a s') (hA : ∀ e s', A e s' → A' e s') :
    Runs m s N' A' := by
  unfold Runs at *
  match hm : m s with
  | .ok a s' =>
    rw [hm] at h
    exact hN a s' h
  | .error e s' =>
    rw [hm] at h
    exact hA e s' h

variable {a : α}

theorem runs_pure (h : N a s) : Runs (pure a) s N A := h

theorem runs_throw {e : ε} (h : A e s) : Runs (throw e : EStateM ε σ α) s N A := h

theorem runs_bind {M : β → σ → Prop} (h : Runs m s (fun a s' => Runs (f a) s' M A) A) :
    Runs (m >>= f) s M A := by
  unfold Runs at *
  have hb : (m >>= f) s = EStateM.bind m f s := rfl
  rw [hb, EStateM.bind]
  match hm : m s with
  | .ok a s' =>
    rw [hm] at h
    exact h
  | .error e s' =>
    rw [hm] at h
    exact h

theorem runs_get {f : σ → EStateM ε σ α} (h : Runs (f s) s N A) : Runs (get >>= f) s N A := h

variable {s' : σ}

/-- The end of a run that is known. -/
theorem runs_of_ok (h : m s = .ok a s') (hN : N a s') : Runs m s N A := by
  unfold Runs
  rw [h]
  exact hN

theorem runs_of_error {e : ε} (h : m s = .error e s') (hA : A e s') : Runs m s N A := by
  unfold Runs
  rw [h]
  exact hA

theorem Runs.ok (h : Runs m s N A) (hm : m s = .ok a s') : N a s' := by
  unfold Runs at h
  rwa [hm] at h

theorem Runs.error {e : ε} (h : Runs m s N A) (hm : m s = .error e s') : A e s' := by
  unfold Runs at h
  rwa [hm] at h

theorem bind_ok (h : m s = .ok a s') : (m >>= f) s = f a s' := by
  have hb : (m >>= f) s = EStateM.bind m f s := rfl
  rw [hb, EStateM.bind, h]

theorem get_bind (f : σ → EStateM ε σ α) (s : σ) : (get >>= f) s = f s s := rfl

theorem bind_error {e : ε} (h : m s = .error e s') : (m >>= f) s = .error e s' := by
  have hb : (m >>= f) s = EStateM.bind m f s := rfl
  rw [hb, EStateM.bind, h]

end Rules

end GheithOS.Lib
