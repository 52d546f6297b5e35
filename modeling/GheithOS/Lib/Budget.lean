import GheithOS.Lib.Prog
import Mathlib.Algebra.BigOperators.Fin

/-!
# GheithOS.Lib.Budget — what a program takes from a stock

`room k s` says that in the state `s` there are at least `k` items left of a stock.
`Spends E room k m` says that a run of `m` takes at most `k` of them, and that it stops only for a
reason in `E` as long as they are there.  One rule for each form of statement; the costs of a
sequence add up.
-/

namespace GheithOS.Lib

variable {ε σ α β ι : Type} {E : ε → Prop} {room : ℕ → σ → Prop} {k l : ℕ}

/-- **A run takes at most `k`**: what there was more is left. -/
def Spends (E : ε → Prop) (room : ℕ → σ → Prop) (k : ℕ) (m : Prog ε σ α) : Prop :=
  ∀ n s, room (k + n) s → Ends E m s fun _ s' => room n s'

variable {m : Prog ε σ α}

theorem Spends.mono (h : Spends E room k m) (hroom : Antitone room) (hkl : k ≤ l) :
    Spends E room l m :=
  fun n s hs => h n s (hroom (Nat.add_le_add_right hkl n) s hs)

theorem spends_zero (h : ∀ s, Ends E m s fun _ s' => ∀ n, room n s → room n s') :
    Spends E room 0 m :=
  fun n s hs => (h s).mono fun _ _ h' => h' n (by rwa [Nat.zero_add] at hs)

theorem spends_pure (a : α) : Spends E room 0 (pure a : Prog ε σ α) :=
  spends_zero fun _ => ends_pure fun _ hs => hs

theorem spends_throw {e : ε} (he : E e) : Spends E room 0 (throw e : Prog ε σ α) :=
  fun _ _ _ => ends_throw he

variable {f : α → Prog ε σ β}

theorem spends_bind (hm : Spends E room k m) (hf : ∀ a, Spends E room l (f a)) :
    Spends E room (k + l) (m >>= f) := fun n s hs =>
  ends_bind ((hm (l + n) s (by rwa [← Nat.add_assoc])).mono fun a s' hs' => hf a n s' hs')

theorem spends_then (hm : Spends E room 0 m) (hf : ∀ a, Spends E room l (f a)) :
    Spends E room l (m >>= f) := by
  have h := spends_bind hm hf
  rwa [Nat.zero_add] at h

/-- **Loops**: the costs of the turns add up. -/
theorem spends_forM {f : ι → Prog ε σ PUnit} {cost : ι → ℕ} (h : ∀ i, Spends E room (cost i) (f i)) :
    ∀ is : List ι, Spends E room (is.map cost).sum (is.forM f)
  | [] => spends_pure _
  | i :: is => by
    rw [List.map_cons, List.sum_cons]
    exact spends_bind (h i) fun _ => spends_forM h is

end GheithOS.Lib
