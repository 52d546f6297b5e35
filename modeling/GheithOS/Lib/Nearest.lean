import Mathlib.Tactic.Ring
import Mathlib.Tactic.Linarith

/-!
# GheithOS.Lib.Nearest — the nearest entry of a partial map, from below or from above

`Nearest true f N k r` says that `r` is the value of `f` at the greatest key `≤ k`,
`Nearest false f N k r` at the least key `≥ k`, among the keys below `N`; `none` if there is no such
key.  Both are one notion with the direction as a parameter.  A key `d * M + e` has the digit `d`
and the rest `e`: the rules `Nearest.of_block`, `Nearest.of_next` and `Nearest.none_of` find the
nearest key digit by digit.
-/

namespace GheithOS.Lib

variable {α : Type*} {b : Bool} {f : ℕ → Option α} {N k : ℕ}

/-- `j` lies on the side of `k` that is searched, `k` included. -/
def Side (b : Bool) (j k : ℕ) : Prop := if b then j ≤ k else k ≤ j

/-- `j` lies strictly on that side. -/
def Beyond (b : Bool) (j k : ℕ) : Prop := if b then j < k else k < j

theorem side_refl (b : Bool) (k : ℕ) : Side b k k := by
  cases b <;> simp [Side]

variable {j : ℕ}

theorem side_iff : Side b j k ↔ j = k ∨ Beyond b j k := by
  cases b <;> simp only [Side, Beyond, Bool.false_eq_true, ite_true, ite_false] <;> omega

theorem side_or_beyond (b : Bool) (j k : ℕ) : Side b j k ∨ Beyond b k j := by
  cases b <;> simp only [Side, Beyond, Bool.false_eq_true, ite_true, ite_false] <;> omega

theorem not_side (h : Beyond b k j) : ¬ Side b j k := by
  cases b <;> simp only [Side, Beyond, Bool.false_eq_true, ite_true, ite_false] at * <;> omega

/-- The end of `[0, M)` from which a search in this direction sees everything. -/
def far (b : Bool) (M : ℕ) : ℕ := if b then M - 1 else 0

theorem side_far {M e : ℕ} (he : e < M) : Side b e (far b M) := by
  cases b <;> simp only [Side, far, Bool.false_eq_true, ite_true, ite_false] <;> omega

inductive Nearest (b : Bool) (f : ℕ → Option α) (N k : ℕ) : Option α → Prop
  | found {j : ℕ} {x : α} (lt : j < N) (side : Side b j k) (here : f j = some x)
      (nearest : ∀ j' < N, Side b j' k → f j' ≠ none → Side b j' j) : Nearest b f N k (some x)
  | none (empty : ∀ j < N, Side b j k → f j = none) : Nearest b f N k none

variable {r : Option α}

theorem Nearest.ne_none (h : Nearest b f N k r) (hj : j < N) (hs : Side b j k)
    (hf : f j ≠ Option.none) : r ≠ Option.none := by
  cases h with
  | found => simp
  | none he => exact absurd (he j hj hs) hf

theorem Nearest.map {β : Type*} (h : Nearest b f N k r) (g : α → β) :
    Nearest b (fun j => (f j).map g) N k (r.map g) := by
  cases h with
  | found lt side here nearest =>
    exact .found lt side (by rw [here, Option.map_some]) fun j' hj hs hg =>
      nearest j' hj hs fun h0 => hg (by rw [h0, Option.map_none])
  | none he => exact .none fun j hj hs => by rw [he j hj hs, Option.map_none]

/-- Only the keys below the bound matter. -/
theorem Nearest.congr {g : ℕ → Option α} (h : Nearest b f N k r) (hfg : ∀ j < N, g j = f j) :
    Nearest b g N k r := by
  cases h with
  | found lt side here nearest =>
    exact .found lt side ((hfg _ lt).trans here) fun j' hj hs hg => nearest j' hj hs (hfg j' hj ▸ hg)
  | none he => exact .none fun j hj hs => (hfg j hj).trans (he j hj hs)

section Digits

variable {B M d₀ e₀ : ℕ}

variable {d : ℕ}

theorem digit_lt {e : ℕ} (hd : d < B) (he : e < M) : d * M + e < B * M := by
  have : (d + 1) * M ≤ B * M := Nat.mul_le_mul_right M hd
  linarith [Nat.succ_mul d M]

theorem digit_lt_of_lt {d' e e' : ℕ} (hd : d < d') (he : e < M) : d * M + e < d' * M + e' :=
  lt_of_lt_of_le (digit_lt hd he) (Nat.le_add_right _ _)

/-- The sides of two keys: decided by the digits, then by the rests. -/
theorem side_digit {e : ℕ} (he : e < M) (he₀ : e₀ < M) :
    Side b (d * M + e) (d₀ * M + e₀) ↔ Beyond b d d₀ ∨ d = d₀ ∧ Side b e e₀ := by
  rcases lt_trichotomy d d₀ with h | rfl | h
  · have := @digit_lt_of_lt M d d₀ e e₀ h he
    cases b <;> simp only [Side, Beyond, Bool.false_eq_true, ite_true, ite_false] <;> omega
  · cases b <;> simp only [Side, Beyond, Bool.false_eq_true, ite_true, ite_false, lt_irrefl,
        false_or, true_and] <;>
      omega
  · have := @digit_lt_of_lt M d₀ d e₀ e h he₀
    cases b <;> simp only [Side, Beyond, Bool.false_eq_true, ite_true, ite_false] <;> omega

theorem exists_digit (hM : 0 < M) (hj : j < B * M) : ∃ d e, d < B ∧ e < M ∧ j = d * M + e :=
  ⟨j / M, j % M, Nat.div_lt_of_lt_mul (by rwa [Nat.mul_comm] at hj), Nat.mod_lt _ hM,
    (Nat.div_add_mod' j M).symm⟩

variable {x : α}

/-- The nearest key has the digit of the key searched for. -/
theorem Nearest.of_block (hd : d₀ < B) (he₀ : e₀ < M)
    (h : Nearest b (fun e => f (d₀ * M + e)) M e₀ (some x)) :
    Nearest b f (B * M) (d₀ * M + e₀) (some x) := by
  cases h with
  | found lt side here nearest =>
    refine .found (digit_lt hd lt) ((side_digit lt he₀).mpr (.inr ⟨rfl, side⟩)) here fun j hj hs hf => ?_
    obtain ⟨d, e, -, he, rfl⟩ := exists_digit (by omega) hj
    rw [side_digit he he₀] at hs
    refine (side_digit he lt).mpr (hs.imp_right fun ⟨hdd, hse⟩ => ?_)
    subst hdd
    exact ⟨rfl, nearest e he hse hf⟩

/-- No key with that digit; the nearest one has the next digit that has keys. -/
theorem Nearest.of_next {d₁ : ℕ} (hd₁ : d₁ < B) (he₀ : e₀ < M)
    (hnone : Nearest b (fun e => f (d₀ * M + e)) M e₀ Option.none) (hbeyond : Beyond b d₁ d₀)
    (hgap : ∀ d < B, Beyond b d d₀ → Beyond b d₁ d → ∀ e < M, f (d * M + e) = Option.none)
    (h : Nearest b (fun e => f (d₁ * M + e)) M (far b M) (some x)) :
    Nearest b f (B * M) (d₀ * M + e₀) (some x) := by
  cases hnone with
  | none hempty =>
    cases h with
    | found lt side here nearest =>
      refine .found (digit_lt hd₁ lt) ((side_digit lt he₀).mpr (.inl hbeyond)) here fun j hj hs hf => ?_
      obtain ⟨d, e, hd, he, rfl⟩ := exists_digit (by omega) hj
      rw [side_digit he he₀] at hs
      rw [side_digit he lt]
      rcases hs with hs | ⟨rfl, hs⟩
      · rcases side_or_beyond b d d₁ with hside | hgap'
        · rcases side_iff.mp hside with rfl | hb
          · exact .inr ⟨rfl, nearest e he (side_far he) hf⟩
          · exact .inl hb
        · exact absurd (hgap d hd hs hgap' e he) hf
      · exact absurd (hempty e he hs) hf

theorem Nearest.none_of (hM : 0 < M) (he₀ : e₀ < M)
    (hnone : Nearest b (fun e => f (d₀ * M + e)) M e₀ Option.none)
    (hgap : ∀ d < B, Beyond b d d₀ → ∀ e < M, f (d * M + e) = Option.none) :
    Nearest b f (B * M) (d₀ * M + e₀) Option.none := by
  cases hnone with
  | none hempty =>
    refine .none fun j hj hs => ?_
    obtain ⟨d, e, hd, he, rfl⟩ := exists_digit hM hj
    rcases (side_digit he he₀).mp hs with hb | ⟨rfl, hse⟩
    · exact hgap d hd hb e he
    · exact hempty e he hse

end Digits

end GheithOS.Lib
