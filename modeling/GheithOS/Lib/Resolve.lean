import Mathlib.Data.Option.Basic
import Mathlib.Order.Lattice
import Mathlib.Order.Nat

/-!
# GheithOS.Lib.Resolve — names in a graph with links

A graph of nodes: directories, whose children have names; links, which stand for a list of names to
be resolved from some node; and others.  A list of names is walked from a node, one name after the
other; some names are skipped, and a link is replaced by what its own names lead to.  Links may lead
to links and to themselves.

`Walks n ks m d` is the unbounded meaning: the names `ks` lead from `n` to `m`, and links are nested
`d` deep on the way.  `resolve depth` is the computation with a bound on the nesting;
`resolve_eq_some_iff` relates the two.
-/

namespace GheithOS.Lib

/-- Directories, links, and where the names of a link begin.  A name can only be looked up in a
directory. -/
structure LinkGraph (N K : Type) where
  isDir : N → Bool
  isLink : N → Bool
  skips : K → Bool
  child : N → K → Option N
  target : N → N → Option (N × List K)
  isLink_of_isDir : ∀ n, isDir n = true → isLink n = false
  target_ne_nil : ∀ n x p, target n x = some p → p.2 ≠ []

namespace LinkGraph

variable {N K : Type} (G : LinkGraph N K)

/-- The names lead from the first node to the second one, through links nested so deep. -/
inductive Walks : N → List K → N → ℕ → Prop
  | done (n : N) : Walks n [] n 0
  | skip {n m : N} {k : K} {ks : List K} {d : ℕ} : G.isDir n = true → G.skips k = true → Walks n ks m d →
      Walks n (k :: ks) m d
  | enter {n x m : N} {k : K} {ks : List K} {d : ℕ} : G.isDir n = true → G.skips k = false →
      G.child n k = some x →
      G.isLink x = false → Walks x ks m d → Walks n (k :: ks) m d
  | follow {n x y m : N} {k : K} {ks : List K} {p : N × List K} {d₁ d₂ : ℕ} : G.isDir n = true →
      G.skips k = false →
      G.child n k = some x → G.isLink x = true → G.target n x = some p → Walks p.1 p.2 y d₁ →
      Walks y ks m d₂ → Walks n (k :: ks) m (max (d₁ + 1) d₂)

/-- One name, with a function that follows the links of a directory. -/
def step (follow : N → N → Option N) (n : N) (k : K) : Option N :=
  if G.isDir n then
    if G.skips k then some n
    else (G.child n k).bind fun x => if G.isLink x then follow n x else some x
  else none

/-- All names. -/
def walk (follow : N → N → Option N) : N → List K → Option N
  | n, [] => some n
  | n, k :: ks => (G.step follow n k).bind fun x => walk follow x ks

/-- The names lead to a node through links that are nested less than `depth` deep. -/
def resolve : ℕ → N → List K → Option N
  | 0, _, _ => none
  | depth + 1, n, ks => G.walk (fun n x => (G.target n x).bind fun p => resolve depth p.1 p.2) n ks

variable {G}

theorem walk_append (follow : N → N → Option N) (n : N) (ks ls : List K) :
    G.walk follow n (ks ++ ls) = (G.walk follow n ks).bind fun m => G.walk follow m ls := by
  induction ks generalizing n with
  | nil => rfl
  | cons k ks ih =>
    rw [List.cons_append, walk, walk, Option.bind_assoc]
    congr 1
    funext x
    exact ih x

theorem resolve_append (depth : ℕ) (n : N) (ks : List K) {ls : List K} :
    G.resolve depth n (ks ++ ls) = (G.resolve depth n ks).bind fun m => G.resolve depth m ls := by
  cases depth with
  | zero => rfl
  | succ depth => exact walk_append _ n ks ls

variable {n : N}

theorem step_eq_some_iff {follow : N → N → Option N} {y : N} {k : K} :
    G.step follow n k = some y ↔ G.isDir n = true ∧
      ((G.skips k = true ∧ n = y) ∨
        (G.skips k = false ∧ ∃ x, G.child n k = some x ∧
          ((G.isLink x = false ∧ x = y) ∨ (G.isLink x = true ∧ follow n x = some y)))) := by
  unfold step
  cases G.isDir n with
  | false => simp
  | true =>
    cases G.skips k with
    | true => simp
    | false =>
      cases hc : G.child n k with
      | none => simp
      | some x => cases hl : G.isLink x <;> simp [hl]

variable {m : N} {ks : List K}

theorem walk_not_link {follow : N → N → Option N}
    (hfollow : ∀ n x y, follow n x = some y → G.isLink y = false)
    (hn : G.isLink n = false ∨ ks ≠ []) (h : G.walk follow n ks = some m) : G.isLink m = false := by
  induction ks generalizing n with
  | nil =>
    obtain rfl := Option.some.inj h
    exact hn.resolve_right fun h => h rfl
  | cons k ks ih =>
    obtain ⟨y, hy, hrest⟩ := Option.bind_eq_some_iff.mp h
    refine ih (.inl ?_) hrest
    obtain ⟨hdir, ⟨-, rfl⟩ | ⟨-, x, -, ⟨hx, rfl⟩ | ⟨-, hlink⟩⟩⟩ := step_eq_some_iff.mp hy
    · exact G.isLink_of_isDir n hdir
    · exact hx
    · exact hfollow n x y hlink

variable {depth : ℕ}

theorem resolve_not_link (hks : ks ≠ []) (h : G.resolve depth n ks = some m) :
    G.isLink m = false := by
  induction depth generalizing n m ks with
  | zero => cases h
  | succ depth ih =>
    refine walk_not_link ?_ (.inr hks) h
    intro n x y hy
    obtain ⟨p, hp, hrest⟩ := Option.bind_eq_some_iff.mp hy
    exact ih (G.target_ne_nil n x p hp) hrest

/-- **Soundness** of a walk whose links are followed soundly. -/
theorem walks_of_walk
    (hresolve : ∀ n ks m, G.resolve depth n ks = some m → ∃ d < depth, G.Walks n ks m d)
    (h : G.walk (fun n x => (G.target n x).bind fun p => G.resolve depth p.1 p.2) n ks = some m) :
    ∃ d < depth + 1, G.Walks n ks m d := by
  induction ks generalizing n with
  | nil =>
    obtain rfl := Option.some.inj h
    exact ⟨0, Nat.succ_pos depth, .done n⟩
  | cons k ks ih =>
    obtain ⟨y, hy, hrest⟩ := Option.bind_eq_some_iff.mp h
    obtain ⟨d, hd, hwalks⟩ := ih hrest
    obtain ⟨hdir, ⟨hskip, rfl⟩ | ⟨hskip, x, hchild, ⟨hx, rfl⟩ | ⟨hx, hlink⟩⟩⟩ := step_eq_some_iff.mp hy
    · exact ⟨d, hd, .skip hdir hskip hwalks⟩
    · exact ⟨d, hd, .enter hdir hskip hchild hx hwalks⟩
    · obtain ⟨p, hp, hlink⟩ := Option.bind_eq_some_iff.mp hlink
      obtain ⟨d₁, hd₁, hwalks₁⟩ := hresolve p.1 p.2 y hlink
      exact ⟨max (d₁ + 1) d, by omega, .follow hdir hskip hchild hx hp hwalks₁ hwalks⟩

theorem walks_of_resolve (h : G.resolve depth n ks = some m) : ∃ d < depth, G.Walks n ks m d := by
  induction depth generalizing n m ks with
  | zero => cases h
  | succ depth ih => exact walks_of_walk (fun n ks m => ih) h

/-- **Completeness**: a depth above the nesting is enough. -/
theorem Walks.resolve_eq {d : ℕ} (h : G.Walks n ks m d) :
    ∀ depth, d < depth → G.resolve depth n ks = some m := by
  induction h with
  | done n =>
    rintro (_ | depth) hd
    · cases hd
    · rfl
  | skip hdir hskip _ ih =>
    rintro (_ | depth) hd
    · cases hd
    · exact Option.bind_eq_some_iff.mpr ⟨_, step_eq_some_iff.mpr ⟨hdir, .inl ⟨hskip, rfl⟩⟩, ih _ hd⟩
  | enter hdir hskip hchild hx _ ih =>
    rintro (_ | depth) hd
    · cases hd
    · exact Option.bind_eq_some_iff.mpr
        ⟨_, step_eq_some_iff.mpr ⟨hdir, .inr ⟨hskip, _, hchild, .inl ⟨hx, rfl⟩⟩⟩, ih _ hd⟩
  | follow hdir hskip hchild hx hp _ _ ih₁ ih₂ =>
    rintro (_ | depth) hd
    · cases hd
    · refine Option.bind_eq_some_iff.mpr
        ⟨_, step_eq_some_iff.mpr ⟨hdir, .inr ⟨hskip, _, hchild, .inr ⟨hx, ?_⟩⟩⟩, ih₂ (depth + 1) (by omega)⟩
      exact Option.bind_eq_some_iff.mpr ⟨_, hp, ih₁ depth (by omega)⟩

/-- **Bounded and unbounded resolution.** -/
theorem resolve_eq_some_iff :
    G.resolve depth n ks = some m ↔ ∃ d < depth, G.Walks n ks m d :=
  ⟨walks_of_resolve, fun ⟨_, hd, h⟩ => h.resolve_eq depth hd⟩

end LinkGraph

end GheithOS.Lib
