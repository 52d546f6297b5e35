import Mathlib.Data.List.Nodup
import Mathlib.Logic.Function.Iterate

/-!
# GheithOS.Lib.Spine — singly linked lists with an end

`Spine next p L`: starting at `p` and following `next`, the nodes visited are `L`.  A list that is
also held at its last node grows there (`Spine.append`) and shrinks at its first; one that is kept
in order grows in the middle (`Spine.splice`).  Several lists may share the field `next`, as long as
a node stands in one of them: writing to a node outside changes nothing (`Spine.congr`).
-/

namespace GheithOS.Lib

variable {ι : Type} {next next' : ι → Option ι}

/-- The nodes from `p` on are `L`. -/
def Spine (next : ι → Option ι) : Option ι → List ι → Prop
  | p, [] => p = none
  | p, x :: L => p = some x ∧ Spine next (next x) L

namespace Spine

theorem eq_nil_iff {p : Option ι} : ∀ {L : List ι}, Spine next p L → (L = [] ↔ p = none)
  | [], h => iff_of_true rfl h
  | x :: L, h => by simp [h.1]

theorem eq_head : ∀ {p : Option ι} {L : List ι}, Spine next p L → p = L.head?
  | _, [], h => h
  | _, _ :: _, h => h.1

theorem rest {l : ι} :
    ∀ {p : Option ι} {L₁ L₂ : List ι}, Spine next p (L₁ ++ l :: L₂) → Spine next (next l) L₂
  | _, [], _, h => h.2
  | _, _ :: _, _, h => rest h.2

theorem congr :
    ∀ {p : Option ι} {L : List ι}, (∀ x ∈ L, next' x = next x) → Spine next p L → Spine next' p L
  | _, [], _, h => h
  | _, x :: L, hc, ⟨hp, h⟩ => by
    refine ⟨hp, ?_⟩
    rw [hc x List.mem_cons_self]
    exact congr (fun y hy => hc y (List.mem_cons_of_mem x hy)) h

/-- **Another list at the end**: the last node is sent to its first one. -/
theorem append {l : ι} {B : List ι} :
    ∀ {p : Option ι} {L : List ι}, Spine next p (L ++ [l]) → Spine next' (next' l) B →
    (∀ x ∈ L, next' x = next x) → Spine next' p (L ++ [l] ++ B)
  | _, [], ⟨hp, _⟩, hB, _ => ⟨hp, hB⟩
  | _, x :: L, ⟨hp, h⟩, hB, hc => by
    refine ⟨hp, ?_⟩
    rw [hc x List.mem_cons_self]
    exact append h hB fun y hy => hc y (List.mem_cons_of_mem x hy)

theorem mem_iff {t : ι} : ∀ {p : Option ι} {L : List ι}, Spine next p L →
    (t ∈ L ↔ ∃ n, (fun p => p.bind next)^[n] p = some t)
  | _, [], h => by
    have hstay : ∀ n, (fun p : Option ι => p.bind next)^[n] none = none := fun n =>
      Function.iterate_fixed rfl n
    rw [show _ = none from h]
    simp [hstay]
  | _, x :: L, ⟨hp, h⟩ => by
    rw [hp, List.mem_cons, mem_iff h]
    constructor
    · rintro (rfl | ⟨n, hn⟩)
      · exact ⟨0, rfl⟩
      · exact ⟨n + 1, hn⟩
    · rintro ⟨_ | n, hn⟩
      · exact .inl (Option.some.inj hn).symm
      · exact .inr ⟨n, hn⟩

/-- **A node in the middle**: the node `l` is sent to `t`, and `t` to where `l` led. -/
theorem splice {l t : ι} :
    ∀ {p : Option ι} {L₁ L₂ : List ι}, Spine next p (L₁ ++ l :: L₂) → next' l = some t →
    next' t = next l → (∀ x ∈ L₁ ++ L₂, next' x = next x) → Spine next' p (L₁ ++ l :: t :: L₂)
  | _, [], L₂, ⟨hp, h⟩, hl, ht, hc => by
    refine ⟨hp, hl, ?_⟩
    rw [ht]
    exact congr hc h
  | _, x :: L₁, L₂, ⟨hp, h⟩, hl, ht, hc => by
    refine ⟨hp, ?_⟩
    rw [hc x List.mem_cons_self]
    exact splice h hl ht fun y hy => hc y (List.mem_cons_of_mem x hy)

end Spine

end GheithOS.Lib
