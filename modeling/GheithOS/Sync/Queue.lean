import GheithOS.Lib.Spine

/-!
# GheithOS.Sync.Queue — `queue.h`

The queue of events: `first` and `last` in the queue, `next` in the events.  The field `next` is
shared by all queues of the kernel, so it is a part of the state beside them.
`Queue.Holds next q L` says that the queue is the list `L`; `add` appends to it and `remove` takes
its head.
-/

namespace GheithOS.Sync

open Lib Function

structure Queue where
  first : Option ℕ
  last : Option ℕ
  deriving DecidableEq

/-- The field `next` of every event. -/
abbrev Links := ℕ → Option ℕ

def Queue.empty : Queue := ⟨none, none⟩

/-- `add`; `last` is set whenever `first` is. -/
def Queue.add (q : Queue) (next : Links) (t : ℕ) : Queue × Links :=
  let next := update next t none
  match q.first with
  | none => (⟨some t, some t⟩, next)
  | some first =>
    match q.last with
    | some last => (⟨some first, some t⟩, update next last (some t))
    | none => (⟨some first, some t⟩, next)

def Queue.remove (q : Queue) (next : Links) : Option ℕ × Queue :=
  match q.first with
  | none => (none, q)
  | some it =>
    match next it with
    | none => (some it, ⟨none, none⟩)
    | some first => (some it, ⟨some first, q.last⟩)

/-- The queue holds the events `L`, the oldest one first. -/
structure Queue.Holds (next : Links) (q : Queue) (L : List ℕ) : Prop where
  spine : Spine next q.first L
  last : q.last = L.getLast?
  nodup : L.Nodup

namespace Queue

variable {q : Queue} {next next' : Links} {L : List ℕ} {t : ℕ}

theorem holds_empty (next : Links) : Holds next empty [] := ⟨rfl, rfl, List.nodup_nil⟩

theorem Holds.congr (h : Holds next q L) (hc : ∀ x ∈ L, next' x = next x) : Holds next' q L :=
  ⟨h.spine.congr hc, h.last, h.nodup⟩

theorem Holds.add (h : Holds next q L) (ht : t ∉ L) :
    Holds (q.add next t).2 (q.add next t).1 (L ++ [t]) := by
  rcases List.eq_nil_or_concat L with rfl | ⟨L, l, rfl⟩
  · have hf : q.first = none := h.spine
    unfold Queue.add
    rw [hf]
    exact ⟨⟨rfl, update_self _ _ _⟩, rfl, List.nodup_singleton t⟩
  · have hl : q.last = some l := by simpa using h.last
    obtain ⟨f, hf⟩ : ∃ f, q.first = some f := by
      rw [← Option.ne_none_iff_exists']
      intro hn
      have := h.spine.eq_nil_iff.mpr hn
      simp at this
    have hne : t ≠ l := fun he => ht (by simp [he])
    unfold Queue.add
    rw [hf, hl]
    dsimp only
    have hnd := h.nodup
    rw [List.concat_eq_append] at hnd ht ⊢
    refine ⟨?_, by simp, ?_⟩
    · have hs := h.spine
      rw [List.concat_eq_append, hf] at hs
      refine hs.append ?_ fun x hx => ?_
      · rw [update_self]
        refine ⟨rfl, ?_⟩
        rw [update_of_ne hne, update_self]
        rfl
      · have hxl : x ≠ l := by
          rintro rfl
          rw [List.nodup_append] at hnd
          exact hnd.2.2 x hx x (by simp) rfl
        have hxt : x ≠ t := fun he => ht (by simp [← he, hx])
        rw [update_of_ne hxl, update_of_ne hxt]
    · rw [List.nodup_append]
      exact ⟨hnd, List.nodup_singleton t, fun a ha b hb hab => ht (by simp_all)⟩

/-- Adding to a queue writes to the new event and to the last one. -/
theorem Holds.add_frame (h : Holds next q L) {x : ℕ} (hx : x ∉ L) (hxt : x ≠ t) :
    (q.add next t).2 x = next x := by
  unfold Queue.add
  dsimp only
  split
  · exact update_of_ne hxt _ _
  · split
    · next l hl =>
      have hxl : x ≠ l := by
        rintro rfl
        rw [h.last] at hl
        exact hx (List.mem_of_getLast? hl)
      dsimp only
      rw [update_of_ne hxl, update_of_ne hxt]
    · exact update_of_ne hxt _ _

theorem Holds.remove_nil (h : Holds next q []) : q.remove next = (none, q) := by
  have hf : q.first = none := h.spine
  unfold Queue.remove
  rw [hf]

theorem Holds.remove_cons (h : Holds next q (t :: L)) :
    (q.remove next).1 = some t ∧ Holds next (q.remove next).2 L := by
  obtain ⟨hf, hs⟩ := h.spine
  have hnd := (List.nodup_cons.mp h.nodup).2
  unfold Queue.remove
  rw [hf]
  dsimp only
  cases L with
  | nil =>
    have hn : next t = none := hs
    rw [hn]
    exact ⟨rfl, rfl, rfl, hnd⟩
  | cons y L =>
    have hn : next t = some y := hs.1
    rw [hn]
    refine ⟨rfl, ⟨rfl, hs.2⟩, ?_, hnd⟩
    rw [h.last, List.getLast?_cons_cons]

end Queue

end GheithOS.Sync
