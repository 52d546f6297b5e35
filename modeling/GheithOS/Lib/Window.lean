import Mathlib.Data.List.Range

/-!
# GheithOS.Lib.Window — the part of a sequence that a read returns

`window f a n` is the list of the `n` values of `f` from `a` on.  Reads in parts put windows
together (`window_append`); a part of a block is a window of a window (`drop_window`,
`take_window`).
-/

namespace GheithOS.Lib

variable {α : Type} {f g : ℕ → α}

def window (f : ℕ → α) (a n : ℕ) : List α := (List.range' a n).map f

@[simp] theorem length_window (f : ℕ → α) (a n : ℕ) : (window f a n).length = n := by
  rw [window, List.length_map, List.length_range']

@[simp] theorem window_zero (f : ℕ → α) (a : ℕ) : window f a 0 = [] := rfl

theorem getElem_window (f : ℕ → α) (a n : ℕ) {j : ℕ} (h : j < n) :
    (window f a n)[j]? = some (f (a + j)) := by
  simp [window, h]

theorem getD_window (f : ℕ → α) (a n j : ℕ) (z : α) :
    (window f a n).getD j z = if j < n then f (a + j) else z := by
  rw [List.getD_eq_getElem?_getD]
  split_ifs with h
  · rw [getElem_window f a n h, Option.getD_some]
  · rw [List.getElem?_eq_none (by simpa using h), Option.getD_none]

theorem mem_window {a n : ℕ} {x : α} : x ∈ window f a n ↔ ∃ j < n, f (a + j) = x := by
  rw [List.mem_iff_getElem?]
  refine exists_congr fun j => ?_
  by_cases hj : j < n
  · rw [getElem_window f a n hj, and_iff_right hj, Option.some.injEq]
  · rw [List.getElem?_eq_none (by simpa using hj)]
    exact iff_of_false (by simp) fun h => hj h.1

theorem window_append (f : ℕ → α) (a m n : ℕ) :
    window f a m ++ window f (a + m) n = window f a (m + n) := by
  rw [window, window, window, ← List.map_append, List.range'_append_1]

theorem take_window (f : ℕ → α) (a : ℕ) {k n : ℕ} (h : k ≤ n) : (window f a n).take k = window f a k := by
  rw [window, window, ← List.map_take, List.take_range'_of_length_ge h]

theorem drop_window (f : ℕ → α) (a k n : ℕ) : (window f a n).drop k = window f (a + k) (n - k) := by
  rw [window, window, ← List.map_drop, List.drop_range']
  simp

theorem window_congr {a n b : ℕ} (h : ∀ j < n, f (a + j) = g (b + j)) : window f a n = window g b n := by
  apply List.ext_getElem?
  intro j
  by_cases hj : j < n
  · rw [getElem_window f a n hj, getElem_window g b n hj, h j hj]
  · rw [List.getElem?_eq_none (by simpa using hj), List.getElem?_eq_none (by simpa using hj)]

end GheithOS.Lib
