import GheithOS.Input.Boundary
import GheithOS.Lib.Simulation

/-!
# GheithOS.Input.CircularBuffer — the ring buffer is a queue of `size - 1` elements

`circular_buffer.h` with its results, on indices of 32 bits.  As long as the indices are below
`size`, and `size` is below `2 ^ 32`, no addition wraps around, and the operations are those of
`CircularBuffer.add` and `CircularBuffer.remove` (`addWord_eq`, `removeWord_eq`).  A queue that
holds at most `size - 1` elements simulates it, call by call.
-/

namespace GheithOS.Input

open Lib

namespace CircularBuffer

variable {α : Type} {b : CircularBuffer α} {el zero x : α} {L : List α} {size : ℕ}

/-! ### `circular_buffer.h` -/

/-- The constructor; the elements of `new T[size]` are whatever they are. -/
def construct (size : ℕ) (ar : ℕ → α) : CircularBuffer α := ⟨size, 0, 0, ar⟩

/-- `add`, with its result. -/
def addWord (b : CircularBuffer α) (el : α) : Bool × CircularBuffer α :=
  if (b.head + 1) % 2 ^ 32 % b.size = b.tail then (false, b)
  else
    let ar := Function.update b.ar b.head el
    let head := (b.head + 1) % 2 ^ 32
    let head := head % b.size
    (true, { b with ar := ar, head := head })

/-- `remove`; `zero` is `(T)0`. -/
def removeWord (zero : α) (b : CircularBuffer α) : α × CircularBuffer α :=
  if b.head = b.tail then (zero, b)
  else
    let originalTail := b.tail
    (b.ar originalTail, { b with tail := (b.tail + 1) % 2 ^ 32 % b.size })

theorem addWord_eq (h : b.Ok) (hsize : b.size < 2 ^ 32) (el : α) :
    b.addWord el = (!decide b.Full, b.add el) := by
  have hhead := h.head_lt
  have hword : (b.head + 1) % 2 ^ 32 = b.head + 1 := Nat.mod_eq_of_lt (by omega)
  unfold addWord CircularBuffer.add
  rw [hword]
  by_cases hfull : b.Full
  · have hfull' : (b.head + 1) % b.size = b.tail := hfull
    rw [if_pos hfull', if_pos hfull', decide_eq_true hfull]
    rfl
  · have hfull' : ¬ (b.head + 1) % b.size = b.tail := hfull
    rw [if_neg hfull', if_neg hfull', decide_eq_false hfull]
    rfl

theorem removeWord_eq (h : b.Ok) (hsize : b.size < 2 ^ 32) (zero : α) :
    b.removeWord zero = b.remove zero := by
  have htail := h.tail_lt
  have hword : (b.tail + 1) % 2 ^ 32 = b.tail + 1 := Nat.mod_eq_of_lt (by omega)
  unfold removeWord CircularBuffer.remove
  rw [hword]

/-! ### How much is stored -/

theorem length_contents (b : CircularBuffer α) :
    b.contents.length = (b.head + b.size - b.tail) % b.size := by
  rw [contents, List.length_map, List.length_range]

theorem length_contents_le (h : b.Ok) : b.contents.length ≤ b.size - 1 := by
  have hlt := Nat.mod_lt (b.head + b.size - b.tail) (lt_of_le_of_lt (Nat.zero_le _) h.head_lt)
  rw [length_contents]
  omega

theorem full_iff (h : b.Ok) : b.Full ↔ b.contents.length = b.size - 1 := by
  have hhead := h.head_lt
  have htail := h.tail_lt
  rw [length_contents, Full, succ_mod hhead]
  rcases h.ahead with ⟨ha, he⟩ | ⟨ha, he⟩ <;> rw [he] <;> split <;> omega

theorem remove_eq_self_iff (h : b.Ok) : (b.remove zero).2 = b ↔ b.contents = [] := by
  constructor
  · intro hsame
    match hc : b.contents with
    | [] => rfl
    | x :: L =>
      have hrest := (remove_eq h zero hc).2
      rw [hsame, hc] at hrest
      exact absurd (congrArg List.length hrest) (by simp)
  · intro hc
    rw [remove_nil h zero hc]

theorem add_size (b : CircularBuffer α) (el : α) : (b.add el).size = b.size := by
  unfold CircularBuffer.add
  split <;> rfl

theorem remove_size (b : CircularBuffer α) (zero : α) : (b.remove zero).2.size = b.size := by
  unfold CircularBuffer.remove
  split <;> rfl

/-! ### The queue -/

inductive Call (α : Type)
  | add (el : α)
  | remove

inductive Answer (α : Type)
  | added (stored : Bool)
  | removed (el : α)

/-- A call to the buffer. -/
def exec (zero : α) : Call α → CircularBuffer α → Answer α × CircularBuffer α
  | .add el, b => (.added (b.addWord el).1, (b.addWord el).2)
  | .remove, b => (.removed (b.removeWord zero).1, (b.removeWord zero).2)

/-- **A queue of a given capacity**: it refuses an element when it is full, and gives `zero` when it
is empty. -/
def fifo (capacity : ℕ) (zero : α) : Call α → List α → Answer α × List α
  | .add el, L => if L.length < capacity then (.added true, L ++ [el]) else (.added false, L)
  | .remove, [] => (.removed zero, [])
  | .remove, x :: L => (.removed x, L)

/-- The buffer of `size` places stores the elements `L`. -/
structure Stores (size : ℕ) (b : CircularBuffer α) (L : List α) : Prop extends Ok b where
  size_eq : b.size = size
  contents_eq : b.contents = L

theorem stores_construct (hsize : 1 ≤ size) (ar : ℕ → α) : Stores size (construct size ar) [] where
  head_lt := hsize
  tail_lt := hsize
  size_eq := rfl
  contents_eq := by
    have hempty : (0 + size - 0) % size = 0 := by rw [Nat.zero_add, Nat.sub_zero, Nat.mod_self]
    show (List.range ((0 + size - 0) % size)).map _ = []
    rw [hempty, List.range_zero, List.map_nil]

theorem Stores.add (h : Stores size b L) (hsize : size < 2 ^ 32) (el : α) :
    (b.addWord el).1 = decide (L.length < size - 1) ∧
      Stores size (b.addWord el).2 (if L.length < size - 1 then L ++ [el] else L) := by
  have hb : b.size < 2 ^ 32 := h.size_eq ▸ hsize
  have hle := length_contents_le h.toOk
  have hiff := full_iff h.toOk
  rw [h.contents_eq, h.size_eq] at hle hiff
  rw [addWord_eq h.toOk hb]
  refine ⟨?_, (h.toOk.add el), (add_size b el).trans h.size_eq, ?_⟩
  · rw [← decide_not]
    refine decide_eq_decide.mpr ⟨fun hf => ?_, fun hlt hf => ?_⟩
    · have hlen := mt hiff.mpr hf
      omega
    · have hlen := hiff.mp hf
      omega
  · by_cases hfull : b.Full
    · have hlen := hiff.mp hfull
      rw [if_neg (by omega), add_of_full hfull, h.contents_eq]
    · have hlen := mt hiff.mpr hfull
      rw [if_pos (by omega), contents_add_of_not_full h.toOk hfull, h.contents_eq]

theorem Stores.remove_nil (h : Stores size b []) (zero : α) : b.removeWord zero = (zero, b) :=
  if_pos ((contents_eq_nil_iff h.toOk).mp h.contents_eq)

theorem Stores.remove_cons (h : Stores size b (x :: L)) (hsize : size < 2 ^ 32) (zero : α) :
    (b.removeWord zero).1 = x ∧ Stores size (b.removeWord zero).2 L := by
  have hb : b.size < 2 ^ 32 := h.size_eq ▸ hsize
  obtain ⟨hx, hL⟩ := remove_eq h.toOk zero h.contents_eq
  rw [removeWord_eq h.toOk hb]
  exact ⟨hx, h.toOk.remove zero, (remove_size b zero).trans h.size_eq, hL⟩

/-- **Call by call**, the buffer does what the queue does. -/
theorem fifo_simulates (hsize : size < 2 ^ 32) (zero : α) :
    Simulates (Stores size) Eq (fun _ _ => True) (exec zero) (fifo (size - 1) zero) := by
  constructor
  · rintro (el | _) b L h -
    · show Answer.added (b.addWord el).1 = _
      rw [(h.add hsize el).1]
      by_cases hlt : L.length < size - 1 <;> simp [fifo, hlt]
    · cases L with
      | nil => exact congrArg (fun r => Answer.removed r.1) (h.remove_nil zero)
      | cons x L => exact congrArg Answer.removed (h.remove_cons hsize zero).1
  · rintro (el | _) b L h -
    · have hadd := (h.add hsize el).2
      show Stores size (b.addWord el).2 _
      by_cases hlt : L.length < size - 1
      · rw [if_pos hlt] at hadd
        simpa [fifo, hlt] using hadd
      · rw [if_neg hlt] at hadd
        simpa [fifo, hlt] using hadd
    · cases L with
      | nil =>
        show Stores size (b.removeWord zero).2 []
        rw [h.remove_nil zero]
        exact h
      | cons x L => exact (h.remove_cons hsize zero).2

/-- **The ring buffer.**  After every sequence of calls: it has answered as a queue of capacity
`size - 1` and stores what the queue holds; the indices are below `size`; `add` returns true just if
fewer than `size - 1` elements are stored, and changes nothing if not; and `remove` changes nothing
just if no element is stored, and then it returns the zero value. -/
theorem circular_buffer_fifo (hsize : 1 ≤ size) (hword : size < 2 ^ 32 - 1) (ar : ℕ → α) (zero : α)
    (calls : List (Call α)) {answers : List (Answer α)}
    (hrun : runs (exec zero) (construct size ar) calls = (answers, b)) :
    answers = (runs (fifo (size - 1) zero) [] calls).1 ∧
    b.contents = (runs (fifo (size - 1) zero) [] calls).2 ∧
    b.head < size ∧ b.tail < size ∧ b.contents.length ≤ size - 1 ∧
    (∀ el, ((b.addWord el).1 = true ↔ b.contents.length < size - 1) ∧
      ((b.addWord el).1 = false → (b.addWord el).2 = b)) ∧
    ((b.removeWord zero).2 = b ↔ b.contents = []) ∧ (b.contents = [] → (b.removeWord zero).1 = zero) := by
  have hsize32 : size < 2 ^ 32 := by omega
  obtain ⟨hanswers, h⟩ := (fifo_simulates hsize32 zero).runs calls (stores_construct hsize ar)
    (legal_of_forall (fun _ _ => trivial) calls _)
  rw [hrun, List.forall₂_eq_eq_eq] at hanswers
  rw [hrun] at h
  have hok : b.Ok := h.toOk
  have heq : b.size = size := h.size_eq
  refine ⟨hanswers, h.contents_eq, heq ▸ hok.head_lt, heq ▸ hok.tail_lt,
    heq ▸ length_contents_le hok, fun el => ⟨?_, ?_⟩, ?_, fun hc => ?_⟩
  · rw [(h.add hsize32 el).1, h.contents_eq, decide_eq_true_iff]
  · rw [addWord_eq hok (heq ▸ hsize32), Bool.not_eq_false', decide_eq_true_iff]
    exact fun hfull => add_of_full hfull el
  · rw [removeWord_eq hok (heq ▸ hsize32)]
    exact remove_eq_self_iff hok
  · rw [removeWord_eq hok (heq ▸ hsize32), CircularBuffer.remove_nil hok zero hc]

/-- Three places: the third element is refused, and the first comes out first. -/
theorem circular_buffer_fifo_three : ∃ answers, ∃ b : CircularBuffer ℕ,
    runs (exec 0) (construct 3 fun _ => 0) [.add 7, .add 8, .add 9, .remove] = (answers, b) ∧
      answers = [.added true, .added true, .added false, .removed 7] ∧ b.contents = [8] := by
  obtain ⟨h1, h2, -⟩ := circular_buffer_fifo (show 1 ≤ 3 by omega) (by omega) (fun _ => 0) 0
    [.add 7, .add 8, .add 9, .remove] rfl
  exact ⟨_, _, rfl, h1, h2⟩

end CircularBuffer

end GheithOS.Input
