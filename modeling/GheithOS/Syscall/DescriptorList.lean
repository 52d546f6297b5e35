import GheithOS.Lib.Count
import Mathlib.Data.Fintype.Card

/-!
# GheithOS.Syscall.DescriptorList — `descriptor_list.h`

A table of a fixed number of slots, with a count of the empty ones that is kept beside them.  That
the count is right is a field of the structure, and every operation has to supply it; so `can_alloc`
means what it says (`alloc_of_canAlloc`).
-/

namespace GheithOS.Syscall

open Lib

variable {α : Type} {size : ℕ}

/-- `DescriptorList`; none is the null value `T{}`. -/
@[ext]
structure DescriptorList (α : Type) (size : ℕ) where
  data : Fin size → Option α
  openSlots : ℕ
  openSlots_eq : openSlots = countOn Finset.univ (fun o => o.isNone = true) data

namespace DescriptorList

variable (l : DescriptorList α size)

/-- The constructor. -/
def empty : DescriptorList α size where
  data := fun _ => none
  openSlots := size
  openSlots_eq := by simp [countOn]

/-- `get`; without a slot of this index, a null pointer. -/
def get (index : ℕ) : Option (Option α) := if h : index < size then some (l.data ⟨index, h⟩) else none

/-- What `set` makes of `open_slots`. -/
def adjust (old value : Option α) (openSlots : ℕ) : ℕ :=
  if value.isSome ∧ old.isNone then openSlots - 1
  else if value.isNone ∧ old.isSome then openSlots + 1
  else openSlots

theorem adjust_eq (i : Fin size) (value : Option α) :
    adjust (l.data i) value l.openSlots =
      countOn Finset.univ (fun o => o.isNone = true) (Function.update l.data i value) := by
  have h := countOn_update (p := fun o : Option α => o.isNone = true) (f := l.data)
      (Finset.mem_univ i) value
  rw [← l.openSlots_eq] at h
  unfold adjust
  cases hold : l.data i <;> cases value <;> simp [hold] at h ⊢ <;> omega

def set (index : ℕ) (value : Option α) : DescriptorList α size :=
  if h : index < size then
    { data := Function.update l.data ⟨index, h⟩ value
      openSlots := adjust (l.data ⟨index, h⟩) value l.openSlots
      openSlots_eq := l.adjust_eq ⟨index, h⟩ value }
  else l

def remove (index : ℕ) : Bool × DescriptorList α size :=
  match l.get index with
  | some (some _) => (true, l.set index none)
  | _ => (false, l)

def canAlloc (count : ℕ) : Bool := count ≤ l.openSlots

/-- The loop of `alloc`. -/
def firstEmpty : Option (Fin size) := (List.finRange size).find? fun i => (l.data i).isNone

/-- `alloc`: the first empty slot; without room, or without such a slot, the kernel stops. -/
def alloc (value : α) : Option (ℕ × DescriptorList α size) :=
  if l.canAlloc 1 then l.firstEmpty.map fun i : Fin size => (i.val, l.set i (some value)) else none

/-! ### `alloc` -/

variable {l}

theorem firstEmpty_eq_some {i : Fin size} (h : l.firstEmpty = some i) : l.data i = none := by
  simpa using List.find?_some h

/-- With room there is an empty slot. -/
theorem alloc_of_canAlloc (h : l.canAlloc 1 = true) (value : α) :
    ∃ i, l.firstEmpty = some i ∧ l.alloc value = some (i.val, l.set i (some value)) := by
  have hpos : 0 < countOn Finset.univ (fun o => o.isNone = true) l.data := by
    rw [← l.openSlots_eq]
    exact of_decide_eq_true h
  obtain ⟨i, hi⟩ := Finset.card_pos.mp hpos
  have hnone : (l.data i).isNone = true := (Finset.mem_filter.mp hi).2
  unfold alloc
  rw [if_pos h]
  cases hf : l.firstEmpty with
  | none => exact absurd hnone (List.find?_eq_none.mp hf i (List.mem_finRange i))
  | some j => exact ⟨j, rfl, rfl⟩

theorem openSlots_set_firstEmpty {i : Fin size} (h : l.firstEmpty = some i) (value : α) :
    (l.set i (some value)).openSlots = l.openSlots - 1 := by
  rw [set, dif_pos i.isLt]
  simp [adjust, firstEmpty_eq_some h]

end DescriptorList

end GheithOS.Syscall
