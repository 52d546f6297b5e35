import GheithOS.Syscall.DescriptorList

/-!
# GheithOS.Syscall.DescriptorRuns — the descriptor tables of many processes

Tables are made empty or, at `fork`, as copies, and then each process works on its own.  `Faithful`
is what the operations do to a table, in terms of its empty slots.  `descriptor_tables` says that
every table of every run is faithful, and that what becomes of a table depends on the operations on
that table alone.
-/

namespace GheithOS.Syscall

open Lib

variable {α : Type} {size : ℕ}

namespace DescriptorList

section Table

variable (l : DescriptorList α size)

/-- The copy constructor. -/
def copy : DescriptorList α size where
  data := fun i => l.data i
  openSlots := l.openSlots
  openSlots_eq := l.openSlots_eq

/-- `alloc` of one value after the other. -/
def allocAll : List α → DescriptorList α size → Option (List ℕ × DescriptorList α size)
  | [], l => some ([], l)
  | v :: vs, l => do
    let (i, l) ← l.alloc v
    let (is, l) ← allocAll vs l
    return (i :: is, l)

def emptySlots : Finset (Fin size) := Finset.univ.filter fun i => (l.data i).isNone = true

variable {l}

theorem mem_emptySlots {i : Fin size} : i ∈ l.emptySlots ↔ l.data i = none := by
  rw [emptySlots, Finset.mem_filter, Option.isNone_iff_eq_none, and_iff_right (Finset.mem_univ i)]

theorem openSlots_eq_card : l.openSlots = l.emptySlots.card := l.openSlots_eq

theorem canAlloc_iff (k : ℕ) : l.canAlloc k = true ↔ k ≤ l.emptySlots.card := by
  rw [canAlloc, decide_eq_true_iff, openSlots_eq_card]

theorem set_data (index : ℕ) (value : Option α) (i : Fin size) :
    (l.set index value).data i = if i.val = index then value else l.data i := by
  unfold set
  by_cases h : index < size
  · rw [dif_pos h]
    by_cases hi : i.val = index
    · obtain rfl : i = ⟨index, h⟩ := Fin.ext hi
      rw [if_pos hi]
      exact Function.update_self _ _ _
    · rw [if_neg hi]
      exact Function.update_of_ne (fun heq => hi (congrArg Fin.val heq)) _ _
  · rw [dif_neg h, if_neg (by have := i.isLt; omega)]

theorem firstEmpty_le {i j : Fin size} (h : l.firstEmpty = some i) (hj : j ∈ l.emptySlots) : i ≤ j := by
  rw [mem_emptySlots] at hj
  obtain ⟨-, before, after, hsplit, hbefore⟩ := List.find?_eq_some_iff_append.mp h
  have hmem : j ∈ before ++ i :: after := hsplit ▸ List.mem_finRange j
  have hsorted : (before ++ i :: after).Pairwise (· < ·) := hsplit ▸ List.pairwise_lt_finRange size
  rcases List.mem_append.mp hmem with hin | hin
  · have hfull := hbefore j hin
    rw [hj] at hfull
    cases hfull
  · rcases List.mem_cons.mp hin with rfl | hin
    · exact le_rfl
    · exact ((List.pairwise_cons.mp (List.pairwise_append.mp hsorted).2.1).1 j hin).le

/-- **`alloc`** takes the least empty slot and fills it. -/
theorem alloc_least (h : l.canAlloc 1 = true) (value : α) :
    ∃ i ∈ l.emptySlots, (∀ j ∈ l.emptySlots, i ≤ j) ∧ ∃ l', l.alloc value = some (i.val, l') ∧
      ∀ j, l'.data j = if j = i then some value else l.data j := by
  obtain ⟨i, hi, halloc⟩ := alloc_of_canAlloc h value
  refine ⟨i, mem_emptySlots.mpr (firstEmpty_eq_some hi), fun j => firstEmpty_le hi, _, halloc, fun j => ?_⟩
  rw [set_data]
  exact if_congr Fin.ext_iff.symm rfl rfl

/-- **With room for `k` values, `k` calls of `alloc` succeed.** -/
theorem allocAll_isSome : ∀ (vs : List α) (l : DescriptorList α size), l.canAlloc vs.length = true →
    (allocAll vs l).isSome = true
  | [], _, _ => rfl
  | v :: vs, l, h => by
    have hroom : vs.length + 1 ≤ l.openSlots := of_decide_eq_true h
    have hone : l.canAlloc 1 = true := decide_eq_true (by omega)
    obtain ⟨i, hi, halloc⟩ := alloc_of_canAlloc hone v
    have hleft : (l.set i (some v)).canAlloc vs.length = true := by
      rw [canAlloc, openSlots_set_firstEmpty hi]
      exact decide_eq_true (by omega)
    obtain ⟨r, hr⟩ := Option.isSome_iff_exists.mp (allocAll_isSome vs (l.set i (some v)) hleft)
    rw [allocAll, halloc, Option.bind_eq_bind, Option.bind_some]
    dsimp only
    rw [hr]
    rfl

theorem get_eq_some_some {index : ℕ} {v : α} :
    l.get index = some (some v) ↔ ∃ h : index < size, l.data ⟨index, h⟩ = some v := by
  unfold get
  by_cases h : index < size
  · rw [dif_pos h, Option.some_inj]
    exact ⟨fun hv => ⟨h, hv⟩, fun ⟨_, hv⟩ => hv⟩
  · rw [dif_neg h]
    exact iff_of_false (by simp) fun ⟨h', _⟩ => h h'

/-- **`remove`** finds out whether the slot is occupied. -/
theorem remove_fst (index : ℕ) :
    (l.remove index).1 = true ↔ ∃ h : index < size, ⟨index, h⟩ ∉ l.emptySlots := by
  simp only [mem_emptySlots, ← ne_eq, Option.ne_none_iff_exists']
  rw [exists_comm]
  simp only [← get_eq_some_some]
  unfold remove
  split
  · next v hv => exact iff_of_true rfl ⟨v, hv⟩
  · next hnot => exact iff_of_false (by simp) fun ⟨v, hv⟩ => hnot v hv

theorem remove_data (index : ℕ) (i : Fin size) :
    (l.remove index).2.data i = if i.val = index then none else l.data i := by
  unfold remove
  split
  · exact set_data index none i
  · next hnot =>
    by_cases hi : i.val = index
    · subst hi
      rw [if_pos rfl]
      by_contra hfull
      obtain ⟨v, hv⟩ := Option.ne_none_iff_exists'.mp hfull
      exact hnot v (get_eq_some_some.mpr ⟨i.isLt, hv⟩)
    · rw [if_neg hi]

end Table

/-- **What the operations do to a table.** -/
structure Faithful (l : DescriptorList α size) : Prop where
  openSlots : l.openSlots = l.emptySlots.card
  canAlloc : ∀ k, l.canAlloc k = true ↔ k ≤ l.emptySlots.card
  allocs : ∀ vs, l.canAlloc vs.length = true → (allocAll vs l).isSome = true
  alloc : l.canAlloc 1 = true → ∀ value, ∃ i ∈ l.emptySlots, (∀ j ∈ l.emptySlots, i ≤ j) ∧
    ∃ l', l.alloc value = some (i.val, l') ∧ ∀ j, l'.data j = if j = i then some value else l.data j
  removes : ∀ index, (l.remove index).1 = true ↔ ∃ h : index < size, ⟨index, h⟩ ∉ l.emptySlots
  remove : ∀ index i, (l.remove index).2.data i = if i.val = index then none else l.data i

theorem faithful (l : DescriptorList α size) : l.Faithful where
  openSlots := openSlots_eq_card
  canAlloc := canAlloc_iff
  allocs vs := allocAll_isSome vs l
  alloc := alloc_least
  removes := remove_fst
  remove := remove_data

end DescriptorList

/-! ### Runs -/

/-- An operation on a table. -/
inductive SlotOp (α : Type)
  | alloc (value : α)
  | set (index : ℕ) (value : Option α)
  | remove (index : ℕ)
  | get (index : ℕ)

/-- The table after an operation; none if the kernel stops. -/
def SlotOp.exec (l : DescriptorList α size) : SlotOp α → Option (DescriptorList α size)
  | alloc value => (l.alloc value).map Prod.snd
  | set index value => some (l.set index value)
  | remove index => some (l.remove index).2
  | get _ => some l

/-- An operation on the tables: a new one, a copy of one for a new process, or an operation on
one. -/
inductive TableOp (α : Type)
  | create
  | copy (t : ℕ)
  | on (t : ℕ) (op : SlotOp α)

def TableOp.exec (tables : List (DescriptorList α size)) : TableOp α → Option (List (DescriptorList α size))
  | create => some (tables ++ [DescriptorList.empty])
  | copy t => do
    let l ← tables[t]?
    return tables ++ [l.copy]
  | on t op => do
    let l ← tables[t]?
    let l ← op.exec l
    return tables.set t l

def runTables (ops : List (TableOp α)) (tables : List (DescriptorList α size)) :
    Option (List (DescriptorList α size)) := ops.foldlM TableOp.exec tables

/-- The operation on table `t` that this is, if it is one. -/
def TableOp.own (t : ℕ) : TableOp α → Option (SlotOp α)
  | on u op => if u = t then some op else none
  | _ => none

/-- The operations on table `t`. -/
def ownOps (t : ℕ) (ops : List (TableOp α)) : List (SlotOp α) := ops.filterMap (TableOp.own t)

section Runs

variable {tables tables' : List (DescriptorList α size)} {l : DescriptorList α size} {t : ℕ}

/-- **One operation**: a table changes by an operation on it, and by nothing else. -/
theorem TableOp.exec_getElem {op : TableOp α} (h : op.exec tables = some tables')
    (ht : tables[t]? = some l) :
    ∃ l', tables'[t]? = some l' ∧ (ownOps t [op]).foldlM SlotOp.exec l = some l' := by
  have hlt : t < tables.length := (List.getElem?_eq_some_iff.mp ht).1
  cases op with
  | create =>
    obtain rfl := Option.some.inj h
    exact ⟨l, by rwa [List.getElem?_append_left hlt], rfl⟩
  | copy u =>
    obtain ⟨k, -, hk⟩ := Option.bind_eq_some_iff.mp h
    obtain rfl := Option.some.inj hk
    exact ⟨l, by rwa [List.getElem?_append_left hlt], rfl⟩
  | on u op =>
    obtain ⟨k, hk, h⟩ := Option.bind_eq_some_iff.mp h
    obtain ⟨k', hk', h⟩ := Option.bind_eq_some_iff.mp h
    obtain rfl := Option.some.inj h
    by_cases hu : u = t
    · subst hu
      obtain rfl : k = l := Option.some.inj (hk.symm.trans ht)
      have hown : ownOps u [TableOp.on u op] = [op] := by simp [ownOps, TableOp.own]
      refine ⟨k', List.getElem?_set_self hlt, ?_⟩
      rw [hown, List.foldlM_cons, hk']
      rfl
    · have hown : ownOps t [TableOp.on u op] = [] := by simp [ownOps, TableOp.own, hu]
      rw [hown]
      exact ⟨l, by rwa [List.getElem?_set_ne hu], rfl⟩

/-- **A run**: what becomes of a table is what the operations on it make of it. -/
theorem runTables_getElem {ops : List (TableOp α)} (h : runTables ops tables = some tables')
    (ht : tables[t]? = some l) :
    ∃ l', tables'[t]? = some l' ∧ (ownOps t ops).foldlM SlotOp.exec l = some l' := by
  induction ops generalizing tables l with
  | nil =>
    obtain rfl := Option.some.inj h
    exact ⟨l, ht, rfl⟩
  | cons op ops ih =>
    rw [runTables, List.foldlM_cons] at h
    obtain ⟨tables₁, hop, hrest⟩ := Option.bind_eq_some_iff.mp h
    obtain ⟨l₁, ht₁, hown₁⟩ := TableOp.exec_getElem hop ht
    obtain ⟨l', ht', hown'⟩ := ih hrest ht₁
    refine ⟨l', ht', ?_⟩
    have hsplit : ownOps t (op :: ops) = ownOps t [op] ++ ownOps t ops := List.filterMap_append (l := [op])
    rw [hsplit, List.foldlM_append, hown₁]
    exact hown'

theorem SlotOp.exec_isSome (op : SlotOp α) (h : ∀ value, op = .alloc value → l.canAlloc 1 = true) :
    (op.exec l).isSome = true := by
  cases op with
  | alloc value =>
    obtain ⟨i, -, halloc⟩ := DescriptorList.alloc_of_canAlloc (h value rfl) value
    rw [SlotOp.exec, halloc]
    rfl
  | set index value => rfl
  | remove index => rfl
  | get index => rfl

end Runs

/-- **Descriptor tables.**  Whatever tables a run has led to: the operations do to each of them what
they should, and go on if `alloc` is called only with room; a copy has the values of its source; and
what becomes of a table in any further run, be it a source or a copy, depends on the operations on
it alone. -/
theorem descriptor_tables (tables : List (DescriptorList α size)) :
    (∀ l ∈ tables, l.Faithful) ∧
    (∀ t l, tables[t]? = some l → ∀ op : SlotOp α, (∀ value, op = .alloc value → l.canAlloc 1 = true) →
      ((TableOp.on t op).exec tables).isSome = true) ∧
    (∀ t l, tables[t]? = some l → (TableOp.copy t).exec tables = some (tables ++ [l])) ∧
    ∀ ops tables', runTables ops tables = some tables' → ∀ t l, tables[t]? = some l →
      ∃ l', tables'[t]? = some l' ∧ (ownOps t ops).foldlM SlotOp.exec l = some l' := by
  refine ⟨fun l _ => l.faithful, fun t l ht op hop => ?_, fun t l ht => ?_,
    fun ops tables' hrun t l ht => runTables_getElem hrun ht⟩
  · obtain ⟨l', hl'⟩ := Option.isSome_iff_exists.mp (op.exec_isSome hop)
    refine Option.isSome_iff_exists.mpr ⟨tables.set t l', Option.bind_eq_some_iff.mpr ⟨l, ht, ?_⟩⟩
    rw [hl']
    rfl
  · exact Option.bind_eq_some_iff.mpr ⟨l, ht, rfl⟩

/-- Two slots, a copy, and a removal in the source: the copy still has both values. -/
example : ∃ (tables : List (DescriptorList ℕ 2)) (l : DescriptorList ℕ 2),
    runTables [.create, .on 0 (.alloc 7), .on 0 (.alloc 8), .copy 0, .on 0 (.remove 0)] [] = some tables ∧
    tables[1]? = some l ∧ l.data 0 = some 7 ∧ l.data 1 = some 8 ∧ l.canAlloc 1 = false :=
  ⟨_, _, rfl, rfl, rfl, rfl, rfl⟩

end GheithOS.Syscall
