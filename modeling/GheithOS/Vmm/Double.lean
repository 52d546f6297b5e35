import Mathlib.Algebra.BigOperators.Fin
import GheithOS.Vmm.Frames

/-!
# GheithOS.Vmm.Double — the loops that double a row of entries

`COW::copy` takes a reference to every entry of a page table and writes it to a new one;
`clone_directory` does the same for the user part of a directory.  Both loops are one: a turn
changes entry `i` of the old frame, writes entry `i` of the new one and raises counts.
`forM_double` is the loop in closed form, and `Doubled` is what the accounting needs of it.
-/

namespace GheithOS.Vmm

open Cow Lib Function

variable {c : Config} {G : Ghost} {s : Vm} {n t f a : ℕ} {i : Index}

/-- What a turn makes of an entry in the old and in the new frame, and what it adds to the
counts. -/
structure Turn where
  old : Index → Word → Word
  new : Index → Word → Word
  gain : Index → Word → ℕ → ℤ

/-- The state after turns for the indices in `is`. -/
def Vm.double (s : Vm) (T : Turn) (t f : ℕ) (is : List Index) : Vm :=
  { s with
    mem := update (update s.mem t fun i => if i ∈ is then T.old i (s.mem t i) else s.mem t i) f
      fun i => if i ∈ is then T.new i (s.mem t i) else s.mem f i
    refCounts := fun a => s.refCounts a + (is.map fun i => T.gain i (s.mem t i) a).sum }

section Loop

variable {T : Turn}

theorem double_old (htf : t ≠ f) (is : List Index) (i : Index) :
    (s.double T t f is).mem t i = if i ∈ is then T.old i (s.mem t i) else s.mem t i := by
  simp only [Vm.double, update_of_ne htf, update_self]

theorem double_new (is : List Index) (i : Index) :
    (s.double T t f is).mem f i = if i ∈ is then T.new i (s.mem t i) else s.mem f i := by
  simp only [Vm.double, update_self]

theorem double_row (is : List Index) (hnt : n ≠ t) (hnf : n ≠ f) : (s.double T t f is).mem n = s.mem n := by
  simp only [Vm.double, update_of_ne hnf, update_of_ne hnt]

theorem double_cons (htf : t ≠ f) {is : List Index} (hi : i ∉ is) :
    (s.double T t f [i]).double T t f is = s.double T t f (i :: is) := by
  have hmem : ((s.double T t f [i]).double T t f is).mem = (s.double T t f (i :: is)).mem := by
    funext n j
    by_cases hnf : n = f
    · subst hnf
      rw [double_new, double_new, double_old htf, double_new]
      by_cases hj : j = i
      · subst hj
        simp [hi]
      · simp [hj]
    · by_cases hnt : n = t
      · subst hnt
        rw [double_old htf, double_old htf, double_old htf]
        by_cases hj : j = i
        · subst hj
          simp [hi]
        · simp [hj]
      · rw [double_row _ hnt hnf, double_row _ hnt hnf, double_row _ hnt hnf]
  have hrc : ((s.double T t f [i]).double T t f is).refCounts = (s.double T t f (i :: is)).refCounts := by
    funext a
    have hmap : (is.map fun j => T.gain j ((s.double T t f [i]).mem t j) a) = is.map fun j =>
        T.gain j (s.mem t j) a := by
      refine List.map_congr_left fun j hj => ?_
      rw [double_old htf, if_neg]
      rintro h
      rw [List.mem_singleton] at h
      exact hi (h ▸ hj)
    change s.refCounts a + ([i].map fun i => T.gain i (s.mem t i) a).sum +
      (is.map fun j => T.gain j ((s.double T t f [i]).mem t j) a).sum =
        s.refCounts a + ((i :: is).map fun i => T.gain i (s.mem t i) a).sum
    rw [hmap]
    simp [add_assoc]
  exact congrArg₂ (fun m r => { s with mem := m, refCounts := r }) hmem hrc

theorem double_singleton (htf : t ≠ f) (i : Index) :
    ((s.setWord t i (T.old i (s.mem t i))).withCounts fun a =>
      s.refCounts a + T.gain i (s.mem t i) a).setWord f i
      (T.new i (s.mem t i)) = s.double T t f [i] := by
  have hmem : (((s.setWord t i (T.old i (s.mem t i))).withCounts fun a =>
      s.refCounts a + T.gain i (s.mem t i) a).setWord f i (T.new i (s.mem t i))).mem =
        (s.double T t f [i]).mem := by
    funext n j
    by_cases hnf : n = f
    · subst hnf
      rw [double_new]
      by_cases hj : j = i
      · subst hj
        simp
      · rw [setWord_of_ne (.inr hj), if_neg (by simpa using hj)]
        exact setWord_of_ne (.inl (Ne.symm htf))
    · rw [setWord_of_ne (.inl hnf)]
      by_cases hnt : n = t
      · subst hnt
        rw [double_old htf]
        by_cases hj : j = i
        · subst hj
          simp [Vm.withCounts]
        · rw [if_neg (by simpa using hj)]
          exact setWord_of_ne (.inr hj)
      · rw [double_row _ hnt hnf]
        exact setWord_of_ne (.inl hnt)
  have hrc : (fun a => s.refCounts a + T.gain i (s.mem t i) a) = (s.double T t f [i]).refCounts := by
    funext a
    simp [Vm.double]
  exact congrArg₂ (fun m r => { s with mem := m, refCounts := r }) hmem hrc

/-- **The loop in closed form.** -/
theorem forM_double {body : Index → Code Unit} (htf : t ≠ f)
    (hbody : ∀ i s, body i s = .ok ((), s.double T t f [i])) :
    ∀ (is : List Index), is.Nodup → ∀ s, is.forM body s = .ok ((), s.double T t f is)
  | [], _, s => by
    have h : s.double T t f [] = s := by
      simp [Vm.double]
    rw [h]
    rfl
  | i :: is, hnd, s => by
    rw [List.nodup_cons] at hnd
    have h := bind_of_eq (f := fun _ => is.forM body) (hbody i s)
    rw [show (i :: is).forM body = (body i >>= fun _ => is.forM body) from rfl, h,
      forM_double htf hbody is hnd.2, double_cons htf hnd.1]

end Loop

/-! ### `COW::ref` -/

section Ref

/-- What `ref` adds to the counts: one for the reference, and one for the entry itself if it was
writable. -/
def refGain (e : Word) (a : ℕ) : ℤ :=
  (if sharedTgt (entryRef e) = some a then 1 else 0) + 2 * (if ownedTgt (entryRef e) = some a then 1 else 0)

/-- What `ref` leaves of an entry. -/
def refEntry (e : Word) : Word := if isPresent e then e &&& ~~~flagRw else e

/-- What `ref` returns. -/
def refValue (e : Word) : Word := if isPresent e then e &&& ~~~flagRw else 0#32

theorem entryRef_refEntry (e : Word) : entryRef (refEntry e) = (entryRef e).map fun x => (x.1, false) := by
  unfold refEntry
  split
  · rw [entryRef, entryRef, tgt_clearRw, isRw_clearRw, Option.map_map]
    rfl
  · next h => simp [entryRef, tgt, h]

theorem entryRef_refValue (e : Word) : entryRef (refValue e) = (entryRef e).map fun x => (x.1, false) := by
  unfold refValue
  split
  · rw [entryRef, entryRef, tgt_clearRw, isRw_clearRw, Option.map_map]
    rfl
  · next h => rw [entryRef_zero, entryRef, tgt, if_neg h, Option.map_none, Option.map_none]

theorem refGain_absent {e : Word} (h : isPresent e = false) (a : ℕ) : refGain e a = 0 := by
  simp [refGain, entryRef, tgt, h, sharedTgt, ownedTgt]

theorem refGain_ro {e : Word} (hp : isPresent e = true) (hr : isRw e = false) (a : ℕ) :
    refGain e a = if a = pageNumber e then 1 else 0 := by
  simp [refGain, entryRef, tgt, hp, hr, sharedTgt, ownedTgt, eq_comm]

theorem refGain_rw {e : Word} (hp : isPresent e = true) (hr : isRw e = true) (a : ℕ) :
    refGain e a = if a = pageNumber e then 2 else 0 := by
  simp [refGain, entryRef, tgt, hp, hr, sharedTgt, ownedTgt, eq_comm]

theorem refGain_of_ne {e : Word} (h : tgt e ≠ some a) : refGain e a = 0 := by
  cases hp : isPresent e with
  | false => exact refGain_absent hp a
  | true =>
    have hne : a ≠ pageNumber e := fun ha => h (tgt_eq_some.mpr ⟨hp, ha.symm⟩)
    cases hr : isRw e with
    | false => rw [refGain_ro hp hr, if_neg hne]
    | true => rw [refGain_rw hp hr, if_neg hne]

/-- **`ref` in closed form.** -/
theorem ref_eq (n : ℕ) (i : Index) (s : Vm) :
    ref n i s = .ok (refValue (s.mem n i), (s.setWord n i (refEntry (s.mem n i))).withCounts fun a =>
      s.refCounts a + refGain (s.mem n i) a) := by
  have hload : load n i s = .ok (s.mem n i, s) := rfl
  rw [ref, bind_of_eq hload]
  by_cases hp : isPresent (s.mem n i) = true
  · rw [if_pos hp]
    by_cases hr : isRw (s.mem n i) = true
    · have hst : (((s.addCount (pageNumber (s.mem n i)) 1).setWord n i (s.mem n i &&& ~~~flagRw)).addCount
          (pageNumber (s.mem n i)) 1) = (s.setWord n i (s.mem n i &&& ~~~flagRw)).withCounts fun a =>
            s.refCounts a + refGain (s.mem n i) a := by
        refine congrArg (Vm.withCounts (s.setWord n i (s.mem n i &&& ~~~flagRw))) (funext fun a => ?_)
        rw [refGain_rw hp hr]
        by_cases ha : a = pageNumber (s.mem n i)
        · simp [ha, Vm.addCount, Vm.setWord, add_assoc]
        · simp [ha, Vm.addCount, Vm.setWord]
      simp only [refValue, refEntry, hp, ite_true, hr, ← hst]
      exact congrArg (fun w => Except.ok (w, _)) (setWord_self _ n i _)
    · have hr' : isRw (s.mem n i) = false := by simpa using hr
      have hst : ((s.setWord n i (s.mem n i &&& ~~~flagRw)).addCount (pageNumber (s.mem n i)) 1) =
          (s.setWord n i (s.mem n i &&& ~~~flagRw)).withCounts fun a =>
            s.refCounts a + refGain (s.mem n i) a := by
        refine congrArg (Vm.withCounts (s.setWord n i (s.mem n i &&& ~~~flagRw))) (funext fun a => ?_)
        rw [refGain_ro hp hr']
        by_cases ha : a = pageNumber (s.mem n i)
        · simp [ha, Vm.setWord]
        · simp [ha, Vm.setWord]
      simp only [refValue, refEntry, hp, ite_true, hr, Bool.false_eq_true, ite_false, ← hst]
      exact congrArg (fun w => Except.ok (w, _)) (setWord_self _ n i _)
  · rw [if_neg hp]
    have hp' : isPresent (s.mem n i) = false := by simpa using hp
    have hs : (s.setWord n i (s.mem n i)).withCounts s.refCounts = s := by
      simp [Vm.setWord, Vm.withCounts]
    simp only [refValue, refEntry, hp, Bool.false_eq_true, ite_false, refGain_absent hp', add_zero, hs]
    rfl

/-! ### The two loops -/

/-- The turns of `COW::copy`. -/
def tableTurn : Turn := ⟨fun _ => refEntry, fun _ => refValue, fun _ => refGain⟩

/-- The turns of `clone_directory`. -/
def cloneTurn : Turn where
  old i e := if isUser i then refEntry e else e
  new i e := if isUser i then (if isPresent e then refValue e else e) else e
  gain i e a := if isUser i then refGain e a else 0

theorem refTable_eq (htf : t ≠ f) (s : Vm) :
    refTable t f s = .ok ((), s.double tableTurn t f (List.finRange 1024)) := by
  refine forM_double htf (fun i s => ?_) _ (List.nodup_finRange 1024) s
  rw [bind_of_eq (ref_eq t i s)]
  exact congrArg (fun s => Except.ok ((), s)) (double_singleton (T := tableTurn) htf i)

theorem cloneLoop_eq (htf : t ≠ f) (s : Vm) :
    cloneLoop t f s = .ok ((), s.double cloneTurn t f (List.finRange 1024)) := by
  refine forM_double htf (fun i s => ?_) _ (List.nodup_finRange 1024) s
  have hload : load t i s = .ok (s.mem t i, s) := rfl
  rw [bind_of_eq hload]
  have hone := double_singleton (s := s) (T := cloneTurn) htf i
  have hsame : (s.setWord t i (s.mem t i)).withCounts s.refCounts = s := by simp [Vm.setWord, Vm.withCounts]
  by_cases hu : isUser i = true <;> by_cases hp : isPresent (s.mem t i) = true
  · rw [if_neg (by simp [hu, hp]), bind_of_eq (ref_eq t i s)]
    simp only [cloneTurn, hu, hp, ite_true] at hone
    exact congrArg (fun s => Except.ok ((), s)) hone
  · rw [if_pos (by simp [hp])]
    simp only [cloneTurn, hu, hp, ite_true, ite_false, Bool.false_eq_true, refEntry, add_zero,
      refGain_absent (Bool.eq_false_iff.mpr hp), hsame] at hone
    exact congrArg (fun s => Except.ok ((), s)) hone
  · rw [if_pos (by simp [hu])]
    simp only [cloneTurn, hu, ite_false, Bool.false_eq_true, add_zero, hsame] at hone
    exact congrArg (fun s => Except.ok ((), s)) hone
  · rw [if_pos (by simp [hu])]
    simp only [cloneTurn, hu, ite_false, Bool.false_eq_true, add_zero, hsame] at hone
    exact congrArg (fun s => Except.ok ((), s)) hone

theorem sum_gain {T : Turn} {row : Index → Option (ℕ × Bool)} {e : Row}
    (hg : ∀ i a, T.gain i (e i) a = (if sharedTgt (row i) = some a then 1 else 0) +
      2 * (if ownedTgt (row i) = some a then 1 else 0)) (a : ℕ) :
    ((List.finRange 1024).map fun i => T.gain i (e i) a).sum = gain row a := by
  rw [← Fin.sum_univ_def, gain, sharedHits, ownedHits, hits, hits, countOn_eq_sum, countOn_eq_sum]
  simp only [hg, Finset.sum_add_distrib, ← Finset.mul_sum]
  push_cast
  rfl

/-- **A table is doubled.** -/
theorem doubled_table (hk : G.kind t = .table) (htf : t ≠ f) :
    Doubled G s (s.double tableTurn t f (List.finRange 1024)) t f where
  holder := Or.inr hk
  rows n hnt hnf := double_row _ hnt hnf
  firstFree := rfl
  avail := rfl
  limit := rfl
  old i _ := by
    rw [double_old htf, if_pos (List.mem_finRange i)]
    exact entryRef_refEntry _
  new i _ := by
    rw [double_new, if_pos (List.mem_finRange i)]
    exact entryRef_refValue _
  counts a := congrArg (s.refCounts a + ·) (sum_gain (fun i a => by rw [slot_table hk]; rfl) a)

/-- **The user part of a directory is doubled.** -/
theorem doubled_dir (hk : G.kind t = .dir) (htf : t ≠ f) :
    Doubled G s (s.double cloneTurn t f (List.finRange 1024)) t f where
  holder := Or.inl hk
  rows n hnt hnf := double_row _ hnt hnf
  firstFree := rfl
  avail := rfl
  limit := rfl
  old i hi := by
    have hu := hi.user hk
    rw [double_old htf, if_pos (List.mem_finRange i)]
    simp only [cloneTurn, hu, ite_true]
    exact entryRef_refEntry _
  new i hi := by
    have hu := hi.user hk
    rw [double_new, if_pos (List.mem_finRange i)]
    simp only [cloneTurn, hu, ite_true]
    split
    · exact entryRef_refValue _
    · next hp => simp [entryRef, tgt, hp]
  counts a := by
    refine congrArg (s.refCounts a + ·) (sum_gain (fun i a => ?_) a)
    by_cases hu : isUser i = true
    · rw [slot_dir hu]
      simp only [cloneTurn, hu, ite_true]
      rfl
    · simp [cloneTurn, hu, slot, hk, sharedTgt, ownedTgt]

end Ref

end GheithOS.Vmm
