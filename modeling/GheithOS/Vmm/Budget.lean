import GheithOS.Lib.Budget
import GheithOS.Vmm.EagerClone

/-!
# GheithOS.Vmm.Budget — how many frames the operations take

Bounds on the frames that a fork and the accesses after it take.  They need no invariant; with
enough frames left, no operation stops for want of one.
-/

namespace GheithOS.Vmm

open Cow Lib

variable {α β : Type} {k l : ℕ}

/-- `n` frames that have never been used are left. -/
def Room (n : ℕ) (s : Vm) : Prop := s.firstFree = none ∧ s.avail + n ≤ s.limit

theorem room_antitone : Antitone Room := fun _ _ hkl _ hs => ⟨hs.1, (Nat.add_le_add_left hkl _).trans hs.2⟩

/-- **A run takes at most `k` frames.** -/
def Takes (k : ℕ) (m : Code α) : Prop := Spends (fun e => ¬ OutOfFrames e) Room k m

variable {m : Code α}

theorem Takes.mono (h : Takes k m) (hkl : k ≤ l) : Takes l m := Spends.mono h room_antitone hkl

/-! The rules of the library, for frames. -/

theorem takes_pure (a : α) : Takes 0 (pure a : Code α) := spends_pure a

theorem takes_throw {e : Stop} (he : e ≠ .noMoreFrames) : Takes 0 (throw e : Code α) := spends_throw he

variable {g : α → Code β}

theorem takes_bind (hm : Takes k m) (hg : ∀ a, Takes l (g a)) : Takes (k + l) (m >>= g) :=
  spends_bind hm hg

theorem takes_then (hm : Takes 0 m) (hg : ∀ a, Takes l (g a)) : Takes l (m >>= g) :=
  spends_then hm hg

variable {f : Index → Code Unit}

theorem takes_forM {cost : Index → ℕ} (h : ∀ i, Takes (cost i) (f i)) (is : List Index) :
    Takes (is.map cost).sum (is.forM f) :=
  spends_forM h is

variable {s : Vm}

/-- A run that stops for want of frames only, and has enough of them, returns. -/
theorem Takes.returns {Q : α → Vm → Prop} (h : Takes k m) (hs : Room k s)
    (hm : Ends OutOfFrames m s Q) : ∃ a s', m s = .ok (a, s') ∧ Q a s' :=
  hm.returns fun e he hstop => by
    have hend := h 0 s hs
    unfold Ends at hend
    rw [hstop] at hend
    exact hend he

section Primitives

variable (n : ℕ) (i : Index)

/-- The state after a frame is taken that has never been used. -/
def Vm.takeNext (s : Vm) : Vm := ({ s with avail := s.avail + 1 }).setRow s.avail fun _ => 0#32

theorem allocFrame_next (h : Room (1 + k) s) : allocFrame s = .ok (s.avail, s.takeNext) := by
  have hroom := h.2
  have hne : s.avail ≠ s.limit := by omega
  unfold allocFrame
  split
  · next hfree =>
    rw [h.1] at hfree
    cases hfree
  · exact if_neg hne

theorem Room.takeNext (h : Room (1 + k) s) : Room k s.takeNext := by
  have hroom := h.2
  refine ⟨h.1, ?_⟩
  show s.avail + 1 + k ≤ s.limit
  omega

theorem takes_allocFrame : Takes 1 allocFrame := fun _ _ hs => ends_of_eq (allocFrame_next hs) hs.takeNext

theorem takes_load : Takes 0 (load n i) := spends_zero fun _ => ends_of_eq rfl fun _ hs => hs

theorem takes_store (w : Word) : Takes 0 (store n i w) := spends_zero fun _ => ends_of_eq rfl fun _ hs => hs

theorem takes_loadRow : Takes 0 (loadRow n) := spends_zero fun _ => ends_of_eq rfl fun _ hs => hs

theorem takes_storeRow (row : Row) : Takes 0 (storeRow n row) :=
  spends_zero fun _ => ends_of_eq rfl fun _ hs => hs

theorem takes_addFetch (x : ℤ) : Takes 0 (addFetch n x) :=
  spends_zero fun _ => ends_of_eq rfl fun _ hs => hs

theorem takes_ref : Takes 0 (ref n i) := spends_zero fun s => ends_of_eq (ref_eq n i s) fun _ hs => hs

end Primitives

/-- A loop whose turns take nothing. -/
theorem takes_loop (h : ∀ i, Takes 0 (f i)) (is : List Index) : Takes 0 (is.forM f) := by
  have hloop := takes_forM h is
  rw [List.map_const', List.sum_replicate_nat, Nat.mul_zero] at hloop
  exact hloop

/-- A frame is taken, and what follows takes none. -/
theorem takes_frame {g : ℕ → Code α} (h : ∀ f, Takes 0 (g f)) : Takes 1 (allocFrame >>= g) :=
  takes_bind (l := 0) takes_allocFrame h

theorem takes_refTable (current new : ℕ) : Takes 0 (refTable current new) := by
  unfold refTable
  exact takes_loop (fun i => takes_then (takes_ref current i) fun e => takes_store new i e) _

attribute [local irreducible] refTable

/-- **`COW::copy`** takes a frame at most. -/
theorem takes_copy (n : ℕ) (i : Index) (isPageTable : Bool) : Takes 1 (copy n i isPageTable) := by
  unfold copy
  refine takes_then (takes_load n i) fun e => ?_
  split
  · exact Takes.mono (takes_pure ()) (Nat.zero_le 1)
  · refine takes_then (takes_addFetch _ _) fun count => ?_
    split
    · exact (takes_store n i _).mono (Nat.zero_le 1)
    · have hlast : ∀ newFrame, Takes 0 (do
          let e ← load n i
          store n i (frameAddr newFrame ||| (e &&& flagsMask) ||| flagRw)) := fun newFrame =>
        takes_then (takes_load n i) fun e => takes_store n i _
      refine takes_frame fun newFrame => ?_
      cases isPageTable with
      | true => exact takes_then (takes_refTable _ newFrame) fun _ => hlast newFrame
      | false =>
        exact takes_then (takes_loadRow _) fun data => takes_then (takes_storeRow newFrame data)
          fun _ => hlast newFrame

section Faults

variable (page directory : ℕ) (flags : Word)

theorem takes_getPageDirectoryEntry : Takes 1 (getPageDirectoryEntry page directory) :=
  takes_bind (takes_copy _ _ _) fun _ => takes_pure _

theorem takes_getPageTable : Takes 1 (getPageTable page directory) :=
  takes_bind (takes_getPageDirectoryEntry page directory) fun _ => takes_then (takes_load _ _)
    fun _ => takes_pure _

theorem takes_setPageTable (t : ℕ) : Takes 1 (setPageTable page t flags directory) :=
  takes_bind (takes_getPageDirectoryEntry page directory) fun _ => takes_store _ _ _

theorem takes_tableFor : Takes 3 (tableFor page flags directory) := by
  unfold tableFor
  refine takes_bind (takes_getPageTable page directory) fun pageTable => (?_ : Takes 2 _)
  cases pageTable with
  | some t => exact (takes_pure t).mono (Nat.zero_le 2)
  | none =>
    refine takes_bind takes_allocFrame fun t => (?_ : Takes 1 _)
    exact takes_bind (takes_setPageTable page directory flags t) fun _ => takes_pure t

theorem takes_mapAddress (address : ℕ) (toAddress : Word) :
    Takes 3 (mapAddress address toAddress flags directory) :=
  takes_bind (takes_tableFor _ directory flags) fun _ => takes_store _ _ _

/-- **The page fault handler** takes four frames at most. -/
theorem takes_wrappedPageFault (c : Config) (address : ℕ) (isPresent isWrite isUser : Bool)
    (backing : Backing) :
    Takes 4 (wrappedPageFault c directory address isPresent isWrite isUser backing) := by
  have hmap : ∀ toAddress flags,
      Takes 3 (do mapAddress address toAddress flags directory; return FaultEnd.returned) :=
    fun toAddress flags => takes_bind (takes_mapAddress directory flags address toAddress)
      fun _ => takes_pure _
  have hpure : ∀ e : FaultEnd, Takes 4 (pure e) := fun e => (takes_pure e).mono (Nat.zero_le 4)
  unfold wrappedPageFault
  split
  · cases isUser with
    | true => exact hpure _
    | false => exact (takes_throw (by decide)).mono (Nat.zero_le 4)
  split
  · refine takes_bind (takes_getPageTable _ _) fun pageTable => (?_ : Takes 3 _)
    cases pageTable with
    | none => exact (takes_throw (by decide)).mono (Nat.zero_le 3)
    | some t =>
      have hcopy : Takes 1 (do copy t (tableIndex (address / frameSize)) false; return FaultEnd.returned) :=
        takes_bind (takes_copy _ _ _) fun _ => takes_pure _
      exact hcopy.mono (by omega)
  · cases backing with
    | unmapped => exact hpure _
    | file contents =>
      exact takes_bind takes_allocFrame fun f => takes_then (takes_storeRow f contents) fun _ => hmap _ _
    | anonymous =>
      cases isWrite with
      | true => exact takes_bind takes_allocFrame fun f => hmap _ _
      | false =>
        refine Takes.mono ?_ (show 3 ≤ 4 by omega)
        exact takes_then (takes_then (takes_addFetch _ _) fun _ => takes_pure _) fun _ => hmap _ _

end Faults

/-! ### Directories -/

section Directories

variable (other newDir : ℕ)

theorem takes_cloneLoop : Takes 0 (cloneLoop other newDir) := by
  unfold cloneLoop
  generalize List.finRange 1024 = is
  refine takes_loop (fun i => ?_) is
  refine takes_then (takes_load other i) fun e => ?_
  split_ifs
  · exact takes_store newDir i e
  · exact takes_then (takes_ref other i) fun e => takes_store newDir i e

attribute [local irreducible] cloneLoop

theorem takes_cloneDirectory : Takes 1 (cloneDirectory other) :=
  takes_bind takes_allocFrame fun newDir => takes_then (takes_cloneLoop other newDir) fun _ => takes_pure _

/-- A page table and its pages. -/
theorem takes_copyTable : Takes 1024 (copyTable other newDir) := by
  have hsum : ((List.finRange 1024).map fun _ => 1).sum = 1024 := by
    rw [List.map_const', List.sum_replicate_nat, List.length_finRange, Nat.mul_one]
  have hloop : Takes ((List.finRange 1024).map fun _ => 1).sum (copyTable other newDir) := by
    unfold copyTable
    generalize List.finRange 1024 = js
    refine takes_forM (fun j => takes_then (takes_load other j) fun e => ?_) js
    split
    · exact (takes_store newDir j e).mono (Nat.zero_le 1)
    · refine takes_frame fun f => ?_
      exact takes_then (takes_loadRow _) fun data => takes_then (takes_storeRow f data) fun _ =>
        takes_store _ _ _
  rwa [hsum] at hloop

/-- What a turn of `clone_directory_no_cow` takes. -/
def turnCost (i : Index) : ℕ := if isUser i then 1 + (1024 + 0) else 0

theorem takes_noCowLoop : Takes 459200 (noCowLoop other newDir) := by
  have hsum : ((List.finRange 1024).map turnCost).sum = 459200 := by decide +kernel
  unfold noCowLoop
  rw [← hsum]
  generalize List.finRange 1024 = is
  refine takes_forM (fun i => takes_then (takes_load other i) fun e => ?_) is
  split
  · exact (takes_store newDir i e).mono (Nat.zero_le _)
  · next hc =>
    rw [turnCost, if_pos (by simpa using fun h => hc (.inr h))]
    exact takes_bind takes_allocFrame fun t => takes_bind (takes_copyTable _ t) fun _ => takes_store _ _ _

/-- **An eager clone** takes the frames of a full directory at most. -/
theorem takes_cloneDirectoryNoCow : Takes 459201 (cloneDirectoryNoCow other) :=
  takes_bind (l := 459200) takes_allocFrame fun newDir =>
    takes_bind (takes_noCowLoop other newDir) fun _ => takes_pure _

end Directories

end GheithOS.Vmm
