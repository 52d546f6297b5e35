import GheithOS.Vmm.Runs
import GheithOS.Vmm.Views

/-!
# GheithOS.Vmm.Isolation — fork, and what the two processes read

After a fork the old directory and its clone are used by two programs.  Both ways to clone a
directory present the same views to them, so that they cannot tell which one was taken
(`fork_isolation`).

Only `clone_directory` needs exact reference counts, and a first read of an anonymous page in a
region without a page table spoils them: after it, parent and child share a page table that the
parent writes (`fork_leaks`).
-/

namespace GheithOS.Vmm

open Cow Lib
open MemoryMapping (userMemStart sharedAddress)

variable {c : Config} {G G' : Ghost} {s s₁ s' : Vm} {d e t f a fuel : ℕ} {i j : Index} {row : Row}

/-- **A fork and what follows**: `clone` is `clone_directory` or `clone_directory_no_cow`. -/
def forkRun (clone : ℕ → Code ℕ) (c : Config) (fuel : ℕ) (backing : Side → ℕ → Backing) (d : ℕ)
    (rs : List Request) :
    Code (List AccessEnd) := do
  let e ← clone d
  userRun c fuel backing (Side.directory d e) rs

/-! ### The two ways to clone -/

section Fork

variable {clone : ℕ → Code ℕ} {m : Machine}

/-- The views at a fork: both processes have the pages of the old directory. -/
def forked (s : Vm) (d f : ℕ) : Views := ⟨fun _ => space s d, s.mem f⟩

theorem Cloned.presents (h : Cloned c d e s G' s') (S : SharedFrames c t f) (M : SharedMapped s d t f) :
    Presents c t f (s.mem c.zeroFrame) (Side.directory d e) G' s' (forked s d f) where
  sound := h.sound
  dir side := by
    cases side
    · exact h.old
    · exact h.new
  ne side side' heq := by
    cases side <;> cases side'
    · rfl
    · exact absurd heq h.ne
    · exact absurd heq.symm h.ne
    · rfl
  pages side i j hi := by
    cases side
    · exact congrFun (h.spaces i hi).1 j
    · exact congrFun (h.spaces i hi).2 j
  zero := h.low _ h.sound.zero_lt
  mapped side := by
    have hrow := h.low t S.table_lt
    have hkernel := h.kernel _ shared_not_user
    cases side with
    | parent => exact M.congr hkernel.1 hrow
    | child => exact ⟨hkernel.2 ▸ M.pde, hkernel.2 ▸ M.pde_rw, hrow ▸ M.pte, hrow ▸ M.pte_rw⟩
  shared := h.low f S.frame_lt

/-- **After a fork** the programs get the answers of the views. -/
theorem forkRun_answers
    (hclone : Ends OutOfFrames (clone d) s fun e s' => ∃ G', Cloned c d e s G' s')
    (S : SharedFrames c t f) (M : SharedMapped s d t f) (backing : Side → ℕ → Backing)
    (rs : List Request) (fuel : ℕ) :
    Ends OutOfFrames (forkRun clone c (fuel + 2) backing d rs) s fun answers _ =>
      answers = (runs (Views.access (s.mem c.zeroFrame) backing) (forked s d f) rs).1 := by
  refine ends_bind (hclone.mono ?_)
  rintro e s' ⟨G', h⟩
  exact (h.presents S M).run S backing fuel rs

theorem runs_ne_faulting (zero : Row) (backing : Side → ℕ → Backing) : ∀ (rs : List Request) (V : Views),
    .faulting ∉ (runs (Views.access zero backing) V rs).1
  | [], _ => List.not_mem_nil
  | r :: rs, V => by
    refine fun hmem => ?_
    rcases List.mem_cons.mp hmem with h | h
    · exact V.access_ne_faulting zero backing r h.symm
    · exact runs_ne_faulting zero backing rs _ h

theorem Standing.sharedMapped (h : Standing c s m G) (S : SharedFrames c t f)
    (M : SharedMapped s c.baseDirectory t f) (hd : d ∈ m.live) : SharedMapped m.vm d t f := by
  have hpde := h.kernel d hd _ shared_not_user
  have hrow := h.low t S.table_lt S.table_zero
  exact ⟨hpde ▸ M.pde, hpde ▸ M.pde_rw, hrow ▸ M.pte, hrow ▸ M.pte_rw⟩

/-- **Fork isolation.**  From every state that is reached by operations inside user memory none of
which is a first read of an anonymous page in a region without a page table, a live directory is
cloned and the two programs run, in any order: every access is answered, and the answers are the
same for `clone_directory` and for `clone_directory_no_cow`. -/
theorem fork_isolation (hboot : Booted c s) (S : SharedFrames c t f)
    (M : SharedMapped s c.baseDirectory t f) (hrun : Relation.ReflTransGen (ProperStep c) ⟨s, ∅⟩ m)
    (hd : d ∈ m.live) (backing : Side → ℕ → Backing) (rs : List Request) (hfuel : 2 ≤ fuel) :
    ∃ answers, .faulting ∉ answers ∧
      Ends OutOfFrames (forkRun cloneDirectory c fuel backing d rs) m.vm (fun found _ => found = answers) ∧
      Ends OutOfFrames (forkRun cloneDirectoryNoCow c fuel backing d rs) m.vm fun found _ => found =
        answers := by
  obtain ⟨G, h⟩ := hboot.run hrun
  obtain ⟨fuel, rfl⟩ := Nat.exists_eq_add_of_le' hfuel
  have hdir := (h.dirs d).mpr hd
  have M' := h.sharedMapped S M hd
  refine ⟨_, runs_ne_faulting (m.vm.mem c.zeroFrame) backing rs (forked m.vm d f), ?_, ?_⟩
  · exact forkRun_answers (cloneDirectory_cloned h.sound h.even le_rfl hdir) S M' backing rs fuel
  · exact forkRun_answers (cloneDirectoryNoCow_cloned h.sound hdir) S M' backing rs fuel

theorem bootConfig_shared : SharedFrames bootConfig 3 4 :=
  ⟨show 3 < 8 by omega, show 4 < 8 by omega, show 3 ≠ 1 by omega, show 4 ≠ 1 by omega,
    show 4 ≠ 2 by omega, show 4 ≠ 3 by omega⟩

theorem bootState_shared : SharedMapped bootState bootConfig.baseDirectory 3 4 :=
  ⟨by decide, by decide, by decide, by decide⟩

theorem fork_isolation_forked :
    ∃ m e t, Relation.ReflTransGen (ProperStep bootConfig) ⟨bootState, ∅⟩ m ∧
    m.live = {e, 8} ∧ e ≠ 8 ∧
    (∀ d ∈ m.live, tgt (m.vm.mem d (dirIndex (0x80000000 / frameSize))) = some t) ∧
      ∃ answers, .faulting ∉ answers ∧
      Ends OutOfFrames (forkRun cloneDirectory bootConfig 2 (fun _ _ => .anonymous) 8
        [⟨.parent, 0x80000000, .write 1#8⟩, ⟨.child, 0x80000000, .read⟩]) m.vm
          (fun found _ => found = answers) ∧
      Ends OutOfFrames (forkRun cloneDirectoryNoCow bootConfig 2 (fun _ _ => .anonymous) 8
        [⟨.parent, 0x80000000, .write 1#8⟩, ⟨.child, 0x80000000, .read⟩]) m.vm fun found _ =>
          found = answers := by
  obtain ⟨m, e, t, hrun, hlive, hne, hshare⟩ := bootState_forked
  exact ⟨m, e, t, hrun, hlive, hne, hshare,
    fork_isolation bootState_booted bootConfig_shared bootState_shared hrun
    (by simp [hlive]) _ _ le_rfl⟩

end Fork

/-! ### A page table without a count -/

section Leak

variable {z : ℕ}

/-- **What a first read leaves**: a page table that one entry of the directory targets, read-only
and without a count, and in it the zero frame as a page. -/
structure Loose (c : Config) (s : Vm) (d : ℕ) (i j : Index) (t : ℕ) : Prop where
  pde : entryRef (s.mem d i) = some (t, false)
  others : ∀ i', isUser i' = true → i' ≠ i → tgt (s.mem d i') ≠ some t
  count : s.refCounts t = 0
  pte : entryRef (s.mem t j) = some (c.zeroFrame, false)
  zero_count : s.refCounts c.zeroFrame ≠ 1

/-- **What a clone makes of it**: two entries target the table, and its count is one. -/
structure Miscounted (c : Config) (s : Vm) (d e : ℕ) (i j : Index) (t : ℕ) : Prop where
  old : entryRef (s.mem d i) = some (t, false)
  new : entryRef (s.mem e i) = some (t, false)
  count : s.refCounts t = 1
  pte : entryRef (s.mem t j) = some (c.zeroFrame, false)
  zero_count : s.refCounts c.zeroFrame ≠ 1

theorem Loose.gain (h : Loose c s d i j t) (hi : isUser i = true) :
    ((List.finRange 1024).map fun i' => cloneTurn.gain i' (s.mem d i') t).sum = 1 := by
  obtain ⟨hp, hr⟩ := entryRef_eq_some.mp h.pde
  obtain ⟨hpresent, hpage⟩ := tgt_eq_some.mp hp
  rw [← Fin.sum_univ_def, Finset.sum_eq_single i]
  · show (if isUser i then refGain (s.mem d i) t else 0) = 1
    rw [if_pos hi, refGain_ro hpresent hr, if_pos hpage.symm]
  · intro i' _ hne
    show (if isUser i' then refGain (s.mem d i') t else 0) = 0
    split_ifs with hi'
    · exact refGain_of_ne (h.others i' hi' hne)
    · rfl
  · exact fun hmem => absurd (Finset.mem_univ i) hmem

theorem Sound.zero_gain (H : Sound c G s) (hd : G.kind d = .dir) :
    ((List.finRange 1024).map fun i' => cloneTurn.gain i' (s.mem d i') c.zeroFrame).sum = 0 := by
  rw [← Fin.sum_univ_def]
  refine Finset.sum_eq_zero fun i' _ => ?_
  show (if isUser i' then refGain (s.mem d i') c.zeroFrame else 0) = 0
  split_ifs with hi'
  · refine refGain_of_ne fun hzero => ?_
    have hkind := H.pde hd hi' hzero
    rw [H.kind_zero] at hkind
    cases hkind
  · rfl

theorem Loose.clone (h : Loose c s d i j t) (H : Sound c G s) (hd : G.kind d = .dir)
    (hi : isUser i = true) (hroom : Room (1 + 1) s) :
    ∃ s₁, cloneDirectory d s = .ok (s.avail, s₁) ∧ s₁.avail = s.avail + 1 ∧ Room (1 + 0) s₁ ∧
      Miscounted c s₁ d s.avail i j t := by
  have hkt := H.pde hd hi (entryRef_eq_some.mp h.pde).1
  have hdlt := (H.range d (by simp [hd])).2
  have htlt := (H.range t (by simp [hkt])).2
  have hde : d ≠ s.avail := by omega
  have hte : t ≠ s.avail := by omega
  have htd : t ≠ d := by
    rintro rfl
    rw [hd] at hkt
    cases hkt
  have hrow : s.takeNext.mem d = s.mem d := setRow_of_ne hde
  have hclone : cloneDirectory d s = .ok (s.avail,
      s.takeNext.double cloneTurn d s.avail (List.finRange 1024)) := by
    rw [cloneDirectory, bind_of_eq (allocFrame_next hroom), bind_of_eq (cloneLoop_eq hde _)]
    rfl
  have D := doubled_dir (s := s.takeNext) hd hde
  have hcounts : ∀ n, (s.takeNext.double cloneTurn d s.avail (List.finRange 1024)).refCounts n =
      s.refCounts n + ((List.finRange 1024).map fun i' =>
        cloneTurn.gain i' (s.mem d i') n).sum := fun n => by
    rw [← hrow]
    rfl
  refine ⟨_, hclone, D.avail, ⟨D.firstFree.trans hroom.takeNext.1, ?_⟩, ?_, ?_, ?_, ?_, ?_⟩
  · rw [D.avail, D.limit]
    exact hroom.takeNext.2
  · rw [D.old i (.inl ⟨hd, hi⟩), hrow, h.pde]
    rfl
  · rw [D.new i (.inl ⟨hd, hi⟩), hrow, h.pde]
    rfl
  · rw [hcounts, h.count, h.gain hi, zero_add]
  · rw [D.rows t htd hte, show s.takeNext.mem t = s.mem t from setRow_of_ne hte]
    exact h.pte
  · rw [hcounts, H.zero_gain hd, add_zero]
    exact h.zero_count

/-- **The write fault of one side** takes the table for its own, and puts the new page into both
address spaces. -/
theorem Miscounted.fault (backing : Backing) (fromUser : Bool) (hlow : userMemStart ≤ a)
    (hhigh : a < sharedAddress)
    (h : Miscounted c s d e (dirIndex (a / frameSize)) (tableIndex (a / frameSize)) t)
    (hroom : Room (1 + 0) s) (hlimit : s.avail < frameLimit) (hd : d < s.avail) (he : e < s.avail)
    (ht : t < s.avail) (hde : e ≠ d) (hdt : d ≠ t) (het : e ≠ t) (hz : t ≠ c.zeroFrame) :
    ∃ s', wrappedPageFault c d a true true fromUser backing s = .ok (.returned, s') ∧
      entryRef (s'.mem d (dirIndex (a / frameSize))) = some (t, true) ∧
      entryRef (s'.mem e (dirIndex (a / frameSize))) = some (t, false) ∧
      entryRef (s'.mem t (tableIndex (a / frameSize))) = some (s.avail, true) := by
  obtain ⟨hold, holdRo⟩ := entryRef_eq_some.mp h.old
  obtain ⟨hpte, hpteRo⟩ := entryRef_eq_some.mp h.pte
  set i := dirIndex (a / frameSize)
  set j := tableIndex (a / frameSize)
  -- the table: its count goes to zero, and the entry becomes writable
  set s₁ := (s.addCount t (-1)).setWord d i (s.mem d i ||| flagRw) with hs₁
  have htable : getPageTable (a / frameSize) d s = .ok (some t, s₁) := by
    rw [getPageTable, getPageDirectoryEntry, bind_assoc, bind_of_eq (copy_flip hold holdRo h.count)]
    show Except.ok (tgt (s₁.mem d i), s₁) = _
    rw [hs₁, setWord_self, tgt_setRw, hold]
  -- the page: the zero frame is copied
  have hrow : s₁.mem t = s.mem t := setWord_row (Ne.symm hdt)
  have hcount : s₁.refCounts c.zeroFrame ≠ 1 := by
    rw [show s₁.refCounts c.zeroFrame = s.refCounts c.zeroFrame from addCount_of_ne (Ne.symm hz)]
    exact h.zero_count
  have hnext : ∀ n, n < s.avail → s₁.takeNext.mem n = s₁.mem n := fun n hn => setRow_of_ne (by
    show n ≠ s.avail
    omega)
  have hcopy := copy_data_eq (hrow ▸ hpte) (hrow ▸ hpteRo) hcount
    (allocFrame_next (k := 0) hroom) (hnext t ht) (show t ≠ s.avail by omega)
  have hrun : wrappedPageFault c d a true true fromUser backing s = .ok (.returned,
      ((s₁.takeNext.setRow s.avail (s₁.takeNext.mem c.zeroFrame)).addCount c.zeroFrame (-1)).setWord t j
        (redirected (s₁.mem t j) s.avail)) := by
    rw [wrappedPageFault_eq hlow hhigh, Bool.true_and, if_pos rfl, bind_of_eq htable]
    show (copy t j false >>= fun _ => pure FaultEnd.returned : Code FaultEnd) s₁ = _
    exact bind_of_eq hcopy
  have hrows : ∀ n, n < s.avail → n ≠ t →
      (((s₁.takeNext.setRow s.avail (s₁.takeNext.mem c.zeroFrame)).addCount c.zeroFrame (-1)).setWord t j
        (redirected (s₁.mem t j) s.avail)).mem n = s₁.mem n := fun n hn hnt => by
    rw [setWord_row hnt]
    exact (setRow_of_ne (by omega)).trans (hnext n hn)
  refine ⟨_, hrun, ?_, ?_, ?_⟩
  · rw [hrows d hd hdt, hs₁, setWord_self]
    exact entryRef_eq_some.mpr ⟨(tgt_setRw _).trans hold, isRw_setRw _⟩
  · rw [hrows e he het, hs₁, setWord_row hde]
    exact h.new
  · rw [setWord_self]
    exact entryRef_eq_some.mpr ⟨tgt_redirected hlimit (hrow ▸ hpte), isRw_redirected _ _⟩

theorem walk_refs {rw₁ rw₂ : Bool} (hpde : entryRef (s.mem d (dirIndex (a / frameSize))) = some (t, rw₁))
    (hpte : entryRef (s.mem t (tableIndex (a / frameSize))) = some (f, rw₂)) (isWrite : Bool) :
    walk s d a isWrite = if isWrite && !(rw₁ && rw₂) then .error true else .ok f := by
  obtain ⟨hp, rfl⟩ := entryRef_eq_some.mp hpde
  obtain ⟨hf, rfl⟩ := entryRef_eq_some.mp hpte
  unfold walk
  simp only [hp, hf]

theorem userRun_cons {backing : Side → ℕ → Backing} {directory : Side → ℕ} {r : Request} {rs : List Request}
    {answer : AccessEnd} {answers : List AccessEnd}
    (h : userAccess c (backing r.side) (directory r.side) r.address r.access fuel s = .ok (answer, s₁))
    (hs : userRun c fuel backing directory rs s₁ = .ok (answers, s')) :
    userRun c fuel backing directory (r :: rs) s = .ok (answer :: answers, s') :=
  (bind_of_eq h).trans (bind_of_eq hs)

/-- **The child reads what the parent writes.** -/
theorem Loose.leaks (H : Sound c G s) (hd : G.kind d = .dir) (hlow : userMemStart ≤ a)
    (hhigh : a < sharedAddress)
    (h : Loose c s d (dirIndex (a / frameSize)) (tableIndex (a / frameSize)) t)
    (hroom : Room (1 + 1) s) (backing : Side → ℕ → Backing) (b : BitVec 8) :
    ∃ s', forkRun cloneDirectory c 2 backing d [⟨.parent, a, .write b⟩, ⟨.child, a, .read⟩] s =
      .ok ([.stored, .value b], s') := by
  have hi : isUser (dirIndex (a / frameSize)) = true := dirIndex_isUser hlow hhigh
  have hin : userMemStart ≤ a ∧ a < userMemEnd := ⟨hlow, by unfold userMemEnd; omega⟩
  have hkt := H.pde hd hi (entryRef_eq_some.mp h.pde).1
  have hdlt := (H.range d (by simp [hd])).2
  have htlt := (H.range t (by simp [hkt])).2
  have hdt : d ≠ t := by
    rintro rfl
    rw [hd] at hkt
    cases hkt
  have htz : t ≠ c.zeroFrame := by
    rintro rfl
    rw [H.kind_zero] at hkt
    cases hkt
  have hlimit : s.avail + 1 < frameLimit := by
    have h1 := hroom.2
    have h2 := H.limit_le
    omega
  obtain ⟨s₁, hclone, havail, hroom₁, M⟩ := h.clone H hd hi hroom
  obtain ⟨s₂, hfault, hold, hnew, hpage⟩ := M.fault (backing .parent a) true hlow hhigh hroom₁
    (by omega) (by omega) (by omega) (by omega) (by omega) hdt (by omega) htz
  rw [havail] at hpage
  set s₃ := s₂.setRow (s.avail + 1) (putByte (s₂.mem (s.avail + 1)) (a % frameSize) b) with hs₃
  have hdenied : walk s₁ d a (Access.write b).isWrite = .error true := walk_refs M.old M.pte true
  have hfound : walk s₂ d a (Access.write b).isWrite = .ok (s.avail + 1) := walk_refs hold hpage true
  have hparent : userAccess c (backing .parent) d a (.write b) 2 s₁ = .ok (.stored, s₃) := by
    rw [userAccess, if_pos hin, access_succ hdenied]
    have htouch := touch_eq (s.avail + 1) (a % frameSize) (.write b) s₂
    exact (bind_of_eq hfault).trans ((access_succ hfound 0).trans htouch)
  have hread : walk s₃ s.avail a Access.read.isWrite = .ok (s.avail + 1) := by
    have hchildRow : s₃.mem s.avail = s₂.mem s.avail := setRow_of_ne (by omega)
    have htableRow : s₃.mem t = s₂.mem t := setRow_of_ne (by omega)
    exact walk_refs (hchildRow ▸ hnew) (htableRow ▸ hpage) false
  have hchild : userAccess c (backing .child) s.avail a .read 2 s₃ = .ok (.value b, s₃) := by
    rw [userAccess, if_pos hin, access_succ hread]
    show Except.ok (AccessEnd.value (getByte (s₃.mem (s.avail + 1)) (a % frameSize)), s₃) = _
    rw [hs₃, setRow_self, getByte_putByte]
  exact ⟨s₃, (bind_of_eq hclone).trans (userRun_cons hparent (userRun_cons hchild rfl))⟩

/-- **The first read of an anonymous page** in a region without a page table leaves such a table. -/
theorem firstRead_loose {k : ℕ} (H : Sound c G s) (hd : G.kind d = .dir) (hlow : userMemStart ≤ a)
    (hhigh : a < sharedAddress) (hnone : tgt (s.mem d (dirIndex (a / frameSize))) = none)
    (hzero : s.refCounts c.zeroFrame ≠ 0) (hroom : Room (1 + k) s) (fromUser : Bool) :
    ∃ s', wrappedPageFault c d a false false fromUser .anonymous s = .ok (.returned, s') ∧ Room k s' ∧
      Loose c s' d (dirIndex (a / frameSize)) (tableIndex (a / frameSize)) s.avail := by
  set i := dirIndex (a / frameSize)
  set j := tableIndex (a / frameSize)
  have hdlt := (H.range d (by simp [hd])).2
  have hdt : d ≠ s.avail := by omega
  have hpool := H.pool_le
  have hz := H.zero_lt
  have hlimit : s.avail < frameLimit := by
    have h1 := hroom.2
    have h2 := H.limit_le
    omega
  have T : Taken c G s s.avail _ := H.alloc_next (by have := hroom.2; omega)
  have hmap := mapAddress_of_none (w := flagPr ||| flagUs) (s := s.addCount c.zeroFrame 1)
    hnone H.zero_lt_limit
    (allocFrame_next (k := k) (s := s.addCount c.zeroFrame 1) hroom) (setRow_of_ne hdt)
  have hrun : wrappedPageFault c d a false false fromUser .anonymous s = .ok (.returned,
      ((s.addCount c.zeroFrame 1).takeNext.setWord d i
        (frameAddr s.avail ||| (flagPr ||| flagUs))).setWord s.avail j
        (frameAddr c.zeroFrame ||| (flagPr ||| flagUs))) := by
    rw [wrappedPageFault_eq hlow hhigh, Bool.false_and, if_neg Bool.false_ne_true]
    show (refZeroFrame c >>= fun _ => mapAddress a (frameAddr c.zeroFrame) (flagPr ||| flagUs)
        d >>= fun _ =>
      pure FaultEnd.returned : Code FaultEnd) s = _
    have href : refZeroFrame c s = .ok ((), s.addCount c.zeroFrame 1) := rfl
    exact (bind_of_eq href).trans (bind_of_eq hmap)
  refine ⟨_, hrun, Room.takeNext (s := s.addCount c.zeroFrame 1) hroom, ?_, ?_, ?_, ?_, ?_⟩
  · rw [setWord_of_ne (.inl hdt), setWord_self]
    refine entryRef_eq_some.mpr ⟨tgt_frame_flags hlimit (by decide) (by decide), ?_⟩
    rw [isRw_frame_flags hlimit]
    decide
  · intro i' hi' hne htgt
    have hrow : (s.addCount c.zeroFrame 1).takeNext.mem d = s.mem d := setRow_of_ne hdt
    rw [setWord_of_ne (.inl hdt), setWord_of_ne (.inr hne), hrow] at htgt
    have hkind := H.pde hd hi' htgt
    have := (H.range s.avail (by simp [hkind])).2
    omega
  · exact (addCount_of_ne (by omega)).trans T.count
  · rw [setWord_self]
    refine entryRef_eq_some.mpr ⟨tgt_frame_flags H.zero_lt_limit (by decide) (by decide), ?_⟩
    rw [isRw_frame_flags H.zero_lt_limit]
    decide
  · show (s.addCount c.zeroFrame 1).refCounts c.zeroFrame ≠ 1
    rw [addCount_self]
    omega

/-! ### The frames that the runs take -/

theorem takes_touch (f offset : ℕ) (acc : Access) : Takes 0 (touch f offset acc) :=
  spends_zero fun s => ends_of_eq (touch_eq f offset acc s) fun _ hs => hs

theorem takes_access (c : Config) (backing : ℕ → Backing) (d a : ℕ) (acc : Access) :
    ∀ fuel, Takes (fuel * 4) (access c backing d a acc fuel)
  | 0 => (takes_pure _).mono (Nat.zero_le _)
  | fuel + 1 => by
    have hafter : ∀ found, Takes ((fuel + 1) * 4) (afterWalk c backing d a acc fuel found) :=
      fun found => by
      cases found with
      | ok f => exact (takes_touch _ _ _).mono (Nat.zero_le _)
      | error present =>
        refine Takes.mono (k := 4 + fuel * 4) ?_ (by omega)
        refine takes_bind (takes_wrappedPageFault d c a present _ true _) fun result => ?_
        cases result with
        | returned => exact takes_access c backing d a acc fuel
        | segfault | rerun => exact (takes_pure _).mono (Nat.zero_le _)
    intro k s hs
    unfold Ends
    rw [access_succ rfl fuel]
    exact hafter _ k s hs

theorem takes_userRun (c : Config) (fuel : ℕ) (backing : Side → ℕ → Backing) (directory : Side → ℕ) :
    ∀ rs : List Request, Takes (rs.length * (fuel * 4)) (userRun c fuel backing directory rs)
  | [] => (takes_pure _).mono (Nat.zero_le _)
  | r :: rs => by
    have hfirst : Takes (fuel * 4)
        (userAccess c (backing r.side) (directory r.side) r.address r.access fuel) := by
      unfold userAccess
      split
      · exact takes_access _ _ _ _ _ fuel
      · exact (takes_pure _).mono (Nat.zero_le _)
    rw [List.length_cons, Nat.succ_mul, Nat.add_comm]
    refine takes_bind hfirst fun answer => ?_
    exact takes_bind (l := 0) (takes_userRun c fuel backing directory rs) fun _ => takes_pure _

theorem takes_eagerFork (c : Config) (fuel : ℕ) (backing : Side → ℕ → Backing) (d : ℕ) (rs : List Request) :
    Takes (459201 + rs.length * (fuel * 4)) (forkRun cloneDirectoryNoCow c fuel backing d rs) :=
  takes_bind (takes_cloneDirectoryNoCow d) fun e => takes_userRun c fuel backing (Side.directory d e) rs

/-! A machine as large as can be. -/

def wideState : Vm := { bootState with limit := frameLimit }

theorem wideState_booted : Booted bootConfig wideState :=
  { bootState_booted with
    avail_le := show 8 ≤ 1048576 by omega
    limit_le := le_rfl }

theorem wideState_first : ∃ s, newDirectory bootConfig wideState = .ok (8, s) ∧ s.refCounts 1 = 1 ∧
    Room (1 + 500000) s :=
  ⟨_, rfl, rfl, rfl, show 9 + (1 + 500000) ≤ 1048576 by omega⟩

theorem runs_apart {V : Views} (zero : Row) (backing : Side → ℕ → Backing) (hlow : userMemStart ≤ a)
    (hhigh : a < sharedAddress)
    (hpage : ∀ side, V.pages side (dirIndex (a / frameSize)) (tableIndex (a / frameSize)) =
      some row) (b : BitVec 8) :
    (runs (Views.access zero backing) V [⟨.parent, a, .write b⟩, ⟨.child, a, .read⟩]).1 =
      [.stored, .value (getByte row (a % frameSize))] := by
  have hfirst := V.access_page zero backing (r := ⟨.parent, a, .write b⟩) hlow hhigh (hpage .parent)
  have hkept : (V.touch ⟨.parent, a, .write b⟩ row).2.pages .child (dirIndex (a / frameSize))
      (tableIndex (a / frameSize)) = some row :=
    (congrFun (congrFun (V.set_of_ne Side.noConfusion _ _ _) _) _).trans (hpage .child)
  have hsecond := (V.touch ⟨.parent, a, .write b⟩ row).2.access_page zero backing
    (r := ⟨.child, a, .read⟩) hlow hhigh hkept
  show [(V.access zero backing ⟨.parent, a, .write b⟩).1,
    ((V.access zero backing ⟨.parent, a, .write b⟩).2.access zero backing ⟨.child, a, .read⟩).1] = _
  rw [hfirst, hsecond]
  rfl

/-- **A directory is made, its first anonymous page is read, and it is cloned**: the child reads the
byte that the parent writes, and with an eager clone it reads zero. -/
theorem fork_leaks : Booted bootConfig wideState ∧ SharedFrames bootConfig 3 4 ∧
    SharedMapped wideState bootConfig.baseDirectory 3 4 ∧
    ∃ m, Relation.ReflTransGen (fun m m' => ∃ op, op.InUserMemory ∧
      Step bootConfig m op m') ⟨wideState, ∅⟩ m ∧
      8 ∈ m.live ∧ ∃ s₁ s₂,
        forkRun cloneDirectory bootConfig 2 (fun _ _ => .anonymous) 8
          [⟨.parent, 0x80000000, .write 1#8⟩, ⟨.child, 0x80000000, .read⟩] m.vm =
            .ok ([.stored, .value 1#8], s₁) ∧
        forkRun cloneDirectoryNoCow bootConfig 2 (fun _ _ => .anonymous) 8
          [⟨.parent, 0x80000000, .write 1#8⟩, ⟨.child, 0x80000000, .read⟩] m.vm =
            .ok ([.stored, .value 0#8], s₂) := by
  obtain ⟨s, hrun, hcount, hroom⟩ := wideState_first
  have S := bootConfig_shared
  have M : SharedMapped wideState bootConfig.baseDirectory 3 4 := bootState_shared.congr rfl rfl
  have hstep : Step bootConfig ⟨wideState, ∅⟩ .newDirectory ⟨s, insert 8 ∅⟩ := .newDirectory hrun
  obtain ⟨G, A, hkernel, hempty⟩ := (newDirectory_added wideState_booted.standing.sound).ok hrun
  have hstanding := wideState_booted.standing.added A trivial hkernel
  have hlive : 8 ∈ insert 8 (∅ : Finset ℕ) := Finset.mem_insert_self 8 ∅
  have hdir : G.kind 8 = .dir := (A.dirs 8).mpr (.inr rfl)
  have hzero : s.mem bootConfig.zeroFrame = fun _ => 0#32 := A.low 1 (show 1 < 8 by omega)
  -- the first read
  have hlow : userMemStart ≤ 0x80000000 := by decide
  have hhigh : 0x80000000 < sharedAddress := by decide
  have hnone : tgt (s.mem 8 (dirIndex (0x80000000 / frameSize))) = none := hempty _ (by decide)
  have habsent : space s 8 (dirIndex (0x80000000 / frameSize))
      (tableIndex (0x80000000 / frameSize)) = none :=
    congrFun (space_none hnone) _
  obtain ⟨s', hfault, hroom', L⟩ := firstRead_loose A.sound hdir hlow hhigh hnone
    (by rw [show s.refCounts bootConfig.zeroFrame = 1 from hcount]; decide) hroom true
  have hread : Step bootConfig ⟨s, insert 8 ∅⟩ (.pageFault 8 0x80000000 false true .anonymous)
      ⟨s', insert 8 ∅⟩ :=
    .pageFault hlive (walk_of_none hnone false) hfault
  obtain ⟨-, G', P, -⟩ := (pageFault_absent A.sound hdir hlow hhigh habsent).ok hfault
  have hdir' := (P.dirs 8).mpr hdir
  have M' := (hstanding.sharedMapped S M hlive).congr (P.kernel 8 _ hdir shared_not_user)
    (P.low 3 S.table_lt S.table_zero)
  -- the two forks
  obtain ⟨s₁, hcow⟩ := L.leaks P.sound hdir' hlow hhigh (room_antitone (by omega) _ hroom')
      (fun _ _ => .anonymous) 1#8
  obtain ⟨answers, s₂, heager, hanswers⟩ := (takes_eagerFork bootConfig 2 (fun _ _ => .anonymous) 8
    [⟨.parent, 0x80000000, .write 1#8⟩, ⟨.child, 0x80000000, .read⟩]).returns
    (room_antitone (show 459201 + 2 * (2 * 4) ≤ 500000 by omega) _ hroom')
    (forkRun_answers (cloneDirectoryNoCow_cloned P.sound hdir') S M' _ _ 0)
  rw [runs_apart _ _ hlow hhigh (fun _ => P.page)] at hanswers
  subst hanswers
  refine ⟨wideState_booted, S, M, ⟨s', insert 8 ∅⟩, ?_, hlive, s₁, s₂, hcow, ?_⟩
  · exact .tail (.single ⟨.newDirectory, trivial, hstep⟩)
      ⟨.pageFault 8 0x80000000 false true .anonymous, trivial, hread⟩
  · rw [heager, hzero]
    rfl

end Leak

end GheithOS.Vmm
