import GheithOS.Vmm.Budget
import GheithOS.Vmm.Exactness
import GheithOS.Vmm.StackPages

/-!
# GheithOS.Vmm.Runs — the machine from the end of `global_init` on

The operations of `vmm.cc`, one at a time: directories are made, cloned and freed, stacks are set
up, ranges are unmapped, and page faults are handled as the hardware raises them.  `Standing` is the
invariant of such runs.  It is kept by every operation inside user memory but the first read of an
anonymous page in a region without a page table, and that one always breaks the reference counts
(`accounted_run`).
-/

namespace GheithOS.Vmm

open Cow Lib
open MemoryMapping (userMemStart sharedAddress)

variable {c : Config} {G G' : Ghost} {s s₀ s₁ s' : Vm} {ok : Prop} {n d d' t f a : ℕ} {i j : Index}

/-! ### The machine -/

/-- **The end of `global_init`**: no frame of the pool is taken, only the zero frame has a
reference, and the base directory maps the shared page and no user memory. -/
structure Booted (c : Config) (s : Vm) : Prop where
  firstFree : s.firstFree = none
  avail : s.avail = c.pool
  avail_le : s.avail ≤ s.limit
  limit_le : s.limit ≤ frameLimit
  zero_pos : 0 < c.zeroFrame
  zero_lt : c.zeroFrame < c.pool
  base_lt : c.baseDirectory < c.pool
  zero_base : c.zeroFrame ≠ c.baseDirectory
  counts : ∀ n, s.refCounts n = if n = c.zeroFrame then 1 else 0
  base : ∀ i, isUser i = true → tgt (s.mem c.baseDirectory i) = none
  shared : ∃ t f, tgt (s.mem c.baseDirectory (dirIndex (sharedAddress / frameSize))) = some t ∧
    isRw (s.mem c.baseDirectory (dirIndex (sharedAddress / frameSize))) = true ∧ t < c.pool ∧
    t ≠ c.zeroFrame ∧ tgt (s.mem t (tableIndex (sharedAddress / frameSize))) = some f ∧
    isRw (s.mem t (tableIndex (sharedAddress / frameSize))) = true

/-- The memory, and the directories that have been returned and not yet been freed. -/
structure Machine where
  vm : Vm
  live : Finset ℕ

/-- What the rest of the kernel does with the virtual memory. -/
inductive Op
  | newDirectory
  | setUpStack (directory : ℕ) (argv envp : List (List (BitVec 8)))
  | pageFault (directory address : ℕ) (isWrite fromUser : Bool) (backing : Backing)
  | cloneDirectory (directory : ℕ)
  | unmapPages (directory start size : ℕ)
  | freeDirectory (directory : ℕ)

/-- **One operation.**  A page fault is one that the hardware raises, with the present bit that it
has found. -/
inductive Step (c : Config) (m : Machine) : Op → Machine → Prop
  | newDirectory {d : ℕ} {s : Vm} (hrun : newDirectory c m.vm = .ok (d, s)) :
      Step c m .newDirectory ⟨s, insert d m.live⟩
  | setUpStack {d sp : ℕ} {argv envp : List (List (BitVec 8))} {s : Vm} (hd : d ∈ m.live)
      (hrun : setUpStack d (totalLength argv envp) argv envp m.vm = .ok (sp, s)) :
      Step c m (.setUpStack d argv envp) ⟨s, m.live⟩
  | pageFault {d a : ℕ} {isPresent isWrite fromUser : Bool} {backing : Backing} {e : FaultEnd}
      {s : Vm} (hd : d ∈ m.live)
      (hwalk : walk m.vm d a isWrite = .error isPresent)
      (hrun : wrappedPageFault c d a isPresent isWrite fromUser backing m.vm = .ok (e, s)) :
      Step c m (.pageFault d a isWrite fromUser backing) ⟨s, m.live⟩
  | cloneDirectory {d d' : ℕ} {s : Vm} (hd : d ∈ m.live) (hrun : cloneDirectory d m.vm = .ok (d', s)) :
      Step c m (.cloneDirectory d) ⟨s, insert d' m.live⟩
  | unmapPages {d start size : ℕ} {s : Vm} (hd : d ∈ m.live) (hrun : unmapPages start size d m.vm =
      .ok ((), s)) :
      Step c m (.unmapPages d start size) ⟨s, m.live⟩
  | freeDirectory {d : ℕ} {s : Vm} (hd : d ∈ m.live) (hrun : freeDirectory c d m.vm = .ok ((), s)) :
      Step c m (.freeDirectory d) ⟨s, m.live.erase d⟩

/-- What is written for a stack, and what is unmapped, lies in user memory. -/
def Op.InUserMemory : Op → Prop
  | .setUpStack _ argv envp => bytesRequired argv envp ≤ sharedAddress - userMemStart
  | .unmapPages _ start size => userMemStart ≤ start ∧ start + size ≤ sharedAddress
  | _ => True

/-- The first read of an anonymous page in a region that has no page table. -/
def FirstRead (m : Machine) : Op → Prop
  | .pageFault d a isWrite _ backing => userMemStart ≤ a ∧ a < sharedAddress ∧
      FreshRead m.vm d a isWrite backing
  | _ => False

/-- A step inside user memory that is not such a first read. -/
def ProperStep (c : Config) (m m' : Machine) : Prop :=
  ∃ op, op.InUserMemory ∧ ¬ FirstRead m op ∧ Step c m op m'

/-! ### The invariant -/

/-- **What holds all along**: the counts are exact, nothing is lost, the live directories are the
directories of the ghost, and the kernel's part of memory is what it was at first. -/
structure Standing (c : Config) (s₀ : Vm) (m : Machine) (G : Ghost) : Prop where
  sound : Sound c G m.vm
  even : Even c 1 G m.vm
  noLeak : NoLeak c G m.vm
  hands : ∀ n, G.kind n ≠ .limbo
  dirs : ∀ n, G.kind n = .dir ↔ n ∈ m.live
  low : ∀ n, n < c.pool → n ≠ c.zeroFrame → m.vm.mem n = s₀.mem n
  kernel : ∀ d ∈ m.live, ∀ i, isUser i = false → m.vm.mem d i = s₀.mem c.baseDirectory i

/-- The ghost at first. -/
def bootGhost (c : Config) : Ghost := ⟨fun _ => .out, [], fun n => if n = c.zeroFrame then 1 else 0⟩

theorem Booted.standing (h : Booted c s) : Standing c s ⟨s, ∅⟩ (bootGhost c) := by
  have hpool : Pool c (bootGhost c) s := {
    chain := by
      rw [h.firstFree]
      trivial
    nodup := List.nodup_nil
    free_iff := fun n => by simp [bootGhost]
    range := fun n hn => absurd rfl hn
    pool_le := h.avail.ge
    avail_le := h.avail_le
    limit_le := h.limit_le
    zero_lt := h.zero_lt
    base_lt := h.base_lt }
  have hro : ReadOnly c (bootGhost c) s :=
    readOnly_of_empty hpool (fun n i hn => by simp [Holds, bootGhost] at hn) h.base h.counts fun n => rfl
  refine ⟨hro.sound, hro.even, ⟨fun n h1 h2 => ?_, fun n hn => ?_⟩, fun n => ?_, fun n => ?_,
    fun _ _ _ => rfl, fun d hd => ?_⟩
  · have h3 : n < s.avail := h2
    have h4 := h.avail
    omega
  · simp [bootGhost] at hn
  · simp [bootGhost]
  · simp [bootGhost]
  · simp at hd

namespace Standing

variable {m m' : Machine}

theorem accounted (h : Standing c s₀ m G) : Accounted c m.live m.vm :=
  accounted_of_sound h.sound h.noLeak h.dirs h.even h.hands

theorem keeps (h : Standing c s₀ m G) (K : Keeps ok c G m.vm G' s') (hok : ok) :
    Standing c s₀ ⟨s', m.live⟩ G' where
  sound := K.sound
  even := K.even hok 1 le_rfl h.even
  noLeak := K.noLeak hok 1 le_rfl h.even h.noLeak
  hands n hn := h.hands n (K.hands n hn)
  dirs n := (K.dirs n).trans (h.dirs n)
  low n hn hz := (K.low n hn hz).trans (h.low n hn hz)
  kernel d hd i hi := (K.kernel d i ((h.dirs d).mpr hd) hi).trans (h.kernel d hd i hi)

theorem added (h : Standing c s₀ m G) (A : DirAdded ok c d G m.vm G' s') (hok : ok)
    (hkernel : ∀ i, isUser i = false → s'.mem d i = s₀.mem c.baseDirectory i) :
    Standing c s₀ ⟨s', insert d m.live⟩ G' where
  sound := A.sound
  even := A.even hok 1 h.even
  noLeak := A.noLeak hok h.noLeak
  hands n hn := h.hands n (A.hands n hn)
  dirs n := by
    rw [A.dirs, h.dirs, Finset.mem_insert, or_comm]
  low n hn hz := (A.low n hn).trans (h.low n hn hz)
  kernel d' hd' i hi := by
    rcases Finset.mem_insert.mp hd' with rfl | hd'
    · exact hkernel i hi
    · exact (A.kernel d' i ((h.dirs d').mpr hd') hi).trans (h.kernel d' hd' i hi)

theorem removed (h : Standing c s₀ m G) (R : DirRemoved c d G m.vm G' s') :
    Standing c s₀ ⟨s', m.live.erase d⟩ G' where
  sound := R.sound
  even := R.even 1 h.even
  noLeak := R.noLeak h.noLeak
  hands n hn := h.hands n (R.hands n hn)
  dirs n := by
    rw [R.dirs, h.dirs, Finset.mem_erase, and_comm]
  low n hn hz := (R.low n hn hz).trans (h.low n hn hz)
  kernel d' hd' i hi := by
    obtain ⟨hne, hd'⟩ := Finset.mem_erase.mp hd'
    exact (R.kernel d' i ((h.dirs d').mpr hd') hne hi).trans (h.kernel d' hd' i hi)

theorem shared_ok (hboot : Booted c s₀) (h : Standing c s₀ m G) (hd : d ∈ m.live) (hlow : sharedAddress ≤ a)
    (hhigh : a < userMemEnd) (isWrite : Bool) : ∃ f, walk m.vm d a isWrite = .ok f := by
  have hpage : a / frameSize = sharedAddress / frameSize := by
    unfold userMemEnd at hhigh
    unfold sharedAddress frameSize at *
    omega
  obtain ⟨t, f, ht, hrw, hlt, hne, hf, hrw'⟩ := hboot.shared
  have hnot : isUser (dirIndex (sharedAddress / frameSize)) = false := by decide
  have hpde := h.kernel d hd _ hnot
  have hrow := h.low t hlt hne
  refine ⟨f, ?_⟩
  unfold walk
  rw [hpage, hpde]
  simp only [ht, hrow, hf, hrw, hrw', Bool.and_self, Bool.not_true, Bool.and_false,
    Bool.false_eq_true, ite_false]

/-- **Page faults**: all but a first read keep the invariant. -/
theorem pageFault {isPresent isWrite fromUser : Bool} {backing : Backing} {e : FaultEnd}
    (hboot : Booted c s₀) (h : Standing c s₀ m G) (hd : d ∈ m.live)
    (hwalk : walk m.vm d a isWrite = .error isPresent)
    (hrun : wrappedPageFault c d a isPresent isWrite fromUser backing m.vm = .ok (e, s'))
    (hfirst : ¬ (userMemStart ≤ a ∧ a < sharedAddress ∧ FreshRead m.vm d a isWrite backing)) :
    ∃ G', Standing c s₀ ⟨s', m.live⟩ G' ∧ ∀ d' i j, d' ∈ m.live → isUser i = true → space s' d' i j ≠ none →
      space m.vm d' i j ≠ none ∨ d' = d ∧ PageOf a i j ∧ backing ≠ .unmapped := by
  have hdir := (h.dirs d).mpr hd
  by_cases hout : a < userMemStart ∨ a ≥ userMemEnd
  · have hkernel : wrappedPageFault c d a isPresent isWrite fromUser backing =
        if fromUser then return .segfault else throw .kernelFault := if_pos hout
    rw [hkernel] at hrun
    cases fromUser with
    | true =>
      obtain rfl : m.vm = s' := (Prod.ext_iff.mp (Except.ok.inj hrun)).2
      exact ⟨G, h, fun _ _ _ _ _ hpage => .inl hpage⟩
    | false => cases hrun
  · obtain ⟨hlow, hend⟩ : userMemStart ≤ a ∧ a < userMemEnd := by omega
    by_cases hshared : sharedAddress ≤ a
    · obtain ⟨f, hf⟩ := h.shared_ok hboot hd hshared hend isWrite
      rw [hwalk] at hf
      cases hf
    · have hhigh : a < sharedAddress := by omega
      cases isPresent with
      | true =>
        obtain ⟨rfl, hpage⟩ := walk_denied hwalk
        obtain ⟨-, G', Q, -⟩ := (pageFault_present h.sound hdir hlow hhigh hpage).ok hrun
        refine ⟨G', h.keeps Q.toKeeps trivial, fun d' i j hd' hi hpage' => .inl ?_⟩
        rwa [Q.spaces d' i ((h.dirs d').mpr hd') hi] at hpage'
      | false =>
        have hend := (pageFault_absent h.sound hdir hlow hhigh (walk_absent hwalk)).ok hrun
        split at hend
        · rw [hend.2]
          exact ⟨G, h, fun _ _ _ _ _ hpage => .inl hpage⟩
        · next hcontents =>
          obtain ⟨-, G', P, -⟩ := hend
          refine ⟨G', h.keeps P.toKeeps fun hfresh => hfirst ⟨hlow, hhigh, hfresh⟩,
            fun d' i j hd' hi hpage => ?_⟩
          by_cases hthis : d' = d ∧ i = dirIndex (a / frameSize) ∧ j = tableIndex (a / frameSize)
          · refine .inr ⟨hthis.1, hthis.2, ?_⟩
            rintro rfl
            cases hcontents
          · exact .inl (P.rest d' i j ((h.dirs d').mpr hd') hi hthis ▸ hpage)

/-- **One step.** -/
theorem step (hboot : Booted c s₀) (h : Standing c s₀ m G) {op : Op} (huser : op.InUserMemory)
    (hfirst : ¬ FirstRead m op) (hstep : Step c m op m') : ∃ G', Standing c s₀ m' G' := by
  have hbase : m.vm.mem c.baseDirectory = s₀.mem c.baseDirectory :=
    h.low _ hboot.base_lt (Ne.symm hboot.zero_base)
  cases hstep with
  | newDirectory hrun =>
    obtain ⟨G', A, hkernel, -⟩ := (newDirectory_added h.sound).ok hrun
    exact ⟨G', h.added A trivial fun i hi => by rw [hkernel i hi, hbase]⟩
  | setUpStack hd hrun =>
    obtain ⟨G', K⟩ := (setUpStack_grown h.sound hboot.zero_pos hboot.zero_base ((h.dirs _).mpr hd) le_rfl
      (by decide) huser).ok hrun
    exact ⟨G', h.keeps K.toKeeps trivial⟩
  | pageFault hd hwalk hrun =>
    obtain ⟨G', h', -⟩ := h.pageFault hboot hd hwalk hrun hfirst
    exact ⟨G', h'⟩
  | cloneDirectory hd hrun =>
    obtain ⟨G', A, hkernel, -⟩ := (cloneDirectory_added h.sound h.even le_rfl ((h.dirs _).mpr hd)).ok hrun
    exact ⟨G', h.added A trivial fun i hi => by rw [hkernel i hi, h.kernel _ hd i hi]⟩
  | @unmapPages d start size s hd hrun =>
    rcases Nat.eq_zero_or_pos size with rfl | hsize
    · obtain rfl : m.vm = s := (Prod.ext_iff.mp (Except.ok.inj hrun)).2
      exact ⟨G, h⟩
    · obtain ⟨G', R⟩ :=
        (unmapPages_spec h.sound h.even le_rfl ((h.dirs d).mpr hd) huser.1 hsize huser.2).ok hrun
      exact ⟨G', h.keeps R.toKeeps trivial⟩
  | freeDirectory hd hrun =>
    obtain ⟨G', s', hrun', R⟩ := freeDirectory_removed h.sound h.even le_rfl ((h.dirs _).mpr hd)
    obtain rfl : s' = _ := (Prod.ext_iff.mp (Except.ok.inj (hrun'.symm.trans hrun))).2
    exact ⟨G', h.removed R⟩

end Standing

/-- **Runs.** -/
theorem Booted.run {m : Machine} (hboot : Booted c s)
    (hrun : Relation.ReflTransGen (ProperStep c) ⟨s, ∅⟩ m) : ∃ G, Standing c s m G := by
  induction hrun with
  | refl => exact ⟨_, hboot.standing⟩
  | tail _ hstep ih =>
    obtain ⟨G, h⟩ := ih
    obtain ⟨op, huser, hfirst, hstep⟩ := hstep
    exact h.step hboot huser hfirst hstep

/-! ### First reads -/

/-- **A first read in a region without a page table** leaves an entry of the directory that is
read-only, and a count of zero for its table. -/
theorem freshRead_uncounted (H : Sound c G s) (fromUser : Bool) (hd : G.kind d = .dir)
    (hlow : userMemStart ≤ a) (hhigh : a < sharedAddress)
    (hnone : tgt (s.mem d (dirIndex (a / frameSize))) = none) :
    Ends (fun e => allocFrame s = .error e) (wrappedPageFault c d a false false fromUser .anonymous)
      s fun _ s' =>
      ∃ t, t ≠ c.zeroFrame ∧ tgt (s'.mem d (dirIndex (a / frameSize))) = some t ∧
        isRw (s'.mem d (dirIndex (a / frameSize))) = false ∧ s'.refCounts t = 0 := by
  rw [wrappedPageFault_eq hlow hhigh, Bool.false_and, if_neg Bool.false_ne_true, if_neg Bool.false_ne_true]
  refine ends_bind (ends_of_eq rfl ?_)
  have hnone' : tgt ((s.addCount c.zeroFrame 1).mem d (dirIndex (a / frameSize))) = none := hnone
  rcases H.alloc with ⟨t, s₁, hs, T⟩ | hs
  · have hdt : d ≠ t := T.ne hd (by simp)
    have htz : t ≠ c.zeroFrame := Ne.symm (T.ne_zero H)
    have hmap := mapAddress_of_none (w := flagPr ||| flagUs) hnone' H.zero_lt_limit
      (allocFrame_addCount 1 hs) (T.rows d hdt)
    refine ends_bind (ends_of_eq hmap (ends_pure ⟨t, htz, ?_, ?_, ?_⟩))
    · rw [setWord_of_ne (.inl hdt), setWord_self, tgt_frame_flags T.lt (by decide) (by decide)]
    · rw [setWord_of_ne (.inl hdt), setWord_self, isRw_frame_flags T.lt]
      decide
    · show (s₁.addCount c.zeroFrame 1).refCounts t = 0
      rw [addCount_of_ne htz, T.counts, T.count]
  · unfold Ends
    rw [bind_of_error (mapAddress_error hnone' _ (allocFrame_addCount_error 1 hs))]
    exact hs

theorem not_accounted {live : Finset ℕ} (hd : d ∈ live) (hi : isUser i = true)
    (ht : tgt (s.mem d i) = some t) (hro : isRw (s.mem d i) = false) (hcount : s.refCounts t = 0) :
    ¬ Accounted c live s := by
  intro h
  have hmem : (d, i) ∈ targeting live s t := mem_targeting.mpr ⟨mem_liveEntries.mpr (.inl ⟨hd, hi⟩), ht⟩
  rcases h.counted t ⟨_, hmem⟩ with ⟨e, he, hrw, -⟩ | ⟨-, hcard⟩
  · obtain rfl : (d, i) = e := by rwa [he, Finset.mem_singleton] at hmem
    rw [hro] at hrw
    cases hrw
  · have hpos := Finset.card_pos.mpr ⟨_, hmem⟩
    rw [hcount] at hcard
    split_ifs at hcard <;> omega

/-- **The reference counts of the whole machine.**  They are exact in every state that is reached by
operations inside user memory none of which is a first read of an anonymous page in a region without
a page table; and from each such state, an operation inside user memory keeps them exact just if it
is no such first read. -/
theorem accounted_run {m : Machine} (hboot : Booted c s)
    (hrun : Relation.ReflTransGen (ProperStep c) ⟨s, ∅⟩ m) :
    Accounted c m.live m.vm ∧ ∀ op m', op.InUserMemory → Step c m op m' →
      (Accounted c m'.live m'.vm ↔ ¬ FirstRead m op) := by
  obtain ⟨G, h⟩ := hboot.run hrun
  refine ⟨h.accounted, fun op m' huser hstep => ⟨fun hacc hfirst => ?_, fun hfirst => ?_⟩⟩
  · cases hstep with
    | @pageFault d a isPresent isWrite fromUser backing e s' hd hwalk hfault =>
      obtain ⟨hlow, hhigh, rfl, rfl, hnone⟩ := hfirst
      have habsent : isPresent = false := Except.error.inj (hwalk.symm.trans (walk_of_none hnone false))
      rw [habsent] at hfault
      obtain ⟨t, -, ht, hro, hcount⟩ :=
        (freshRead_uncounted h.sound fromUser ((h.dirs d).mpr hd) hlow hhigh hnone).ok hfault
      exact not_accounted hd (dirIndex_isUser hlow hhigh) ht hro hcount hacc
    | _ => exact hfirst
  · obtain ⟨G', h'⟩ := h.step hboot huser hfirst hstep
    exact h'.accounted

/-! A machine whose zero frame, base directory, table for the shared page and shared page are the
frames 1 to 4. -/

def bootConfig : Config := ⟨1, 2, 8⟩

def bootState : Vm where
  mem n i :=
    if n = 2 ∧ i = 960 then frameAddr 3 ||| (flagPr ||| flagRw ||| flagUs)
    else if n = 3 ∧ i = 0 then frameAddr 4 ||| (flagPr ||| flagRw ||| flagUs ||| flagGl)
    else 0#32
  refCounts n := if n = 1 then 1 else 0
  firstFree := none
  avail := 8
  limit := 32

theorem bootState_booted : Booted bootConfig bootState where
  firstFree := rfl
  avail := rfl
  avail_le := show 8 ≤ 32 by omega
  limit_le := show 32 ≤ 1048576 by omega
  zero_pos := show 0 < 1 by omega
  zero_lt := show 1 < 8 by omega
  base_lt := show 2 < 8 by omega
  zero_base := show 1 ≠ 2 by omega
  counts _ := rfl
  base i hi := by
    have hne : i ≠ 960 := by
      rintro rfl
      exact absurd hi (by decide)
    have hword : bootState.mem 2 i = 0#32 := by simp [bootState, hne]
    exact (congrArg tgt hword).trans tgt_zero
  shared := ⟨3, 4, by decide, by decide, show 3 < 8 by omega, show 3 ≠ 1 by omega, by decide, by decide⟩

theorem bootState_first : ∃ s, newDirectory bootConfig bootState = .ok (8, s) ∧ Room 23 s :=
  ⟨_, rfl, rfl, show 9 + 23 ≤ 32 by omega⟩

/-- A directory is made, a page of it is written, and it is cloned: the two directories share a page
table. -/
theorem bootState_forked : ∃ m e t, Relation.ReflTransGen (ProperStep bootConfig) ⟨bootState, ∅⟩ m ∧
    m.live = {e, 8} ∧ e ≠ 8 ∧
    ∀ d ∈ m.live, tgt (m.vm.mem d (dirIndex (0x80000000 / frameSize))) = some t := by
  obtain ⟨s₁, hnew, hroom⟩ := bootState_first
  have hlow : userMemStart ≤ 0x80000000 := by decide
  have hhigh : 0x80000000 < sharedAddress := by decide
  have hi := dirIndex_isUser hlow hhigh
  have hlive : 8 ∈ insert 8 (∅ : Finset ℕ) := Finset.mem_insert_self 8 ∅
  have hstep₁ : ProperStep bootConfig ⟨bootState, ∅⟩ ⟨s₁, insert 8 ∅⟩ :=
    ⟨.newDirectory, trivial, id, .newDirectory hnew⟩
  obtain ⟨G₁, A, -, hempty⟩ := (newDirectory_added bootState_booted.standing.sound).ok hnew
  have hnone := hempty _ hi
  have hwrite := takes_wrappedPageFault 8 bootConfig 0x80000000 false true true .anonymous
  obtain ⟨r, s₂, hfault, hend⟩ := hwrite.returns (room_antitone (by omega) _ hroom)
    (pageFault_absent A.sound ((A.dirs 8).mpr (.inr rfl)) hlow hhigh (congrFun (space_none hnone) _))
  obtain ⟨-, G₂, P, -⟩ := hend
  have hroom₂ : Room 19 s₂ := (hwrite 19 s₁ hroom).ok hfault
  have hstep₂ : ProperStep bootConfig ⟨s₁, insert 8 ∅⟩ ⟨s₂, insert 8 ∅⟩ :=
    ⟨.pageFault 8 0x80000000 true true .anonymous, trivial, fun h => absurd h.2.2.1 (by decide),
      .pageFault hlive (walk_of_none hnone true) hfault⟩
  have hrun : Relation.ReflTransGen (ProperStep bootConfig) ⟨bootState, ∅⟩ ⟨s₂, insert 8 ∅⟩ :=
    .tail (.single hstep₁) hstep₂
  obtain ⟨G, h⟩ := bootState_booted.run hrun
  have hdir := (h.dirs 8).mpr hlive
  obtain ⟨e, s₃, hclone, G₃, A₃, -, hshare⟩ :=
    (takes_cloneDirectory 8).returns (room_antitone (by omega) _ hroom₂)
    (cloneDirectory_added h.sound h.even le_rfl hdir)
  have hstep₃ : ProperStep bootConfig ⟨s₂, insert 8 ∅⟩ ⟨s₃, insert e (insert 8 ∅)⟩ :=
    ⟨.cloneDirectory 8, trivial, id, .cloneDirectory hlive hclone⟩
  cases ht : tgt (s₃.mem 8 (dirIndex (0x80000000 / frameSize))) with
  | none =>
    have hpage := P.page
    rw [← A₃.spaces 8 _ hdir hi, space_none ht] at hpage
    cases hpage
  | some t =>
    refine ⟨_, e, t, hrun.tail hstep₃, rfl, ?_, fun d hd => ?_⟩
    · rintro rfl
      exact A₃.fresh hdir
    · rcases Finset.mem_insert.mp hd with rfl | hd
      · exact (hshare _ hi).2.trans ht
      · rwa [Finset.mem_singleton.mp hd]

theorem accounted_run_forked : ∃ m e t, Relation.ReflTransGen (ProperStep bootConfig) ⟨bootState, ∅⟩ m ∧
    m.live = {e, 8} ∧ e ≠ 8 ∧
    (∀ d ∈ m.live, tgt (m.vm.mem d (dirIndex (0x80000000 / frameSize))) = some t) ∧
      Accounted bootConfig m.live m.vm := by
  obtain ⟨m, e, t, hrun, hlive, hne, hshare⟩ := bootState_forked
  exact ⟨m, e, t, hrun, hlive, hne, hshare, (accounted_run bootState_booted hrun).1⟩

/-- **A directory is made, and its first anonymous page is read**: the counts are no longer
exact. -/
theorem first_read_uncounted : Booted bootConfig bootState ∧
    ∃ m, Relation.ReflTransGen (fun m m' => ∃ op, Step bootConfig m op m') ⟨bootState, ∅⟩ m ∧
      ¬ Accounted bootConfig m.live m.vm := by
  obtain ⟨s, hrun, hroom⟩ := bootState_first
  have hstep : Step bootConfig ⟨bootState, ∅⟩ .newDirectory ⟨s, insert 8 ∅⟩ := .newDirectory hrun
  obtain ⟨G, A, -, hempty⟩ := (newDirectory_added bootState_booted.standing.sound).ok hrun
  have hdir : G.kind 8 = .dir := (A.dirs 8).mpr (.inr rfl)
  have hnone : tgt (s.mem 8 (dirIndex (0x80000000 / frameSize))) = none := hempty _ (by decide)
  have halloc : ∀ e, allocFrame s ≠ .error e := fun e he => by
    rw [allocFrame_next (k := 22) hroom] at he
    cases he
  obtain ⟨e, s', hfault, t, -, ht, hro, hcount⟩ :=
    (freshRead_uncounted (a := 0x80000000) A.sound true hdir (by decide) (by decide) hnone).returns
      fun e he => absurd he (halloc e)
  refine ⟨bootState_booted, ⟨s', insert 8 ∅⟩, .tail (.single ⟨_, hstep⟩)
    ⟨.pageFault 8 0x80000000 false true .anonymous,
      .pageFault (Finset.mem_insert_self 8 ∅) (walk_of_none hnone false) hfault⟩, ?_⟩
  exact not_accounted (Finset.mem_insert_self 8 ∅) (by decide) ht hro hcount

end GheithOS.Vmm
