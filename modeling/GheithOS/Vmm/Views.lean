import GheithOS.Lib.Simulation
import GheithOS.Vmm.Mapping

/-!
# GheithOS.Vmm.Views — user programs and what they see

Two user programs read and write through two directories, in any order.  `Views` is what they should
see: each its own pages, and the shared page in common.  A machine that presents these views
(`Presents`) answers every access as they say, whatever is shared behind the scenes
(`Presents.access`, `Presents.run`).
-/

namespace GheithOS.Vmm

open Cow Lib
open MemoryMapping (userMemStart sharedAddress)

variable {c : Config} {G G' : Ghost} {s s' : Vm} {ok : Prop} {d t f a : ℕ} {i j : Index} {row : Row}

/-! ### User programs -/

/-- **A user access** to any address.  Outside user memory a page has no `FLAG_US` or is not there:
the hardware faults, and the handler raises a signal. -/
def userAccess (c : Config) (backing : ℕ → Backing)
    (directory address : ℕ) (a : Access) (fuel : ℕ) : Code AccessEnd :=
  if userMemStart ≤ address ∧ address < userMemEnd then access c backing directory address a fuel
  else return .segfault

/-- The two processes after a fork. -/
inductive Side
  | parent
  | child
  deriving DecidableEq

/-- The directories of the two. -/
def Side.directory (d e : ℕ) : Side → ℕ
  | .parent => d
  | .child => e

/-- An access of one of them. -/
structure Request where
  side : Side
  address : ℕ
  access : Access

/-- Accesses in the order in which they are made. -/
def userRun (c : Config) (fuel : ℕ) (backing : Side → ℕ → Backing) (directory : Side → ℕ) :
    List Request → Code (List AccessEnd)
  | [] => return []
  | r :: rs => do
    let answer ← userAccess c (backing r.side) (directory r.side) r.address r.access fuel
    let answers ← userRun c fuel backing directory rs
    return answer :: answers

/-! ### What the programs should see -/

/-- The contents of the pages of both processes, and of the shared page. -/
structure Views where
  pages : Side → Index → Index → Option Row
  shared : Row

/-- An access to contents: its answer, and the contents after it. -/
def Access.on (offset : ℕ) (row : Row) : Access → AccessEnd × Row
  | .read => (.value (getByte row offset), row)
  | .write b => (.stored, putByte row offset b)

def Views.set (V : Views) (side : Side) (i j : Index) (row : Row) : Views :=
  { V with
    pages := fun side' i' j' =>
      if side' = side ∧ i' = i ∧ j' = j then some row else V.pages side' i' j' }

/-- An access to a page with contents `row`. -/
def Views.touch (V : Views) (r : Request) (row : Row) : AccessEnd × Views :=
  ((r.access.on (r.address % frameSize) row).1,
    V.set r.side (dirIndex (r.address / frameSize)) (tableIndex (r.address / frameSize))
      (r.access.on (r.address % frameSize) row).2)

/-- **An access**: a page that has no contents yet gets them from the memory mapping. -/
def Views.access (zero : Row) (backing : Side → ℕ → Backing) (r : Request) (V : Views) :
    AccessEnd × Views :=
  if r.address < userMemStart ∨ userMemEnd ≤ r.address then (.segfault, V)
  else if sharedAddress ≤ r.address then
    ((r.access.on (r.address % frameSize) V.shared).1,
      { V with shared := (r.access.on (r.address % frameSize) V.shared).2 })
  else
    match V.pages r.side (dirIndex (r.address / frameSize)) (tableIndex (r.address / frameSize)) with
    | some row => V.touch r row
    | none =>
      match (backing r.side r.address).contents zero r.access.isWrite with
      | some row => V.touch r row
      | none => (.segfault, V)

theorem Views.set_eq_self {V : Views} {side : Side} (h : V.pages side i j = some row) :
    V.set side i j row = V := by
  unfold Views.set
  congr 1
  funext side' i' j'
  split_ifs with hc
  · obtain ⟨rfl, rfl, rfl⟩ := hc
    exact h.symm
  · rfl

theorem Views.set_of_ne {side side' : Side} (V : Views) (h : side' ≠ side) (i j : Index) (row : Row) :
    (V.set side i j row).pages side' = V.pages side' := by
  funext i' j'
  exact if_neg fun hc => h hc.1

theorem Views.set_set (V : Views) (side : Side) (i j : Index) (row row' : Row) :
    (V.set side i j row).set side i j row' = V.set side i j row' := by
  unfold Views.set
  congr 1
  funext side' i' j'
  dsimp only
  split_ifs <;> rfl

theorem Views.access_page {r : Request} (V : Views) (zero : Row) (backing : Side → ℕ → Backing)
    (hlow : userMemStart ≤ r.address) (hhigh : r.address < sharedAddress)
    (hpage : V.pages r.side (dirIndex (r.address / frameSize))
      (tableIndex (r.address / frameSize)) = some row) :
    V.access zero backing r = V.touch r row := by
  unfold Views.access
  rw [if_neg (by unfold userMemEnd; omega), if_neg (by omega), hpage]

theorem Views.access_ne_faulting (zero : Row) (backing : Side → ℕ → Backing) (r : Request)
    (V : Views) : (V.access zero backing r).1 ≠ .faulting := by
  have htouch : ∀ row, (V.touch r row).1 ≠ .faulting := fun row => by
    unfold Views.touch
    cases r.access <;> simp [Access.on]
  unfold Views.access
  split_ifs
  · simp
  · cases r.access <;> simp [Access.on]
  · split
    · exact htouch _
    · split
      · exact htouch _
      · simp

/-! ### The machine -/

section Machine

theorem touch_eq (f offset : ℕ) (acc : Access) (s : Vm) :
    touch f offset acc s = .ok ((acc.on offset (s.mem f)).1, s.setRow f (acc.on offset (s.mem f)).2) := by
  cases acc with
  | read =>
    show Except.ok (_, s) = _
    rw [show (Access.read.on offset (s.mem f)).2 = s.mem f from rfl, setRow_eq_self rfl]
    rfl
  | write b => rfl

/-- What follows the walk. -/
def afterWalk (c : Config) (backing : ℕ → Backing) (d a : ℕ) (acc : Access) (fuel : ℕ) :
    Except Bool ℕ → Code AccessEnd
  | .ok f => touch f (a % frameSize) acc
  | .error present => do
    let result ← wrappedPageFault c d a present acc.isWrite true (backing a)
    match result with
    | .returned => access c backing d a acc fuel
    | _ => return .segfault

theorem access_succ {backing : ℕ → Backing} {acc : Access} {found : Except Bool ℕ}
    (h : walk s d a acc.isWrite = found) (fuel : ℕ) :
    access c backing d a acc (fuel + 1) s = afterWalk c backing d a acc fuel found s := by
  subst h
  show (match walk s d a acc.isWrite with | .ok f => _ | .error _ => _ : Code AccessEnd) s = _
  cases walk s d a acc.isWrite <;> rfl

theorem walk_found {isWrite : Bool}
    (hpage : space s d (dirIndex (a / frameSize)) (tableIndex (a / frameSize)) = some row)
    (hw : isWrite = true → Writable s d (dirIndex (a / frameSize)) (tableIndex (a / frameSize))) :
    ∃ t f, tgt (s.mem d (dirIndex (a / frameSize))) = some t ∧
      tgt (s.mem t (tableIndex (a / frameSize))) = some f ∧
      s.mem f = row ∧ walk s d a isWrite = .ok f ∧ (isWrite = true →
        isRw (s.mem d (dirIndex (a / frameSize))) = true ∧
        isRw (s.mem t (tableIndex (a / frameSize))) = true) := by
  rcases walk_cases s d a isWrite with ⟨hnone, -⟩ | ⟨t, f, ht, hf, hwalk⟩
  · rw [hnone] at hpage
    cases hpage
  · have hrow : s.mem f = row := by
      rw [space_eq ht, shows, hf] at hpage
      exact Option.some.inj hpage
    have hrw : isWrite = true →
        isRw (s.mem d (dirIndex (a / frameSize))) = true ∧
        isRw (s.mem t (tableIndex (a / frameSize))) = true := by
      intro h
      obtain ⟨t', f', ht', htw, hf', hfw⟩ := hw h
      obtain rfl : t = t' := Option.some.inj (ht.symm.trans ht')
      exact ⟨htw, hfw⟩
    refine ⟨t, f, ht, hf, hrow, ?_, hrw⟩
    rw [hwalk]
    cases isWrite with
    | false => rfl
    | true => simp [hrw rfl]

/-- **A store to a page of one's own** is seen at that page only. -/
theorem Sound.space_store (H : Sound c G s) (hd : G.kind d = .dir) (hi : isUser i = true)
    (ht : tgt (s.mem d i) = some t) (htw : isRw (s.mem d i) = true) (hf : tgt (s.mem t j) = some f)
    (hfw : isRw (s.mem t j) = true) (row : Row) :
    G.kind f = .data ∧ Sound c G (s.setRow f row) ∧ ∀ d' i' j', G.kind d' = .dir → isUser i' = true →
      space (s.setRow f row) d' i' j' = if d' = d ∧ i' = i ∧
        j' = j then some row else space s d' i' j' := by
  have hkt := H.pde hd hi ht
  have hkf : G.kind f = .data := by
    refine (H.pte hkt hf).resolve_left ?_
    rintro rfl
    rw [H.zero_ro hkt hf] at hfw
    cases hfw
  have hrow : ∀ n, G.kind n = .dir ∨ G.kind n = .table → (s.setRow f row).mem n = s.mem n := fun n hn => by
    refine setRow_of_ne ?_
    rintro rfl
    rcases hn with hn | hn <;> simp [hkf] at hn
  refine ⟨hkf, H.setRow row (by simp [hkf]) (by simp [hkf]) (by simp [hkf]) ?_, fun d' i' j' hd' hi' => ?_⟩
  · rintro rfl
    simp [H.kind_base] at hkf
  · unfold space
    rw [hrow d' (.inl hd')]
    cases ht' : tgt (s.mem d' i') with
    | none =>
      rw [if_neg]
      · rfl
      · rintro ⟨rfl, rfl, -⟩
        rw [ht] at ht'
        cases ht'
    | some t' =>
      have hkt' := H.pde hd' hi' ht'
      simp only [Option.bind_some, shows, hrow t' (.inr hkt')]
      cases hf' : tgt (s.mem t' j') with
      | none =>
        rw [if_neg]
        · rfl
        · rintro ⟨rfl, rfl, rfl⟩
          obtain rfl : t = t' := Option.some.inj (ht.symm.trans ht')
          rw [hf] at hf'
          cases hf'
      | some f' =>
        simp only [Option.map_some]
        by_cases hff : f' = f
        · -- the frame and the table have one entry each
          subst hff
          obtain ⟨rfl, rfl⟩ :=
            H.entry_unique (H.entries_owned (.inr hkt) hf hfw).le (.inr hkt') (.inr hkt) hf' hf
          obtain ⟨rfl, rfl⟩ := H.entry_unique (H.entries_owned (.inl ⟨hd, hi⟩) ht htw).le (.inl ⟨hd', hi'⟩)
            (.inl ⟨hd, hi⟩) ht' ht
          rw [if_pos ⟨rfl, rfl, rfl⟩, setRow_self]
        · rw [setRow_of_ne hff, if_neg]
          rintro ⟨rfl, rfl, rfl⟩
          obtain rfl : t = t' := Option.some.inj (ht.symm.trans ht')
          exact hff (Option.some.inj (hf'.symm.trans hf))

end Machine

/-! ### Presenting the views -/

/-- The table and the frame of the shared page: arrays of the kernel. -/
structure SharedFrames (c : Config) (t f : ℕ) : Prop where
  table_lt : t < c.pool
  frame_lt : f < c.pool
  table_zero : t ≠ c.zeroFrame
  frame_zero : f ≠ c.zeroFrame
  frame_base : f ≠ c.baseDirectory
  ne : f ≠ t

/-- The entry for the shared page and what is behind it. -/
structure SharedMapped (s : Vm) (d t f : ℕ) : Prop where
  pde : tgt (s.mem d (dirIndex (sharedAddress / frameSize))) = some t
  pde_rw : isRw (s.mem d (dirIndex (sharedAddress / frameSize))) = true
  pte : tgt (s.mem t (tableIndex (sharedAddress / frameSize))) = some f
  pte_rw : isRw (s.mem t (tableIndex (sharedAddress / frameSize))) = true

/-- **The machine presents the views** to the programs. -/
structure Presents (c : Config) (t f : ℕ) (zero : Row) (directory : Side → ℕ) (G : Ghost) (s : Vm)
    (V : Views) : Prop where
  sound : Sound c G s
  dir : ∀ side, G.kind (directory side) = .dir
  ne : ∀ side side', directory side = directory side' → side = side'
  pages : ∀ side i j, isUser i = true → space s (directory side) i j = V.pages side i j
  zero : s.mem c.zeroFrame = zero
  mapped : ∀ side, SharedMapped s (directory side) t f
  shared : s.mem f = V.shared

section Presents

variable {zero : Row} {directory : Side → ℕ} {V : Views} {side : Side}
  {backing : Side → ℕ → Backing} {r : Request}

theorem shared_not_user : isUser (dirIndex (sharedAddress / frameSize)) = false := by decide

theorem SharedMapped.congr (h : SharedMapped s d t f)
    (hd : s'.mem d (dirIndex (sharedAddress / frameSize)) = s.mem d (dirIndex (sharedAddress / frameSize)))
    (ht : s'.mem t = s.mem t) : SharedMapped s' d t f where
  pde := hd ▸ h.pde
  pde_rw := hd ▸ h.pde_rw
  pte := ht ▸ h.pte
  pte_rw := ht ▸ h.pte_rw

theorem Presents.keeps {V' : Views} (h : Presents c t f zero directory G s V)
    (S : SharedFrames c t f) (K : Keeps ok c G s G' s')
    (hzero : s'.mem c.zeroFrame = s.mem c.zeroFrame) (hshared : V'.shared = V.shared)
    (hpages : ∀ side i j, isUser i = true → space s' (directory side) i j = V'.pages side i j) :
    Presents c t f zero directory G' s' V' where
  sound := K.sound
  dir side := (K.dirs _).mpr (h.dir side)
  ne := h.ne
  pages := hpages
  zero := hzero.trans h.zero
  mapped side := (h.mapped side).congr (K.kernel _ _ (h.dir side) shared_not_user)
      (K.low t S.table_lt S.table_zero)
  shared := by rw [K.low f S.frame_lt S.frame_zero, h.shared, hshared]

theorem Presents.quiet (h : Presents c t f zero directory G s V) (S : SharedFrames c t f)
    (Q : Quiet ok c G s G' s') : Presents c t f zero directory G' s' V :=
  h.keeps S Q.toKeeps Q.zero rfl fun side i j hi => by
    rw [Q.spaces _ i (h.dir side) hi]
    exact h.pages side i j hi

theorem Presents.pageSet (h : Presents c t f zero directory G s V) (S : SharedFrames c t f)
    (P : PageSet ok c (directory side) i j row G s G' s') :
    Presents c t f zero directory G' s' (V.set side i j row) := by
  refine h.keeps S P.toKeeps P.zero rfl fun side' i' j' hi' => ?_
  unfold Views.set
  dsimp only
  split_ifs with hc
  · obtain ⟨rfl, rfl, rfl⟩ := hc
    exact P.page
  · rw [P.rest _ i' j' (h.dir side') hi' fun hc' => hc ⟨h.ne _ _ hc'.1, hc'.2⟩]
    exact h.pages side' i' j' hi'

theorem Presents.store {t' f' : ℕ} (h : Presents c t f zero directory G s V)
    (S : SharedFrames c t f) (hi : isUser i = true) (ht : tgt (s.mem (directory side) i) = some t')
    (htw : isRw (s.mem (directory side) i) = true) (hf : tgt (s.mem t' j) = some f')
    (hfw : isRw (s.mem t' j) = true) (row : Row) :
    Presents c t f zero directory G (s.setRow f' row) (V.set side i j row) := by
  obtain ⟨hkind, hsound, hspace⟩ := h.sound.space_store (h.dir side) hi ht htw hf hfw row
  have hlow : ∀ n, n < c.pool → (s.setRow f' row).mem n = s.mem n := fun n hn => setRow_of_ne (by
    rintro rfl
    simp [h.sound.kind_low hn] at hkind)
  have hdir : ∀ side, (s.setRow f' row).mem (directory side) = s.mem (directory side) :=
    fun side => setRow_of_ne (by
    intro hc
    have := h.dir side
    rw [hc, hkind] at this
    cases this)
  refine ⟨hsound, h.dir, h.ne, fun side' i' j' hi' => ?_, (hlow _ h.sound.zero_lt).trans h.zero,
    fun side => (h.mapped side).congr (by rw [hdir]) (hlow t S.table_lt),
      (hlow f S.frame_lt).trans h.shared⟩
  rw [hspace _ i' j' (h.dir side') hi']
  unfold Views.set
  dsimp only
  by_cases hc : side' = side ∧ i' = i ∧ j' = j
  · rw [if_pos hc, if_pos ⟨congrArg directory hc.1, hc.2⟩]
  · rw [if_neg hc, if_neg fun hc' => hc ⟨h.ne _ _ hc'.1, hc'.2⟩]
    exact h.pages side' i' j' hi'

/-- **An access to a page that is there**, and that may be written if it is. -/
theorem Presents.touch (h : Presents c t f zero directory G s V) (S : SharedFrames c t f)
    (hlow : userMemStart ≤ r.address) (hhigh : r.address < sharedAddress)
    (hpage : V.pages r.side (dirIndex (r.address / frameSize))
      (tableIndex (r.address / frameSize)) = some row)
    (hw : r.access.isWrite = true →
      Writable s (directory r.side) (dirIndex (r.address / frameSize)) (tableIndex (r.address / frameSize)))
    (backing : Side → ℕ → Backing) (fuel : ℕ) :
    ∃ s', Vmm.access c (backing r.side) (directory r.side) r.address r.access (fuel + 1) s =
        .ok ((V.touch r row).1, s') ∧ Presents c t f zero directory G s' (V.touch r row).2 := by
  have hi := dirIndex_isUser hlow hhigh
  obtain ⟨t', f', ht, hf, hrow, hwalk, hrw⟩ := walk_found ((h.pages r.side _ _ hi).trans hpage) hw
  refine ⟨_, (access_succ hwalk fuel).trans ((touch_eq f' _ r.access s).trans (by rw [hrow]; rfl)), ?_⟩
  unfold Views.touch
  dsimp only
  cases hacc : r.access with
  | read =>
    show Presents c t f zero directory G (s.setRow f' row) (V.set _ _ _ row)
    rw [setRow_eq_self hrow, Views.set_eq_self hpage]
    exact h
  | write b =>
    obtain ⟨htw, hfw⟩ := hrw (by rw [hacc]; rfl)
    exact h.store S hi ht htw hf hfw _

theorem Views.touch_set (V : Views) (r : Request) (row row' : Row) :
    (V.set r.side (dirIndex (r.address / frameSize)) (tableIndex (r.address / frameSize))
      row').touch r row =
      V.touch r row := by
  unfold Views.touch
  rw [Views.set_set]

/-- **An access to user memory.** -/
theorem Presents.access_user (h : Presents c t f zero directory G s V) (S : SharedFrames c t f)
    (hlow : userMemStart ≤ r.address) (hhigh : r.address < sharedAddress) (fuel : ℕ) :
    Ends OutOfFrames
      (Vmm.access c (backing r.side) (directory r.side) r.address r.access (fuel + 2)) s fun answer s' =>
      answer = (V.access zero backing r).1 ∧
      ∃ G', Presents c t f zero directory G' s' (V.access zero backing r).2 := by
  have hi := dirIndex_isUser hlow hhigh
  have hpages := h.pages r.side (dirIndex (r.address / frameSize)) (tableIndex (r.address / frameSize)) hi
  have haccess : V.access zero backing r =
      match V.pages r.side (dirIndex (r.address / frameSize)) (tableIndex (r.address / frameSize)) with
      | some row => V.touch r row
      | none =>
        match (backing r.side r.address).contents zero r.access.isWrite with
        | some row => V.touch r row
        | none => (.segfault, V) := by
    unfold Views.access
    rw [if_neg (by unfold userMemEnd; omega), if_neg (by omega)]
  rw [haccess]
  rcases hwalk : walk s (directory r.side) r.address r.access.isWrite with present | f'
  · unfold Ends
    rw [access_succ hwalk, afterWalk]
    cases present with
    | true =>
      obtain ⟨hwrite, hpage⟩ := walk_denied hwalk
      rw [hpages] at hpage
      obtain ⟨row, hrow⟩ := Option.ne_none_iff_exists'.mp hpage
      rw [hrow, hwrite]
      refine ends_bind ((pageFault_present h.sound (h.dir r.side) hlow hhigh (hpages ▸ hpage)).mono ?_)
      rintro e s' ⟨rfl, G', Q, hw⟩
      obtain ⟨s'', hrun, h''⟩ := (h.quiet S Q).touch S hlow hhigh hrow (fun _ => hw) backing fuel
      exact ends_of_eq hrun ⟨rfl, G', h''⟩
    | false =>
      have hnone := walk_absent hwalk
      rw [← hpages, hnone]
      refine ends_bind ((pageFault_absent h.sound (h.dir r.side) hlow hhigh hnone).mono ?_)
      rw [h.zero]
      intro e s' hend
      cases hcontents : (backing r.side r.address).contents zero r.access.isWrite with
      | none =>
        rw [hcontents] at hend
        obtain ⟨rfl, rfl⟩ := hend
        exact ends_pure ⟨rfl, G, h⟩
      | some row =>
        rw [hcontents] at hend
        obtain ⟨rfl, G', P, hw⟩ := hend
        have hset : (V.set r.side (dirIndex (r.address / frameSize))
            (tableIndex (r.address / frameSize)) row).pages
            r.side (dirIndex (r.address / frameSize)) (tableIndex (r.address / frameSize)) = some row :=
          if_pos ⟨rfl, rfl, rfl⟩
        obtain ⟨s'', hrun, h''⟩ := (h.pageSet S P).touch S hlow hhigh hset hw backing fuel
        rw [Views.touch_set] at hrun h''
        exact ends_of_eq hrun ⟨rfl, G', h''⟩
  · rcases walk_cases s (directory r.side) r.address r.access.isWrite with ⟨-, hw⟩ | ⟨t', f'', ht, hf, hw⟩
    · rw [hwalk] at hw
      cases hw
    · have hrow : V.pages r.side (dirIndex (r.address / frameSize)) (tableIndex (r.address / frameSize)) =
          some (s.mem f'') := by
        rw [← hpages, space_eq ht, shows, hf]
        rfl
      rw [hrow]
      have hwrite : r.access.isWrite = true →
          Writable s (directory r.side) (dirIndex (r.address / frameSize))
          (tableIndex (r.address / frameSize)) := fun hwr => by
        rw [hwalk, hwr, Bool.true_and] at hw
        split_ifs at hw with hrw
        obtain ⟨htw, hfw⟩ : isRw (s.mem (directory r.side) (dirIndex (r.address / frameSize))) = true ∧
          isRw (s.mem t' (tableIndex (r.address / frameSize))) = true := by simpa using hrw
        exact ⟨t', f'', ht, htw, hf, hfw⟩
      obtain ⟨s', hrun, h'⟩ := h.touch S hlow hhigh hrow hwrite backing (fuel + 1)
      exact ends_of_eq hrun ⟨rfl, G, h'⟩

/-- **An access to the shared page.** -/
theorem Presents.access_shared (h : Presents c t f zero directory G s V) (S : SharedFrames c t f)
    (hlow : sharedAddress ≤ r.address) (hhigh : r.address < userMemEnd)
    (backing : Side → ℕ → Backing) (fuel : ℕ) :
    ∃ s', Vmm.access c (backing r.side) (directory r.side) r.address r.access (fuel + 1) s =
        .ok ((V.access zero backing r).1, s') ∧
        Presents c t f zero directory G s' (V.access zero backing r).2 := by
  have hpage : r.address / frameSize = sharedAddress / frameSize := by
    unfold userMemEnd at hhigh
    unfold sharedAddress frameSize at *
    omega
  have M := h.mapped r.side
  have hwalk : walk s (directory r.side) r.address r.access.isWrite = .ok f := by
    unfold walk
    rw [hpage]
    simp only [M.pde, M.pte, M.pde_rw, M.pte_rw, Bool.and_self, Bool.not_true, Bool.and_false,
      Bool.false_eq_true, ite_false]
  have haccess : V.access zero backing r = ((r.access.on (r.address % frameSize) V.shared).1,
      { V with shared := (r.access.on (r.address % frameSize) V.shared).2 }) := by
    unfold Views.access
    rw [if_neg (by unfold userMemStart sharedAddress at *; omega), if_pos hlow]
  rw [haccess]
  have hkind := h.sound.kind_low S.frame_lt
  have hrow : ∀ n, n ≠ f →
      (s.setRow f (r.access.on (r.address % frameSize) V.shared).2).mem n = s.mem n := fun n hn =>
    setRow_of_ne hn
  have hdir : ∀ side, directory side ≠ f := fun side hc => by
    have := h.dir side
    rw [hc, hkind] at this
    cases this
  refine ⟨_, (access_succ hwalk fuel).trans ((touch_eq f _ r.access s).trans (by rw [h.shared])), ?_⟩
  refine ⟨h.sound.setRow _ (by simp [hkind]) (by simp [hkind]) (by simp [hkind]) S.frame_base, h.dir, h.ne,
    fun side i j hi => ?_, (hrow _ (Ne.symm S.frame_zero)).trans h.zero,
    fun side => (h.mapped side).congr (by rw [hrow _ (hdir side)]) (hrow t (Ne.symm S.ne)),
      setRow_self _ _ _⟩
  rw [← h.pages side i j hi]
  refine congrFun (h.sound.spaces_of_tgts (fun m j hm => ?_) (fun g hg => hrow g ?_) (h.dir side) hi) j
  · rw [hrow m]
    rintro rfl
    rcases hm with ⟨hm, -⟩ | hm <;> simp [hkind] at hm
  · rintro rfl
    rcases hg with hg | hg
    · simp [hkind] at hg
    · exact S.frame_zero hg

/-- **An access** gets the answer of the views. -/
theorem Presents.access (h : Presents c t f zero directory G s V) (S : SharedFrames c t f)
    (backing : Side → ℕ → Backing) (r : Request) (fuel : ℕ) :
    Ends OutOfFrames
      (userAccess c (backing r.side) (directory r.side) r.address r.access (fuel + 2)) s fun answer s' =>
      answer = (V.access zero backing r).1 ∧
      ∃ G', Presents c t f zero directory G' s' (V.access zero backing r).2 := by
  unfold userAccess
  split_ifs with hin
  · by_cases hshared : sharedAddress ≤ r.address
    · obtain ⟨s', hrun, h'⟩ := h.access_shared S hshared hin.2 backing (fuel + 1)
      exact ends_of_eq hrun ⟨rfl, G, h'⟩
    · exact h.access_user S hin.1 (by omega) fuel
  · have haccess : V.access zero backing r = (.segfault, V) := if_pos (by omega)
    rw [haccess]
    exact ends_pure ⟨rfl, G, h⟩

/-- **Runs** get the answers of the views. -/
theorem Presents.run (S : SharedFrames c t f) (backing : Side → ℕ → Backing) (fuel : ℕ) :
    ∀ (rs : List Request) {G : Ghost} {s : Vm} {V : Views}, Presents c t f zero directory G s V →
    Ends OutOfFrames (userRun c (fuel + 2) backing directory rs) s fun answers _ =>
      answers = (runs (Views.access zero backing) V rs).1
  | [], _, _, _, _ => ends_pure rfl
  | r :: rs, _, _, _, h => by
    refine ends_bind ((h.access S backing r fuel).mono ?_)
    rintro answer s' ⟨rfl, G', h'⟩
    refine ends_bind ((Presents.run S backing fuel rs h').mono ?_)
    rintro answers s'' rfl
    exact ends_pure rfl

end Presents

end GheithOS.Vmm
