import GheithOS.Events.Model

/-!
# GheithOS.Events.Order — the order of the timer queue

`PQ.Holds q M` says that the entries of the queue are `M`, each with its cell, its deadline and its
event.  `add` puts an entry behind all those with the same deadline or an earlier one (`Holds.add`),
`remove_if_ready` takes the first one.

A queue is compared with the list of the events that wait, in the order in which they were added
(`Queued`): it is that list, sorted by deadline, with equal deadlines in the order of the list.
-/

namespace GheithOS.Events

open Lib Function

/-- The deadline and the event of an entry. -/
def PQEntry.item (c : PQEntry) : ℕ × ℕ := (c.at_, c.e)

namespace PQ

/-- Where the entry in a cell points to. -/
def links (q : PQ) (p : ℕ) : Option ℕ := (q.entries p).bind PQEntry.next

/-- The entries of the queue are in these cells, with these deadlines and events, and no other cell
is in use. -/
structure Holds (q : PQ) (M : List (ℕ × ℕ × ℕ)) : Prop where
  spine : Spine q.links q.head (M.map Prod.fst)
  nodup : (M.map Prod.fst).Nodup
  used : ∀ p, q.entries p ≠ none → p ∈ M.map Prod.fst
  items : ∀ x ∈ M, (q.entries x.1).map PQEntry.item = some x.2

variable {q q' : PQ} {M : List (ℕ × ℕ × ℕ)} {fuel pqe at_ e : ℕ}

theorem holds_empty : empty.Holds [] := ⟨rfl, List.nodup_nil, fun _ h => absurd rfl h, by simp⟩

@[simp] theorem setEntry_self (q : PQ) (p : ℕ) (c : PQEntry) : (q.setEntry p c).entries p = some c :=
  update_self _ _ _

variable {c : PQEntry} {p : ℕ}

theorem setEntry_of_ne {p' : ℕ} (h : p ≠ p') : (q.setEntry p' c).entries p = q.entries p :=
  update_of_ne h _ _

theorem links_of_entry (h : q.entries p = some c) : q.links p = c.next := by
  rw [links, h]
  rfl

variable {x : ℕ × ℕ × ℕ}

theorem exists_entry (h : (q.entries x.1).map PQEntry.item = some x.2) :
    ∃ c, q.entries x.1 = some c ∧ c.at_ = x.2.1 ∧ c.e = x.2.2 := by
  obtain ⟨c, hc, hitem⟩ := Option.map_eq_some_iff.mp h
  exact ⟨c, hc, congrArg Prod.fst hitem, congrArg Prod.snd hitem⟩

theorem Holds.fresh (h : q.Holds M) (hnew : q.entries pqe = none) : pqe ∉ M.map Prod.fst := by
  intro hmem
  obtain ⟨x, hx, rfl⟩ := List.mem_map.mp hmem
  obtain ⟨c, hc, -⟩ := exists_entry (h.items x hx)
  rw [hnew] at hc
  cases hc

/-! ### The loop of `add` -/

/-- The link behind the entries `A`, when the link in front of them is `pprev`. -/
def linkAfter (pprev : Link) (A : List (ℕ × ℕ × ℕ)) : Link := A.getLast?.elim pprev fun x => .next x.1

/-- **The loop** ends with enough fuel, and it ends behind the entries with the same deadline or an
earlier one. -/
theorem seek_spec (at_ : ℕ) {p : Option ℕ} {pprev : Link} (hspine : Spine q.links p (M.map Prod.fst))
    (hitems : ∀ x ∈ M, (q.entries x.1).map PQEntry.item = some x.2) :
    (M.length ≤ fuel → (q.seek at_ fuel p pprev).isSome = true) ∧
    ∀ r, q.seek at_ fuel p pprev = some r → ∃ A B, M = A ++ B ∧ (∀ x ∈ A, x.2.1 ≤ at_) ∧
      (∀ x ∈ B.head?, at_ < x.2.1) ∧ r = ((B.map Prod.fst).head?, linkAfter pprev A) := by
  induction M generalizing fuel p pprev with
  | nil =>
    obtain rfl : p = none := hspine
    rw [seek]
    refine ⟨fun _ => rfl, fun r hr => ⟨[], [], rfl, by simp, by simp, (Option.some.inj hr).symm⟩⟩
  | cons x M ih =>
    obtain ⟨rfl, hrest⟩ := hspine
    obtain ⟨c, hc, hat, -⟩ := exists_entry (hitems x List.mem_cons_self)
    cases fuel with
    | zero => exact ⟨fun h => absurd h (by simp), fun r hr => absurd hr (by simp [seek])⟩
    | succ fuel =>
      rw [links_of_entry hc] at hrest
      rw [seek, hc, Option.bind_eq_bind, Option.bind_some]
      by_cases hlater : c.at_ > at_
      · rw [if_pos hlater]
        refine ⟨fun _ => rfl, fun r hr => ⟨[], x :: M, rfl, by simp, ?_, (Option.some.inj hr).symm⟩⟩
        intro y hy
        obtain rfl : x = y := Option.some.inj hy
        omega
      · rw [if_neg hlater]
        obtain ⟨hends, hspec⟩ :=
          @ih fuel c.next (.next x.1) hrest fun y hy => hitems y (List.mem_cons_of_mem x hy)
        refine ⟨fun hlen => hends (by simpa using hlen), fun r hr => ?_⟩
        obtain ⟨A, B, rfl, hA, hB, hr'⟩ := hspec r hr
        refine ⟨x :: A, B, rfl, List.forall_mem_cons.mpr ⟨by omega, hA⟩, hB, hr'.trans ?_⟩
        rw [linkAfter, linkAfter, List.getLast?_cons]
        cases A.getLast? <;> rfl

/-! ### `add` and `remove_if_ready` -/

/-- The queue when the entry has been made, and nothing points to it. -/
theorem Holds.setEntry_new (h : q.Holds M) (hnew : q.entries pqe = none) (c : PQEntry) :
    Spine (q.setEntry pqe c).links q.head (M.map Prod.fst) ∧
      ∀ x ∈ M, ((q.setEntry pqe c).entries x.1).map PQEntry.item = some x.2 := by
  have hfresh := h.fresh hnew
  have hsame : ∀ p ∈ M.map Prod.fst, (q.setEntry pqe c).entries p = q.entries p := fun p hp =>
    setEntry_of_ne fun heq => hfresh (heq ▸ hp)
  refine ⟨h.spine.congr fun p hp => ?_, fun x hx => ?_⟩
  · rw [links, links, hsame p hp]
  · rw [hsame x.1 (List.mem_map_of_mem hx)]
    exact h.items x hx

theorem Holds.add_head (h : q.Holds M) (hnew : q.entries pqe = none) (at_ e : ℕ) :
    Holds { q.setEntry pqe ⟨at_, e, q.head⟩ with head := some pqe } ((pqe, at_, e) :: M) := by
  obtain ⟨hspine, hitems⟩ := h.setEntry_new hnew ⟨at_, e, q.head⟩
  have hlink : (q.setEntry pqe ⟨at_, e, q.head⟩).links pqe = q.head :=
    links_of_entry (setEntry_self q pqe _)
  refine ⟨⟨rfl, ?_⟩, List.nodup_cons.mpr ⟨h.fresh hnew, h.nodup⟩, fun p hp => ?_,
    List.forall_mem_cons.mpr ⟨?_, hitems⟩⟩
  · change Spine (q.setEntry pqe _).links ((q.setEntry pqe ⟨at_, e, q.head⟩).links pqe) _
    rw [hlink]
    exact hspine
  · by_cases hpe : p = pqe
    · rw [hpe]
      exact List.mem_cons_self
    · exact List.mem_cons_of_mem _ (h.used p fun hnone => hp ((setEntry_of_ne hpe).trans hnone))
  · dsimp only
    rw [setEntry_self]
    rfl

variable {A B : List (ℕ × ℕ × ℕ)}

theorem Holds.add_next (h : q.Holds (A ++ x :: B)) (hnew : q.entries pqe = none)
    (hc : q.entries x.1 = some c) (at_ e : ℕ) :
    Holds ((q.setEntry pqe ⟨at_, e, c.next⟩).setEntry x.1 { c with next := some pqe })
      (A ++ x :: (pqe, at_, e) :: B) := by
  have hfresh := h.fresh hnew
  have hspine := h.spine
  have hnodup := h.nodup
  have hperm : (A ++ x :: (pqe, at_, e) :: B).Perm ((pqe, at_, e) :: (A ++ x :: B)) := by
    simpa using @List.perm_middle _ (pqe, at_, e) (A ++ [x]) B
  rw [List.map_append, List.map_cons] at hspine hnodup
  have hxA : x.1 ∉ A.map Prod.fst ++ B.map Prod.fst := (List.nodup_middle.mp hnodup |> List.nodup_cons.mp).1
  have hne : x.1 ≠ pqe :=
    fun heq => hfresh (heq ▸ List.mem_map_of_mem (List.mem_append_right A List.mem_cons_self))
  have hx : ((q.setEntry pqe ⟨at_, e, c.next⟩).setEntry x.1 { c with next := some pqe }).entries x.1 =
      some { c with next := some pqe } := setEntry_self _ _ _
  have hpqe : ((q.setEntry pqe ⟨at_, e, c.next⟩).setEntry x.1 { c with next := some pqe }).entries pqe =
      some ⟨at_, e, c.next⟩ := (setEntry_of_ne hne.symm).trans (setEntry_self _ _ _)
  have hother : ∀ p, p ≠ x.1 → p ≠ pqe →
      ((q.setEntry pqe ⟨at_, e, c.next⟩).setEntry x.1 { c with next := some pqe }).entries p =
        q.entries p :=
    fun p h1 h2 => (setEntry_of_ne h1).trans (setEntry_of_ne h2)
  refine ⟨?_, (hperm.map Prod.fst).nodup_iff.mpr (List.nodup_cons.mpr ⟨hfresh, h.nodup⟩),
    fun p hp => ?_, fun y hy => ?_⟩
  · rw [List.map_append, List.map_cons, List.map_cons]
    refine hspine.splice (links_of_entry hx) ?_ fun p hp => ?_
    · rw [links_of_entry hpqe, links_of_entry hc]
    · have hmem : p ∈ (A ++ x :: B).map Prod.fst := by
        rw [List.map_append, List.map_cons]
        exact List.mem_append.mpr ((List.mem_append.mp hp).imp_right (List.mem_cons_of_mem _))
      rw [links, links, hother p (fun heq => hxA (heq ▸ hp)) fun heq => hfresh (heq ▸ hmem)]
  · refine (hperm.map Prod.fst).mem_iff.mpr ?_
    by_cases hpe : p = pqe
    · rw [hpe]
      exact List.mem_cons_self
    · refine List.mem_cons_of_mem _ ?_
      by_cases hpx : p = x.1
      · rw [hpx]
        exact List.mem_map_of_mem (List.mem_append_right A List.mem_cons_self)
      · exact h.used p fun hnone => hp ((hother p hpx hpe).trans hnone)
  · rcases List.mem_cons.mp (hperm.mem_iff.mp hy) with rfl | hy
    · rw [hpqe]
      rfl
    · by_cases hyx : y.1 = x.1
      · rw [hyx, hx, ← h.items y hy, hyx, hc]
        rfl
      · rw [hother y.1 hyx fun heq => hfresh (heq ▸ List.mem_map_of_mem hy)]
        exact h.items y hy

theorem linkAfter_concat (pprev : Link) (A : List (ℕ × ℕ × ℕ)) (x : ℕ × ℕ × ℕ) :
    linkAfter pprev (A ++ [x]) = .next x.1 := by
  rw [linkAfter, List.getLast?_concat]
  rfl

theorem Holds.setLink (h : q.Holds (A ++ B)) (hnew : q.entries pqe = none) (at_ e : ℕ) :
    ∃ q', (q.setEntry pqe ⟨at_, e, (B.map Prod.fst).head?⟩).setLink pqe (linkAfter .head A) = some q' ∧
      q'.Holds (A ++ (pqe, at_, e) :: B) := by
  rcases List.eq_nil_or_concat' A with rfl | ⟨A, x, rfl⟩
  · rw [List.nil_append] at h
    rw [← h.spine.eq_head]
    exact ⟨_, rfl, h.add_head hnew at_ e⟩
  · rw [List.append_assoc, List.singleton_append] at h
    obtain ⟨c, hc, -⟩ := exists_entry (h.items x (List.mem_append_right A List.mem_cons_self))
    have hne : x.1 ≠ pqe := fun heq => by
      rw [heq, hnew] at hc
      cases hc
    have hnext : c.next = (B.map Prod.fst).head? := by
      have hrest := h.spine
      rw [List.map_append, List.map_cons] at hrest
      rw [← links_of_entry hc]
      exact hrest.rest.eq_head
    have hadd := h.add_next hnew hc at_ e
    rw [hnext] at hadd
    rw [linkAfter_concat, PQ.setLink, setEntry_of_ne hne, hc, List.append_assoc, List.singleton_append]
    exact ⟨_, rfl, hadd⟩

/-- **`add`** ends, and it puts the entry behind those with the same deadline or an earlier one. -/
theorem Holds.add (h : q.Holds M) (hnew : q.entries pqe = none) (fuel at_ e : ℕ) :
    (M.length ≤ fuel → (q.add fuel pqe at_ e).isSome = true) ∧
    ∀ q', q.add fuel pqe at_ e = some q' → ∃ A B, M = A ++ B ∧ (∀ x ∈ A, x.2.1 ≤ at_) ∧
      (∀ x ∈ B.head?, at_ < x.2.1) ∧
      q'.Holds (A ++ (pqe, at_, e) :: B) := by
  obtain ⟨hspine, hitems⟩ := h.setEntry_new hnew ⟨at_, e, none⟩
  obtain ⟨hends, hspec⟩ := @seek_spec _ M fuel at_ _ .head hspine hitems
  have htwice : ∀ r, (q.setEntry pqe ⟨at_, e, none⟩).setEntry pqe ⟨at_, e, r⟩ =
      q.setEntry pqe ⟨at_, e, r⟩ := fun r => by
    rw [setEntry, setEntry, setEntry, update_idem]
  constructor
  · intro hlen
    obtain ⟨r, hr⟩ := Option.isSome_iff_exists.mp (hends hlen)
    obtain ⟨A, B, rfl, -, -, rfl⟩ := hspec r hr
    obtain ⟨q', hq', -⟩ := h.setLink hnew at_ e
    rw [← htwice] at hq'
    exact Option.isSome_iff_exists.mpr ⟨q', Option.bind_eq_some_iff.mpr ⟨_, hr, hq'⟩⟩
  · intro q' hq'
    obtain ⟨r, hr, hset⟩ := Option.bind_eq_some_iff.mp hq'
    obtain ⟨A, B, rfl, hA, hB, rfl⟩ := hspec r hr
    obtain ⟨q'', hq'', hholds⟩ := h.setLink hnew at_ e
    rw [← htwice] at hq''
    obtain rfl : q'' = q' := Option.some.inj (hq''.symm.trans hset)
    exact ⟨A, B, rfl, hA, hB, hholds⟩

theorem Holds.remove_nil (h : q.Holds []) (jiffies : ℕ) : q.removeIfReady jiffies = some (none, q) := by
  have hhead : q.head = none := h.spine
  rw [removeIfReady, hhead]

/-- **`remove_if_ready`** takes the first entry, if its deadline has come. -/
theorem Holds.remove_cons (h : q.Holds (x :: M)) (jiffies : ℕ) :
    ∃ q', q'.Holds M ∧
      q.removeIfReady jiffies = if x.2.1 ≤ jiffies then some (some x.2.2, q') else some (none, q) := by
  obtain ⟨hhead, hspine⟩ := h.spine
  obtain ⟨hnot, hnodup⟩ := List.nodup_cons.mp h.nodup
  obtain ⟨c, hc, hat, he⟩ := exists_entry (h.items x List.mem_cons_self)
  have hsame : ∀ p, p ≠ x.1 → update q.entries x.1 none p = q.entries p := fun p hp =>
    update_of_ne hp _ _
  have hmem : ∀ y ∈ M, y.1 ≠ x.1 := fun y hy heq => hnot (heq ▸ List.mem_map_of_mem hy)
  refine ⟨⟨c.next, update q.entries x.1 none⟩, ⟨?_, hnodup, fun p hp => ?_, fun y hy => ?_⟩, ?_⟩
  · rw [links_of_entry hc] at hspine
    refine hspine.congr fun p hp => ?_
    obtain ⟨y, hy, rfl⟩ := List.mem_map.mp hp
    rw [links, links]
    dsimp only
    rw [hsame y.1 (hmem y hy)]
  · dsimp only at hp
    have hpx : p ≠ x.1 := fun heq => hp (heq ▸ update_self _ _ _)
    rw [hsame p hpx] at hp
    exact (List.mem_cons.mp (h.used p hp)).resolve_left hpx
  · dsimp only
    rw [hsame y.1 (hmem y hy)]
    exact h.items y (List.mem_cons_of_mem x hy)
  · rw [removeIfReady, hhead]
    dsimp only
    rw [hc, Option.bind_eq_bind, Option.bind_some, hat, he]
    rfl

end PQ

/-! ### The events that wait -/

/-- The list `C` is the list `pending`, sorted by deadline, with equal deadlines in the same
order. -/
structure Queued (C pending : List (ℕ × ℕ)) : Prop where
  sorted : C.Pairwise fun x y => x.1 ≤ y.1
  stable : ∀ d, C.filter (fun x => x.1 = d) = pending.filter fun x => x.1 = d

namespace Queued

variable {C pending A B : List (ℕ × ℕ)} {x : ℕ × ℕ}

theorem nil : Queued [] [] := ⟨List.Pairwise.nil, fun _ => rfl⟩

theorem mem_iff (h : Queued C pending) : x ∈ C ↔ x ∈ pending := by
  have hx : x ∈ C.filter (fun y => y.1 = x.1) ↔ x ∈ pending.filter fun y => y.1 = x.1 := by rw [h.stable]
  simpa using hx

theorem perm (h : Queued C pending) : C.Perm pending := by
  refine List.perm_iff_count.mpr fun x => ?_
  have hcount := congrArg (List.count x) (h.stable x.1)
  rwa [List.count_filter (by simp), List.count_filter (by simp)] at hcount

/-- An event that is added comes behind those with the same deadline or an earlier one. -/
theorem add (h : Queued (A ++ B) pending) (hA : ∀ y ∈ A, y.1 ≤ x.1) (hB : ∀ y ∈ B.head?, x.1 < y.1) :
    Queued (A ++ x :: B) (pending ++ [x]) := by
  obtain ⟨hsA, hsB, hAB⟩ := List.pairwise_append.mp h.sorted
  have hlater : ∀ y ∈ B, x.1 < y.1 := by
    cases B with
    | nil => simp
    | cons b B =>
      have hb : x.1 < b.1 := hB b rfl
      exact List.forall_mem_cons.mpr ⟨hb,
        fun y hy => Nat.lt_of_lt_of_le hb ((List.pairwise_cons.mp hsB).1 y hy)⟩
  refine ⟨List.pairwise_append.mpr ⟨hsA,
    List.pairwise_cons.mpr ⟨fun y hy => Nat.le_of_lt (hlater y hy), hsB⟩, ?_⟩, fun d => ?_⟩
  · intro y hy z hz
    rcases List.mem_cons.mp hz with rfl | hz
    · exact hA y hy
    · exact hAB y hy z hz
  · have hstable := h.stable d
    rw [List.filter_append] at hstable
    rw [List.filter_append, List.filter_append, ← hstable]
    by_cases hd : x.1 = d
    · -- nothing behind the new event has its deadline
      have hnone : B.filter (fun y => y.1 = d) = [] := by
        refine List.filter_eq_nil_iff.mpr fun y hy => ?_
        have := hlater y hy
        simp only [decide_eq_true_eq]
        omega
      simp [hd, hnone]
    · simp [hd]

/-- The first event is the earliest one among those with the least deadline. -/
theorem remove (h : Queued (x :: C) pending) : ∃ before after, pending = before ++ x :: after ∧
    (∀ y ∈ before, x.1 < y.1) ∧ (∀ y ∈ after, x.1 ≤ y.1) ∧ Queued C (before ++ after) := by
  obtain ⟨hleast, hsorted⟩ := List.pairwise_cons.mp h.sorted
  have hfirst := h.stable x.1
  rw [List.filter_cons_of_pos (by simp)] at hfirst
  obtain ⟨before, after, rfl, hbefore, -, hafter⟩ := List.filter_eq_cons_iff.mp hfirst.symm
  have hall : ∀ y ∈ before ++ x :: after, x.1 ≤ y.1 := fun y hy => by
    rcases List.mem_cons.mp (h.mem_iff.mpr hy) with rfl | hy
    · exact Nat.le_refl _
    · exact hleast y hy
  refine ⟨before, after, rfl, fun y hy => ?_, fun y hy => hall y (by simp [hy]), hsorted, fun d => ?_⟩
  · have hne : y.1 ≠ x.1 := by simpa using hbefore y hy
    have hle := hall y (List.mem_append_left _ hy)
    omega
  · have hstable := h.stable d
    rw [List.filter_append, List.filter_cons, List.filter_cons] at hstable
    rw [List.filter_append]
    by_cases hd : x.1 = d
    · subst hd
      have hnone : before.filter (fun y => y.1 = x.1) = [] := List.filter_eq_nil_iff.mpr hbefore
      rw [hnone, ← hafter]
      rfl
    · simpa [hd] using hstable

end Queued

/-! ### Runs -/

/-- A run of the queue, with the events that were added and those that were returned, in their
order. -/
inductive Trace : PQ → List (ℕ × ℕ) → List ℕ → Prop
  | start : Trace PQ.empty [] []
  | add {q q' : PQ} {added : List (ℕ × ℕ)} {returned : List ℕ} (h : Trace q added returned)
      (fuel pqe at_ e : ℕ)
      (hnew : q.entries pqe = none) (hadd : q.add fuel pqe at_ e = some q') :
      Trace q' (added ++ [(at_, e)]) returned
  | remove {q q' : PQ} {added : List (ℕ × ℕ)} {returned : List ℕ} {jiffies : ℕ} {r : Option ℕ}
      (h : Trace q added returned) (hremove : q.removeIfReady jiffies = some (r, q')) :
      Trace q' added (returned ++ r.toList)

/-- What a run keeps. -/
structure Waiting (q : PQ) (added : List (ℕ × ℕ)) (returned : List ℕ) (M : List (ℕ × ℕ × ℕ))
    (pending : List (ℕ × ℕ)) : Prop where
  holds : q.Holds M
  queued : Queued (M.map Prod.snd) pending
  sublist : pending.Sublist added
  events : (returned ++ pending.map Prod.snd).Perm (added.map Prod.snd)

section Runs

variable {q q' : PQ} {added pending : List (ℕ × ℕ)} {returned : List ℕ} {M : List (ℕ × ℕ × ℕ)}

theorem Waiting.add (h : Waiting q added returned M pending) {fuel pqe at_ e : ℕ}
    (hnew : q.entries pqe = none) (hadd : q.add fuel pqe at_ e = some q') :
    ∃ M', Waiting q' (added ++ [(at_, e)]) returned M' (pending ++ [(at_, e)]) := by
  obtain ⟨A, B, rfl, hA, hB, hholds⟩ := (h.holds.add hnew fuel at_ e).2 q' hadd
  have hqueued := h.queued
  rw [List.map_append] at hqueued
  refine ⟨_, hholds, ?_, h.sublist.append (List.Sublist.refl _), ?_⟩
  · rw [List.map_append, List.map_cons]
    refine hqueued.add (List.forall_mem_map.mpr hA) fun y hy => ?_
    rw [List.head?_map] at hy
    obtain ⟨z, hz, rfl⟩ := Option.map_eq_some_iff.mp hy
    exact hB z hz
  · rw [List.map_append, List.map_append, ← List.append_assoc]
    exact h.events.append_right _

theorem Waiting.remove (h : Waiting q added returned M pending) (jiffies : ℕ) :
    ∃ r q', q.removeIfReady jiffies = some (r, q') ∧ (r ≠ none ↔ ∃ x ∈ pending, x.1 ≤ jiffies) ∧
      (∀ e, r = some e → ∃ at_ before after, pending = before ++ (at_, e) :: after ∧
        (∀ x ∈ before, at_ < x.1) ∧
        ∀ x ∈ after, at_ ≤ x.1) ∧
      ∃ M' pending', Waiting q' added (returned ++ r.toList) M' pending' := by
  have hholds := h.holds
  have hqueued := h.queued
  cases M with
  | nil =>
    refine ⟨none, q, hholds.remove_nil jiffies, ?_, by simp, [], pending, ?_⟩
    · refine iff_of_false (by simp) ?_
      rintro ⟨x, hx, -⟩
      exact absurd (hqueued.mem_iff.mpr hx) (by simp)
    · rwa [Option.toList_none, List.append_nil]
  | cons x M =>
    obtain ⟨q', hholds', hremove⟩ := hholds.remove_cons jiffies
    by_cases hready : x.2.1 ≤ jiffies
    · rw [if_pos hready] at hremove
      obtain ⟨before, after, rfl, hbefore, hafter, hqueued'⟩ := hqueued.remove
      refine ⟨_, q', hremove, iff_of_true (by simp) ⟨x.2, by simp, hready⟩, ?_, M, before ++ after,
        hholds', hqueued', ?_, ?_⟩
      · rintro e he
        obtain rfl := Option.some.inj he
        exact ⟨x.2.1, before, after, rfl, hbefore, hafter⟩
      · exact ((List.Sublist.refl before).append (List.sublist_cons_self x.2 after)).trans h.sublist
      · refine List.Perm.trans ?_ h.events
        rw [Option.toList_some, List.append_assoc, List.singleton_append, List.map_append,
          List.map_append, List.map_cons]
        exact List.perm_middle.symm.append_left returned
    · rw [if_neg hready] at hremove
      refine ⟨none, q, hremove, iff_of_false (by simp) ?_, by simp, x :: M, pending, ?_⟩
      · rintro ⟨y, hy, hle⟩
        rcases List.mem_cons.mp (hqueued.mem_iff.mpr hy) with rfl | hy
        · exact hready hle
        · exact hready (Nat.le_trans ((List.pairwise_cons.mp hqueued.sorted).1 y hy) hle)
      · rwa [Option.toList_none, List.append_nil]

/-- **Every run.** -/
theorem Trace.waiting (h : Trace q added returned) : ∃ M pending, Waiting q added returned M pending := by
  induction h with
  | start => exact ⟨[], [], PQ.holds_empty, Queued.nil, List.Sublist.refl [], List.Perm.refl []⟩
  | add h fuel pqe at_ e hnew hadd ih =>
    obtain ⟨M, pending, hw⟩ := ih
    obtain ⟨M', hw'⟩ := hw.add hnew hadd
    exact ⟨M', _, hw'⟩
  | @remove q q' _ _ jiffies r h hremove ih =>
    obtain ⟨M, pending, hw⟩ := ih
    obtain ⟨r', q'', hremove', -, -, M', pending', hw'⟩ := hw.remove jiffies
    obtain ⟨rfl, rfl⟩ := Prod.mk.inj (Option.some.inj (hremove'.symm.trans hremove))
    exact ⟨M', pending', hw'⟩

/-- **The timer queue.**  After every run of `add` and `remove_if_ready`, at any values of the
counter: the list holds the events that wait, sorted by deadline and with equal deadlines in the
order in which they were added; they and the events that were returned are those that were added,
each once; `add` returns; and `remove_if_ready` returns an event exactly if a deadline has come, and
then the earliest one among those with the least deadline. -/
theorem timer_queue (h : Trace q added returned) :
    ∃ M pending, q.Holds M ∧ Queued (M.map Prod.snd) pending ∧ pending.Sublist added ∧
      (returned ++ M.map (fun x => x.2.2)).Perm (added.map Prod.snd) ∧
      (∀ pqe at_ e, q.entries pqe = none → (q.add M.length pqe at_ e).isSome = true) ∧
      ∀ jiffies, ∃ r q', q.removeIfReady jiffies = some (r, q') ∧
        (r ≠ none ↔ ∃ x ∈ pending, x.1 ≤ jiffies) ∧
        ∀ e, r = some e → ∃ at_ before after, pending = before ++ (at_, e) :: after ∧
          (∀ x ∈ before, at_ < x.1) ∧
          ∀ x ∈ after, at_ ≤ x.1 := by
  obtain ⟨M, pending, hw⟩ := h.waiting
  refine ⟨M, pending, hw.holds, hw.queued, hw.sublist, ?_, fun pqe at_ e hnew => ?_, fun jiffies => ?_⟩
  · refine List.Perm.trans (List.Perm.append_left returned ?_) hw.events
    have hperm := hw.queued.perm.map Prod.snd
    rwa [List.map_map] at hperm
  · exact (hw.holds.add hnew M.length at_ e).1 (Nat.le_refl M.length)
  · obtain ⟨r, q', hremove, hready, hleast, -⟩ := hw.remove jiffies
    exact ⟨r, q', hremove, hready, hleast⟩

end Runs

/-- Two events with one deadline: the first one comes first. -/
theorem timer_queue_tie :
    ∃ q, Trace q [(5, 11), (5, 12)] [] ∧ ∃ M pending, q.Holds M ∧ Queued (M.map Prod.snd) pending ∧
    pending.Sublist [(5, 11), (5, 12)] := by
  have htrace : Trace _ ([] ++ [(5, 11)] ++ [(5, 12)]) [] :=
    Trace.add (Trace.add Trace.start 0 0 5 11 rfl rfl) 1 1 5 12 rfl rfl
  obtain ⟨M, pending, hholds, hqueued, hsublist, -⟩ := timer_queue htrace
  exact ⟨_, htrace, M, pending, hholds, hqueued, hsublist⟩

end GheithOS.Events
