import GheithOS.Lib.Simulation
import GheithOS.Sync.Queue

/-!
# GheithOS.Sync.QueueFamily — many queues over one field `next`

The rest of `queue.h`, and any number of queues whose nodes share the field `next`.  A node may be
put into a queue while it is in none; the fields of nodes that have left a queue are stale and may
be anything.  Lists of nodes, one for each queue, simulate the queues call by call
(`sequences_simulate`): a call writes to nodes of its own queue only, so that the others keep their
lists (`Queues.Holds.set`).
-/

namespace GheithOS.Sync

open Lib Function

/-! ### `queue.h` -/

namespace Queue

def addStack (q : Queue) (next : Links) (t : ℕ) : Queue × Links :=
  (⟨some t, if q.last = none then some t else q.last⟩, update next t q.first)

/-- `remove_all`: the first node of the chain that is taken. -/
def removeAll (q : Queue) : Option ℕ × Queue := (q.first, ⟨none, none⟩)

/-- `transfer_all`: the queue, the other queue, and the links; `last` is set whenever `first` is. -/
def transferAll (q other : Queue) (next : Links) : Queue × Queue × Links :=
  match other.first with
  | none => (q, other, next)
  | some otherFirst =>
    match q.first with
    | none => (⟨some otherFirst, other.last⟩, ⟨none, none⟩, next)
    | some first =>
      match q.last with
      | some last => (⟨some first, other.last⟩, ⟨none, none⟩, update next last (some otherFirst))
      | none => (⟨some first, other.last⟩, ⟨none, none⟩, next)

def getFront (q : Queue) : Option ℕ := q.first

def getNext (next : Links) (item : ℕ) : Option ℕ := next item

variable {q other : Queue} {next : Links} {L A B : List ℕ} {t x item : ℕ}

theorem Holds.ends (h : Holds next q L) : (L = [] ↔ q.first = none) ∧ (L = [] ↔ q.last = none) := by
  refine ⟨h.spine.eq_nil_iff, ?_⟩
  rw [h.last, List.getLast?_eq_none_iff]

theorem Holds.eq_empty (h : Holds next q []) : q = empty :=
  congrArg₂ Queue.mk (h.ends.1.mp rfl) (h.ends.2.mp rfl)

theorem Holds.addStack (h : Holds next q L) (ht : t ∉ L) :
    Holds (q.addStack next t).2 (q.addStack next t).1 (t :: L) := by
  refine ⟨⟨rfl, ?_⟩, ?_, List.nodup_cons.mpr ⟨ht, h.nodup⟩⟩
  · show Spine (update next t q.first) (update next t q.first t) L
    rw [update_self]
    exact h.spine.congr fun x hx => update_of_ne (ne_of_mem_of_not_mem hx ht) _ _
  · show (if q.last = none then some t else q.last) = (t :: L).getLast?
    rw [h.last, List.getLast?_cons]
    cases L.getLast? <;> simp

theorem addStack_frame (hx : x ≠ t) : (q.addStack next t).2 x = next x := update_of_ne hx _ _

theorem Holds.head (h : Holds next q L) : q.first = L.head? := h.spine.eq_head

theorem Holds.removeAll (h : Holds next q L) : Spine next q.removeAll.1 L ∧ Holds next q.removeAll.2 [] :=
  ⟨h.spine, holds_empty next⟩

theorem Holds.remove (h : Holds next q L) :
    (q.remove next).1 = L.head? ∧ Holds next (q.remove next).2 L.tail := by
  cases L with
  | nil =>
    rw [h.remove_nil]
    exact ⟨rfl, h⟩
  | cons x L => exact h.remove_cons

theorem Holds.getNext (h : Holds next q L) (hitem : item ∈ L) :
    Queue.getNext next item = L[L.idxOf item + 1]? := by
  obtain ⟨L₁, L₂, rfl⟩ := List.append_of_mem hitem
  have hnot : item ∉ L₁ := fun hc => (List.nodup_append.mp h.nodup).2.2 item hc item List.mem_cons_self rfl
  rw [List.idxOf_append_of_notMem hnot, List.idxOf_cons_self, Nat.add_zero,
    List.getElem?_append_right (by omega), Nat.add_sub_cancel_left, List.getElem?_cons_succ,
      ← List.head?_eq_getElem?]
  exact h.spine.rest.eq_head

theorem transferAll_of_nil (h : other.first = none) : q.transferAll other next = (q, other, next) := by
  unfold transferAll
  rw [h]

theorem Holds.transferAll_of_empty (h : Holds next q []) (hB : Holds next other B) (hne : B ≠ []) :
    q.transferAll other next = (other, ⟨none, none⟩, next) := by
  obtain ⟨o, ho⟩ := Option.ne_none_iff_exists'.mp (mt hB.ends.1.mpr hne)
  have hq : q.first = none := h.spine
  unfold transferAll
  rw [ho, hq]
  dsimp only
  rw [← ho]

theorem Holds.transferAll_of_last {l : ℕ} (h : Holds next q (A ++ [l])) (hB : Holds next other B)
    (hne : B ≠ []) :
    q.transferAll other next = (⟨q.first, other.last⟩, ⟨none, none⟩, update next l other.first) := by
  obtain ⟨o, ho⟩ := Option.ne_none_iff_exists'.mp (mt hB.ends.1.mpr hne)
  obtain ⟨f, hf⟩ := Option.ne_none_iff_exists'.mp (mt h.ends.1.mpr (by simp))
  have hl : q.last = some l := by rw [h.last, List.getLast?_concat]
  unfold transferAll
  rw [ho, hf, hl]

/-- **The lists are joined**, and only nodes of the first are written. -/
theorem Holds.transferAll (hA : Holds next q A) (hB : Holds next other B) (hd : A.Disjoint B) :
    Holds (q.transferAll other next).2.2 (q.transferAll other next).1 (A ++ B) ∧
    Holds (q.transferAll other next).2.2 (q.transferAll other next).2.1 [] ∧
    ∀ x, x ∉ A → (q.transferAll other next).2.2 x = next x := by
  by_cases hne : B = []
  · subst hne
    rw [transferAll_of_nil hB.spine, List.append_nil]
    exact ⟨hA, hB, fun _ _ => rfl⟩
  · rcases List.eq_nil_or_concat A with rfl | ⟨A, l, rfl⟩
    · rw [hA.transferAll_of_empty hB hne]
      exact ⟨hB, holds_empty next, fun _ _ => rfl⟩
    · rw [List.concat_eq_append] at hA hd ⊢
      rw [hA.transferAll_of_last hB hne]
      dsimp only
      have hlB : l ∉ B := fun hl => hd (by simp) hl
      have hlA : l ∉ A := fun hl => (List.nodup_append.mp hA.nodup).2.2 l hl l (by simp) rfl
      refine ⟨⟨?_, ?_, List.nodup_append'.mpr ⟨hA.nodup, hB.nodup, hd⟩⟩, ⟨rfl, rfl, List.nodup_nil⟩,
        fun x hx => ?_⟩
      · refine hA.spine.append ?_ fun x hx => update_of_ne (ne_of_mem_of_not_mem hx hlA) _ _
        rw [update_self]
        exact hB.spine.congr fun x hx => update_of_ne (ne_of_mem_of_not_mem hx hlB) _ _
      · rw [List.getLast?_append_of_ne_nil _ hne]
        exact hB.last
      · refine update_of_ne ?_ _ _
        rintro rfl
        exact hx (by simp)

end Queue

/-! ### All queues of the kernel -/

variable {κ : Type}

structure Queues (κ : Type) where
  queue : κ → Queue
  next : Links

/-- The node is met on the way from `first`. -/
def Queues.Mem (s : Queues κ) (k : κ) (t : ℕ) : Prop :=
  ∃ n, (fun p => p.bind s.next)^[n] (s.queue k).first = some t

/-- Queues that have just been constructed; the fields of the nodes are whatever they are. -/
def Queues.start (κ : Type) (next : Links) : Queues κ := ⟨fun _ => Queue.empty, next⟩

inductive Queues.Call (κ : Type)
  | add (k : κ) (t : ℕ)
  | addStack (k : κ) (t : ℕ)
  | remove (k : κ)
  | removeAll (k : κ)
  | transferAll (k other : κ)
  | getFront (k : κ)
  | getNext (k : κ) (item : ℕ)

/-- A node is added while it is in no queue, and nodes are moved between two different queues. -/
def Queues.Call.Legal : Call κ → Queues κ → Prop
  | .add _ t, s => ∀ k, ¬ s.Mem k t
  | .addStack _ t, s => ∀ k, ¬ s.Mem k t
  | .transferAll k other, _ => k ≠ other
  | _, _ => True

/-- The lists of the queues. -/
structure Queues.Holds (s : Queues κ) (L : κ → List ℕ) : Prop where
  queue : ∀ k, (s.queue k).Holds s.next (L k)
  disjoint : ∀ k k', k ≠ k' → (L k).Disjoint (L k')

namespace Queues

variable {s : Queues κ} {L : κ → List ℕ} {k k' : κ} {t : ℕ}

theorem holds_start (next : Links) : (start κ next).Holds fun _ => [] :=
  ⟨fun _ => Queue.holds_empty next, fun _ _ _ => List.disjoint_nil_left []⟩

theorem Holds.mem_iff (h : s.Holds L) : s.Mem k t ↔ t ∈ L k := (h.queue k).spine.mem_iff.symm

variable {A : List ℕ}

/-- A part of a list has no more nodes than the list. -/
theorem Holds.disjoint_of_subset (h : s.Holds L) (hA : A ⊆ L k) (hk : k' ≠ k) : A.Disjoint (L k') :=
  List.disjoint_of_subset_left hA (h.disjoint k k' (Ne.symm hk))

theorem Holds.disjoint_of_fresh (h : s.Holds L) (ht : ∀ k, t ∉ L k) (hA : ∀ x ∈ A, x = t ∨ x ∈ L k)
    (hk : k' ≠ k) : A.Disjoint (L k') := by
  intro x hx hx'
  rcases hA x hx with rfl | hx
  · exact ht k' hx'
  · exact h.disjoint k k' (Ne.symm hk) hx hx'

variable [DecidableEq κ]

/-- **A call.**  Those that return nothing answer with a null pointer. -/
def exec : Call κ → Queues κ → Option ℕ × Queues κ
  | .add k t, s =>
    let (q, next) := (s.queue k).add s.next t
    (none, ⟨update s.queue k q, next⟩)
  | .addStack k t, s =>
    let (q, next) := (s.queue k).addStack s.next t
    (none, ⟨update s.queue k q, next⟩)
  | .remove k, s =>
    let (it, q) := (s.queue k).remove s.next
    (it, ⟨update s.queue k q, s.next⟩)
  | .removeAll k, s =>
    let (it, q) := (s.queue k).removeAll
    (it, ⟨update s.queue k q, s.next⟩)
  | .transferAll k other, s =>
    let (q, otherQ, next) := (s.queue k).transferAll (s.queue other) s.next
    (none, ⟨update (update s.queue k q) other otherQ, next⟩)
  | .getFront k, s => ((s.queue k).getFront, s)
  | .getNext _ item, s => (Queue.getNext s.next item, s)

/-- **The calls on lists**: append, push at the front, pop there, take all, concatenate and clear,
head and successor.  Nothing is said of what follows a node that is not in the queue. -/
def sequences : Call κ → (κ → List ℕ) → Option (Option ℕ) × (κ → List ℕ)
  | .add k t, L => (some none, update L k (L k ++ [t]))
  | .addStack k t, L => (some none, update L k (t :: L k))
  | .remove k, L => (some (L k).head?, update L k (L k).tail)
  | .removeAll k, L => (some (L k).head?, update L k [])
  | .transferAll k other, L => (some none, update (update L k (L k ++ L other)) other [])
  | .getFront k, L => (some (L k).head?, L)
  | .getNext k item, L => (if item ∈ L k then some (L k)[(L k).idxOf item + 1]? else none, L)

/-- An answer is the one that is asked for, if there is one. -/
def Agrees (r : Option ℕ) (r' : Option (Option ℕ)) : Prop := ∀ x ∈ r', r = x

/-- **One queue changes.** -/
theorem Holds.set {q : Queue} {next : Links} (h : s.Holds L) (hq : q.Holds next A)
    (hnext : ∀ k', k' ≠ k → ∀ x ∈ L k', next x = s.next x) (hd : ∀ k', k' ≠ k → A.Disjoint (L k')) :
    Queues.Holds ⟨update s.queue k q, next⟩ (update L k A) := by
  refine ⟨fun k' => ?_, fun k₁ k₂ hne => ?_⟩
  · by_cases hk : k' = k
    · subst hk
      simpa using hq
    · simp only [update_of_ne hk]
      exact (h.queue k').congr (hnext k' hk)
  · by_cases h₁ : k₁ = k
    · subst h₁
      rw [update_self, update_of_ne (Ne.symm hne)]
      exact hd k₂ (Ne.symm hne)
    · rw [update_of_ne h₁]
      by_cases h₂ : k₂ = k
      · subst h₂
        rw [update_self]
        exact List.disjoint_symm (hd k₁ h₁)
      · rw [update_of_ne h₂]
        exact h.disjoint k₁ k₂ hne

theorem Holds.add (h : s.Holds L) (ht : ∀ k, t ∉ L k) :
    (exec (.add k t) s).2.Holds (update L k (L k ++ [t])) := by
  refine h.set ((h.queue k).add (ht k)) (fun k' hk x hx => ?_) fun k' hk =>
    h.disjoint_of_fresh ht (by simp [or_comm]) hk
  exact (h.queue k).add_frame (fun hxk => h.disjoint k k' (Ne.symm hk) hxk hx)
    (ne_of_mem_of_not_mem hx (ht k'))

theorem Holds.addStack (h : s.Holds L) (ht : ∀ k, t ∉ L k) :
    (exec (.addStack k t) s).2.Holds (update L k (t :: L k)) := by
  refine h.set ((h.queue k).addStack (ht k)) (fun k' _ x hx => ?_) fun k' hk =>
    h.disjoint_of_fresh ht (by simp) hk
  exact Queue.addStack_frame (ne_of_mem_of_not_mem hx (ht k'))

theorem Holds.remove (h : s.Holds L) : (exec (.remove k) s).2.Holds (update L k (L k).tail) :=
  h.set (h.queue k).remove.2 (fun _ _ _ _ => rfl) fun _ hk =>
    h.disjoint_of_subset (List.tail_sublist _).subset hk

theorem Holds.removeAll (h : s.Holds L) : (exec (.removeAll k) s).2.Holds (update L k []) :=
  h.set (h.queue k).removeAll.2 (fun _ _ _ _ => rfl) fun _ hk => h.disjoint_of_subset (List.nil_subset _) hk

/-- First the other queue is cleared, then its list is put at the end of the queue's. -/
theorem Holds.transferAll {other : κ} (h : s.Holds L) (hne : k ≠ other) :
    (exec (.transferAll k other) s).2.Holds
    (update (update L k (L k ++ L other)) other []) := by
  obtain ⟨hq, hother, hframe⟩ := (h.queue k).transferAll (h.queue other) (h.disjoint k other hne)
  have hcleared : Queues.Holds ⟨update s.queue other Queue.empty, s.next⟩ (update L other []) :=
    h.set (Queue.holds_empty s.next) (fun _ _ _ _ => rfl) fun _ hk =>
      h.disjoint_of_subset (List.nil_subset _) hk
  rw [update_comm hne]
  have hset := hcleared.set hq (k := k) (fun k' hk x hx => ?_) fun k' hk => ?_
  · dsimp only at hset
    rw [update_comm (Ne.symm hne), ← hother.eq_empty] at hset
    exact hset
  · refine hframe x fun hxk => ?_
    by_cases hko : k' = other
    · subst hko
      simp at hx
    · rw [update_of_ne hko] at hx
      exact h.disjoint k k' (Ne.symm hk) hxk hx
  · by_cases hko : k' = other
    · subst hko
      simp
    · rw [update_of_ne hko, List.disjoint_append_left]
      exact ⟨h.disjoint k k' (Ne.symm hk), h.disjoint other k' (Ne.symm hko)⟩

/-- **Call by call**, the queues do what the lists do. -/
theorem sequences_simulate : Simulates Queues.Holds Agrees Call.Legal exec (sequences : Call κ → _) := by
  constructor
  · rintro (⟨k, t⟩ | ⟨k, t⟩ | k | k | ⟨k, other⟩ | k | ⟨k, item⟩) s L h -
    · rintro x ⟨⟩
      rfl
    · rintro x ⟨⟩
      rfl
    · rintro x ⟨⟩
      exact (h.queue k).remove.1
    · rintro x ⟨⟩
      exact (h.queue k).head
    · rintro x ⟨⟩
      rfl
    · rintro x ⟨⟩
      exact (h.queue k).head
    · intro x hx
      by_cases hitem : item ∈ L k
      · simp only [sequences, if_pos hitem] at hx
        obtain rfl := Option.some.inj hx
        exact (h.queue k).getNext hitem
      · simp only [sequences, if_neg hitem] at hx
        cases hx
  · rintro (⟨k, t⟩ | ⟨k, t⟩ | k | k | ⟨k, other⟩ | k | ⟨k, item⟩) s L h hlegal
    · exact h.add fun k' => mt h.mem_iff.mpr (hlegal k')
    · exact h.addStack fun k' => mt h.mem_iff.mpr (hlegal k')
    · exact h.remove
    · exact h.removeAll
    · exact h.transferAll hlegal
    · exact h
    · exact h

/-- **Queues are sequences.**  After every run of legal calls, and whatever the nodes held at first:
the calls have been answered as by the lists; each queue is the chain of its list, without
repetition, from `first` to `last`, which are null just if the list is empty; the lists have no node
in common; what `remove_all` returns leads through the whole list; and a node of a list is followed
by its successor there. -/
theorem queues_are_sequences (next : Links) (calls : List (Call κ)) {answers : List (Option ℕ)}
    (hlegal : Legal Call.Legal exec (start κ next) calls)
    (hrun : runs exec (start κ next) calls = (answers, s)) :
    ∃ answers' L, runs sequences (fun _ => []) calls = (answers', L) ∧
      List.Forall₂ Agrees answers answers' ∧
      (∀ k, (s.queue k).Holds s.next (L k) ∧ (L k = [] ↔ (s.queue k).first = none) ∧
        (L k = [] ↔ (s.queue k).last = none) ∧ Spine s.next (s.queue k).removeAll.1 (L k) ∧
        ∀ item ∈ L k, Queue.getNext s.next item = (L k)[(L k).idxOf item + 1]?) ∧
      ∀ k k', k ≠ k' → (L k).Disjoint (L k') := by
  obtain ⟨hanswers, h⟩ := sequences_simulate.runs calls (holds_start next) hlegal
  rw [hrun] at hanswers h
  refine ⟨_, _, rfl, hanswers, fun k => ?_, h.disjoint⟩
  have hk := h.queue k
  exact ⟨hk, hk.ends.1, hk.ends.2, hk.removeAll.1, fun item hitem => hk.getNext hitem⟩

/-- Two queues with one node each; the one is moved to the end of the other, and the first node is
taken. -/
def twoQueues : List (Call Bool) := [.add false 1, .add true 2, .transferAll true false, .remove true]

theorem queues_are_sequences_two :
    ∃ answers s, runs exec (start Bool fun _ => none) twoQueues = (answers, s) ∧
    (s.queue true).Holds s.next [1] ∧ (s.queue false).Holds s.next [] := by
  have hstart : (start Bool fun _ => none).Holds fun _ => [] := holds_start _
  have hfirst : ∀ k, 1 ∉ (fun _ : Bool => ([] : List ℕ)) k := fun k => List.not_mem_nil
  have hlegal : Legal Call.Legal exec (start Bool fun _ => none) twoQueues := by
    refine ⟨fun k => mt hstart.mem_iff.mp (hfirst k), fun k => mt (hstart.add hfirst).mem_iff.mp ?_,
      Bool.noConfusion, trivial, trivial⟩
    cases k <;> decide
  obtain ⟨answers', L, hspec, -, hq, -⟩ := queues_are_sequences (fun _ => none) twoQueues hlegal rfl
  obtain rfl : _ = L := (Prod.ext_iff.mp hspec).2
  exact ⟨_, _, rfl, (hq true).1, (hq false).1⟩

end Queues

end GheithOS.Sync
