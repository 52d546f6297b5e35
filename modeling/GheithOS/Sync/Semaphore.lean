import GheithOS.Lib.Prog
import GheithOS.Sync.Queue

/-!
# GheithOS.Sync.Semaphore — `semaphore.h` and `semaphore.cc`

A semaphore and the ready queue of the kernel.  `up`, `down` and `awaitReady` run under the lock of
the semaphore, so each is one step; `schedule` is a core that takes the next event to run.  `down`
makes a new event, which is named by its number.  The count is a natural number: 2^64 calls of `up`
do not happen.

`Views s W R` says that `W` are the events that wait and `R` those that are ready; one lemma for
each operation says what it does to the two lists.  The accounting of whole runs is
`semaphore_accounting`.
-/

namespace GheithOS.Sync

open Lib

/-- A semaphore, `impl::ready_queue`, and the events. -/
structure Sys where
  count : ℕ
  waiting : Queue
  ready : Queue
  next : Links
  made : ℕ

def Sys.init (count : ℕ) : Sys := ⟨count, .empty, .empty, fun _ => none, 0⟩

/-- `ready_queue.add`. -/
def Sys.makeReady (s : Sys) (e : ℕ) : Sys :=
  let (ready, next) := s.ready.add s.next e
  { s with ready := ready, next := next }

/-- `waiting.add`. -/
def Sys.makeWait (s : Sys) (e : ℕ) : Sys :=
  let (waiting, next) := s.waiting.add s.next e
  { s with waiting := waiting, next := next }

/-- `up`, with the event that it made ready. -/
def up (s : Sys) : Except Halt (Option ℕ × Sys) :=
  let (e, waiting) := s.waiting.remove s.next
  let s := { s with waiting := waiting }
  match e with
  | some e => if s.count = 0 then .ok (some e, s.makeReady e) else .error .assertion
  | none => .ok (none, { s with count := s.count + 1 })

/-- `down`, with the event that it made. -/
def down (s : Sys) : ℕ × Sys :=
  let e := s.made
  let s := { s with made := s.made + 1 }
  if 0 < s.count then (e, { s with count := s.count - 1 }.makeReady e) else (e, s.makeWait e)

def awaitReady (s : Sys) : Bool × Sys :=
  if 0 < s.count then (true, { s with count := s.count - 1 }) else (false, s)

/-- `ready_queue.remove`. -/
def schedule (s : Sys) : Option ℕ × Sys :=
  let (e, ready) := s.ready.remove s.next
  (e, { s with ready := ready })

/-! ### The two queues -/

/-- `W` waits, `R` is ready, and no event is in both. -/
structure Views (s : Sys) (W R : List ℕ) : Prop where
  waiting : s.waiting.Holds s.next W
  ready : s.ready.Holds s.next R
  apart : ∀ x ∈ W, x ∉ R
  made : ∀ x ∈ W ++ R, x < s.made

section Operations

variable {s : Sys} {W R : List ℕ} {e : ℕ}

theorem views_init (count : ℕ) : Views (.init count) [] [] :=
  ⟨Queue.holds_empty _, Queue.holds_empty _, by simp, by simp⟩

theorem Views.withCount (h : Views s W R) (n : ℕ) : Views { s with count := n } W R :=
  ⟨h.waiting, h.ready, h.apart, h.made⟩

theorem Views.withMade (h : Views s W R) {n : ℕ} (hn : s.made ≤ n) : Views { s with made := n } W R :=
  ⟨h.waiting, h.ready, h.apart, fun x hx => Nat.lt_of_lt_of_le (h.made x hx) hn⟩

theorem Views.new_notMem_left (h : Views s W R) : s.made ∉ W := fun hm =>
  Nat.lt_irrefl _ (h.made _ (List.mem_append_left R hm))

theorem Views.new_notMem_right (h : Views s W R) : s.made ∉ R := fun hm =>
  Nat.lt_irrefl _ (h.made _ (List.mem_append_right W hm))

theorem Views.makeReady (h : Views s W R) (hW : e ∉ W) (hR : e ∉ R) (hm : e < s.made) :
    Views (s.makeReady e) W (R ++ [e]) := by
  refine ⟨h.waiting.congr fun x hx => ?_, h.ready.add hR, fun x hx hxR => ?_, fun x hx => ?_⟩
  · exact h.ready.add_frame (h.apart x hx) fun he => hW (he ▸ hx)
  · rcases List.mem_append.mp hxR with hxR | hxe
    · exact h.apart x hx hxR
    · exact hW (List.mem_singleton.mp hxe ▸ hx)
  · rw [← List.append_assoc] at hx
    rcases List.mem_append.mp hx with hx | hx
    · exact h.made x hx
    · rw [List.mem_singleton.mp hx]
      exact hm

/-- An event that is nowhere waits behind the others. -/
theorem Views.makeWait (h : Views s W R) (hW : e ∉ W) (hR : e ∉ R) (hm : e < s.made) :
    Views (s.makeWait e) (W ++ [e]) R := by
  refine ⟨h.waiting.add hW, h.ready.congr fun x hx => ?_, fun x hx => ?_, fun x hx => ?_⟩
  · exact h.waiting.add_frame (fun hw => h.apart x hw hx) fun he => hR (he ▸ hx)
  · rcases List.mem_append.mp hx with hx | hx
    · exact h.apart x hx
    · rw [List.mem_singleton.mp hx]
      exact hR
  · simp only [List.mem_append, List.mem_singleton] at hx
    rcases hx with (hx | rfl) | hx
    · exact h.made x (List.mem_append_left R hx)
    · exact hm
    · exact h.made x (List.mem_append_right W hx)

/-- **`up`** hands its permit to the event that has waited longest, or counts it. -/
theorem Views.up_nil (h : Views s [] R) :
    ∃ s', up s = .ok (none, s') ∧ s'.count = s.count + 1 ∧ s'.made = s.made ∧
    Views s' [] R := by
  refine ⟨{ s with count := s.count + 1 }, ?_, rfl, rfl, h.withCount _⟩
  unfold up
  rw [h.waiting.remove_nil]

theorem Views.up_cons (h : Views s (e :: W) R) (hc : s.count = 0) :
    ∃ s', up s = .ok (some e, s') ∧ s'.count = 0 ∧ s'.made = s.made ∧ Views s' W (R ++ [e]) := by
  obtain ⟨h1, h2⟩ := h.waiting.remove_cons
  have hnd := List.nodup_cons.mp h.waiting.nodup
  have hv : Views { s with waiting := (s.waiting.remove s.next).2 } W R :=
    ⟨h2, h.ready, fun x hx => h.apart x (List.mem_cons_of_mem e hx),
      fun x hx => h.made x (List.mem_cons_of_mem e hx)⟩
  refine ⟨{ s with waiting := (s.waiting.remove s.next).2 }.makeReady e, ?_, hc, rfl,
    hv.makeReady hnd.1 (h.apart e List.mem_cons_self) (h.made e List.mem_cons_self)⟩
  unfold up
  dsimp only
  rw [h1]
  dsimp only
  rw [if_pos hc]

/-- **`down`** takes a permit or waits behind the others. -/
theorem Views.down_pos (h : Views s W R) (hc : 0 < s.count) : ∃ s', down s = (s.made, s') ∧
    s'.count + 1 = s.count ∧ s'.made = s.made + 1 ∧ Views s' W (R ++ [s.made]) := by
  have hv := (h.withMade (Nat.le_succ s.made)).withCount (s.count - 1)
  refine ⟨{ s with made := s.made + 1, count := s.count - 1 }.makeReady s.made, ?_,
    Nat.sub_add_cancel hc, rfl, hv.makeReady (h.new_notMem_left) (h.new_notMem_right) (Nat.lt_succ_self _)⟩
  unfold down
  dsimp only
  rw [if_pos hc]

theorem Views.down_zero (h : Views s W R) (hc : s.count = 0) : ∃ s', down s = (s.made, s') ∧
    s'.count = 0 ∧ s'.made = s.made + 1 ∧ Views s' (W ++ [s.made]) R := by
  have hv := h.withMade (Nat.le_succ s.made)
  refine ⟨{ s with made := s.made + 1 }.makeWait s.made, ?_, hc, rfl,
    hv.makeWait (h.new_notMem_left) (h.new_notMem_right) (Nat.lt_succ_self _)⟩
  unfold down
  dsimp only
  rw [if_neg (by omega)]

theorem Views.awaitReady (h : Views s W R) : ∃ s', awaitReady s = (decide (0 < s.count), s') ∧
    s'.count = s.count - 1 ∧ s'.made = s.made ∧ Views s' W R := by
  unfold Sync.awaitReady
  by_cases hc : 0 < s.count
  · rw [if_pos hc]
    exact ⟨{ s with count := s.count - 1 }, by rw [decide_eq_true hc], rfl, rfl, h.withCount _⟩
  · rw [if_neg hc]
    exact ⟨s, by rw [decide_eq_false hc], by omega, rfl, h⟩

/-- **A core** takes the event that has been ready longest. -/
theorem Views.schedule_nil (h : Views s W []) : schedule s = (none, s) := by
  unfold Sync.schedule
  rw [h.ready.remove_nil]

theorem Views.schedule_cons (h : Views s W (e :: R)) : ∃ s', schedule s = (some e, s') ∧
    s'.count = s.count ∧ s'.made = s.made ∧ Views s' W R := by
  obtain ⟨h1, h2⟩ := h.ready.remove_cons
  refine ⟨{ s with ready := (s.ready.remove s.next).2 }, ?_, rfl, rfl, h.waiting, h2,
    fun x hx hxR => h.apart x hx (List.mem_cons_of_mem e hxR), fun x hx => h.made x ?_⟩
  · unfold Sync.schedule
    dsimp only
    rw [h1]
  · simp only [List.mem_append, List.mem_cons] at hx ⊢
    exact hx.imp_right Or.inr

end Operations

/-! ### Runs -/

inductive Call where
  | up
  | down
  | awaitReady
  | schedule
  deriving DecidableEq

/-- What a call did. -/
inductive Note where
  | upped (woken : Option ℕ)
  | downed (event : ℕ) (granted : Bool)
  | awaited (granted : Bool)
  | scheduled (event : Option ℕ)
  deriving DecidableEq

def step (c : Call) (s : Sys) : Except Halt (Note × Sys) :=
  match c with
  | .up => (up s).map fun (woken, s) => (.upped woken, s)
  | .down => .ok (.downed (down s).1 (decide (0 < s.count)), (down s).2)
  | .awaitReady => .ok (.awaited (awaitReady s).1, (awaitReady s).2)
  | .schedule => .ok (.scheduled (schedule s).1, (schedule s).2)

/-- The calls one after another, and what they did. -/
def run : List Call → Sys → Except Halt (List Note × Sys)
  | [], s => .ok ([], s)
  | c :: cs, s =>
    match step c s with
    | .ok (note, s) => (run cs s).map fun (notes, s) => (note :: notes, s)
    | .error e => .error e

namespace Note

def isUp : Note → Bool
  | upped _ => true
  | _ => false

def isDown : Note → Bool
  | downed _ _ => true
  | _ => false

/-- An event was moved to the ready queue. -/
def isDownGrant : Note → Bool
  | upped (some _) => true
  | downed _ granted => granted
  | _ => false

def isGrant : Note → Bool
  | awaited granted => granted
  | note => note.isDownGrant

/-- The event that had to wait. -/
def began : Note → Option ℕ
  | downed e false => some e
  | _ => none

/-- The event that has waited and was granted. -/
def woke : Note → Option ℕ
  | upped woken => woken
  | _ => none

/-- The event that was granted. -/
def granted : Note → Option ℕ
  | upped woken => woken
  | downed e true => some e
  | _ => none

/-- The event that a core has taken from the ready queue. -/
def taken : Note → Option ℕ
  | scheduled event => event
  | _ => none

end Note

/-- **The accounting** after the calls in `log`, from a count of `c`; the events of `W` wait. -/
structure Accounts (c : ℕ) (log : List Note) (count : ℕ) (W : List ℕ) : Prop where
  permits : log.countP Note.isGrant + count = c + log.countP Note.isUp
  calls : log.countP Note.isDown = log.countP Note.isDownGrant + W.length
  idle : 0 < count → W = []
  order : log.filterMap Note.woke ++ W = log.filterMap Note.began
  once : (log.filterMap Note.granted ++ W).Nodup

/-- What a run keeps: the accounting and the queues, that every event of the log has been made, and
that the events that were granted have gone through the ready queue, in this order. -/
structure Inv (c : ℕ) (log : List Note) (s : Sys) (W R : List ℕ) : Prop extends
    Accounts c log s.count W, Views s W R where
  old : ∀ x ∈ log.filterMap Note.granted, x < s.made
  moved : log.filterMap Note.granted = log.filterMap Note.taken ++ R

section Runs

attribute [local simp] List.filterMap_cons Note.isUp Note.isDown Note.isDownGrant Note.isGrant
  Note.began Note.woke
  Note.granted Note.taken

theorem filterMap_snoc {α β : Type} (f : α → Option β) (l : List α) (x : α) :
    (l ++ [x]).filterMap f = l.filterMap f ++ (f x).toList := by
  rw [List.filterMap_append]
  cases h : f x with
  | none => simp [h]
  | some y => simp [h]

variable {c : ℕ} {log : List Note} {s : Sys} {W R : List ℕ}

theorem inv_init (c : ℕ) : Inv c [] (.init c) [] [] :=
  ⟨⟨by simp [Sys.init], rfl, fun _ => rfl, rfl, List.nodup_nil⟩, views_init c, by simp, rfl⟩

theorem Inv.up (h : Inv c log s W R) :
    ∃ note s' W' R', step .up s = .ok (note, s') ∧ Inv c (log ++ [note]) s' W' R' := by
  cases W with
  | nil =>
    obtain ⟨s', hup, hc, hm, hv⟩ := h.toViews.up_nil
    refine ⟨.upped none, s', [], R, by rw [step, hup]; rfl, ⟨?_, ?_, fun _ => rfl, ?_, ?_⟩, hv, ?_, ?_⟩
    · have := h.permits
      simp [hc]
      omega
    · simpa using h.calls
    · simpa using h.order
    · simpa using h.once
    · rw [hm]
      simpa using h.old
    · simpa using h.moved
  | cons e W =>
    have h0 : s.count = 0 := by
      by_contra hne
      have := h.idle (Nat.pos_of_ne_zero hne)
      cases this
    obtain ⟨s', hup, hc, hm, hv⟩ := h.toViews.up_cons h0
    have hmade := h.made e (by simp)
    refine ⟨.upped (some e), s', W, R ++ [e], by rw [step, hup]; rfl, ⟨?_, ?_, ?_, ?_, ?_⟩, hv, ?_, ?_⟩
    · have := h.permits
      simp [hc]
      omega
    · have := h.calls
      simp only [List.length_cons] at this
      simp
      omega
    · intro hpos
      omega
    · simpa using h.order
    · simpa using h.once
    · rw [hm]
      intro x hx
      rw [filterMap_snoc, List.mem_append] at hx
      rcases hx with hx | hx
      · exact h.old x hx
      · obtain rfl : x = e := by simpa using hx
        exact hmade
    · simp [h.moved]

theorem Inv.down (h : Inv c log s W R) :
    ∃ note s' W' R', step .down s = .ok (note, s') ∧ Inv c (log ++ [note]) s' W' R' := by
  have hnew : s.made ∉ log.filterMap Note.granted ++ W := by
    rw [List.mem_append, not_or]
    exact ⟨fun hm => Nat.lt_irrefl _ (h.old _ hm), h.toViews.new_notMem_left⟩
  have hold : ∀ x ∈ log.filterMap Note.granted, x < s.made + 1 := fun x hx =>
    Nat.lt_succ_of_lt (h.old x hx)
  by_cases hpos : 0 < s.count
  · obtain ⟨s', hdown, hc, hm, hv⟩ := h.toViews.down_pos hpos
    obtain rfl := h.idle hpos
    refine ⟨.downed s.made true, s', [], R ++ [s.made], ?_, ⟨?_, ?_, fun _ => rfl, ?_, ?_⟩, hv, ?_, ?_⟩
    · rw [step, hdown, decide_eq_true hpos]
    · have := h.permits
      simp
      omega
    · simpa using h.calls
    · simpa using h.order
    · have := h.once
      simp only [List.append_nil] at this hnew
      rw [filterMap_snoc, List.append_nil]
      exact List.nodup_append.mpr ⟨this, List.nodup_singleton _, fun a ha b hb hab =>
        hnew (by rw [← List.mem_singleton.mp hb, ← hab]; exact ha)⟩
    · rw [hm]
      intro x hx
      rw [filterMap_snoc, List.mem_append] at hx
      rcases hx with hx | hx
      · exact hold x hx
      · obtain rfl : x = s.made := by simpa using hx
        exact Nat.lt_succ_self _
    · simp [h.moved]
  · have h0 : s.count = 0 := by omega
    obtain ⟨s', hdown, hc, hm, hv⟩ := h.toViews.down_zero h0
    refine ⟨.downed s.made false, s', W ++ [s.made], R, ?_, ⟨?_, ?_, ?_, ?_, ?_⟩, hv, ?_, ?_⟩
    · rw [step, hdown, decide_eq_false hpos]
    · have := h.permits
      simp
      omega
    · have := h.calls
      simp
      omega
    · intro hpos'
      omega
    · have := h.order
      simp [← this]
    · rw [filterMap_snoc, ← List.append_assoc,
        show (Note.granted (.downed s.made false)).toList = [] from rfl, List.append_nil]
      exact List.nodup_append.mpr ⟨h.once, List.nodup_singleton _, fun a ha b hb hab =>
        hnew (by rw [← List.mem_singleton.mp hb, ← hab]; exact ha)⟩
    · rw [hm]
      simpa using hold
    · simpa using h.moved

theorem Inv.awaitReady (h : Inv c log s W R) :
    ∃ note s' W' R', step .awaitReady s = .ok (note, s') ∧ Inv c (log ++ [note]) s' W' R' := by
  obtain ⟨s', hawait, hc, hm, hv⟩ := h.toViews.awaitReady
  refine ⟨.awaited (decide (0 < s.count)), s', W, R, by rw [step, hawait], ⟨?_, ?_, ?_, ?_, ?_⟩, hv, ?_, ?_⟩
  · have := h.permits
    by_cases hpos : 0 < s.count
    · simp [hpos]
      omega
    · simp [hpos]
      omega
  · simpa using h.calls
  · intro hpos
    exact h.idle (by omega)
  · simpa using h.order
  · simpa using h.once
  · rw [hm]
    simpa using h.old
  · simpa using h.moved

theorem Inv.schedule (h : Inv c log s W R) :
    ∃ note s' W' R', step .schedule s = .ok (note, s') ∧ Inv c (log ++ [note]) s' W' R' := by
  -- the accounting knows nothing of what runs
  have hacc : ∀ e, Accounts c (log ++ [.scheduled e]) s.count W := fun e =>
    ⟨by simpa using h.permits,
      by simpa using h.calls, h.idle,
      by simpa using h.order,
      by simpa using h.once⟩
  cases R with
  | nil =>
    refine ⟨.scheduled none, s, W, [], by rw [step, h.toViews.schedule_nil], hacc none, h.toViews, ?_, ?_⟩
    · simpa using h.old
    · simpa using h.moved
  | cons e R =>
    obtain ⟨s', hsched, hc, hm, hv⟩ := h.toViews.schedule_cons
    refine ⟨.scheduled (some e), s', W, R, by rw [step, hsched], ?_, hv, ?_, ?_⟩
    · rw [hc]
      exact hacc (some e)
    · rw [hm]
      simpa using h.old
    · simp [h.moved]

theorem Inv.step (h : Inv c log s W R) (call : Call) :
    ∃ note s' W' R', step call s = .ok (note, s') ∧ Inv c (log ++ [note]) s' W' R' := by
  cases call with
  | up => exact h.up
  | down => exact h.down
  | awaitReady => exact h.awaitReady
  | schedule => exact h.schedule

theorem Inv.run (cs : List Call) : ∀ {log : List Note} {s : Sys} {W R : List ℕ}, Inv c log s W R →
    ∃ notes s' W' R', run cs s = .ok (notes, s') ∧ Inv c (log ++ notes) s' W' R' := by
  induction cs with
  | nil =>
    intro log s W R h
    exact ⟨[], s, W, R, rfl, by rwa [List.append_nil]⟩
  | cons call cs ih =>
    intro log s W R h
    obtain ⟨note, s₁, W₁, R₁, hstep, h₁⟩ := h.step call
    obtain ⟨notes, s₂, W₂, R₂, hrun, h₂⟩ := ih h₁
    refine ⟨note :: notes, s₂, W₂, R₂, ?_, ?_⟩
    · rw [Sync.run, hstep]
      dsimp only
      rw [hrun]
      rfl
    · rwa [List.append_assoc] at h₂

end Runs

end GheithOS.Sync
