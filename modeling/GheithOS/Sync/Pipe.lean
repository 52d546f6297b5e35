import Mathlib.Data.List.Induction
import Mathlib.Data.List.Nodup
import GheithOS.Word

/-!
# GheithOS.Sync.Pipe — pipes and their end of file

One pipe, and the processes that hold references to its two descriptors.  The bounded buffer is a
queue that gives every token to one call of `get`, in the order in which the calls of `put` got
their tickets.  A process that writes is suspended until its token is in the queue; a process that
reads is suspended until it has a token.  The destructor of the write descriptor puts the end of
file without anybody waiting for it, and so does a read that has taken it, so that the next read
finds it again.

The invariant is about the stream of all tokens, taken and queued: the bytes that were written and
then only ends of file (`Inv.stream`).  From it `pipe_end_of_file`, for every run.
-/

namespace GheithOS.Sync.Pipe

open Function

/-- `CharWrapper`: a byte or the end of file. -/
inductive Token where
  | data (b : Byte)
  | eof
  deriving DecidableEq

def Token.byte : Token → Option Byte
  | data b => some b
  | eof => none

/-- The size of the buffer that `pipe` makes. -/
def capacity : ℕ := 4096

/-- What a process is doing.  A read remembers whether it began after a read had returned 0, and the
number of its ticket. -/
inductive Doing where
  | idle
  | writing (b : Byte)
  | wrote
  | reading (late : Bool)
  | got (ticket : ℕ) (token : Token) (late : Bool)
  deriving DecidableEq

/-- A process: how many of its descriptors refer to either end. -/
structure Proc where
  writeRefs : ℕ
  readRefs : ℕ
  doing : Doing

/-- A byte that was returned. -/
structure Return where
  ticket : ℕ
  byte : Byte
  late : Bool
  deriving DecidableEq

structure State where
  /-- The processes; those from `born` on do not exist. -/
  procs : ℕ → Proc
  born : ℕ
  queue : List Token
  /-- Ends of file whose `put` has been called and has not got a ticket. -/
  pendingEof : ℕ
  /-- The bytes put, in the order of the tickets. -/
  written : List Byte
  /-- The tokens taken, in the order of the tickets. -/
  taken : List Token
  returns : List Return
  /-- A read has returned 0. -/
  zero : Bool

/-- After `pipe`: one process with one descriptor for either end. -/
def init : State where
  procs i := if i = 0 then ⟨1, 1, .idle⟩ else ⟨0, 0, .idle⟩
  born := 1
  queue := []
  pendingEof := 0
  written := []
  taken := []
  returns := []
  zero := false

inductive Action where
  | fork (i : ℕ)
  | dupWrite (i : ℕ)
  | dupRead (i : ℕ)
  | closeWrite (i : ℕ)
  | closeRead (i : ℕ)
  | write (i : ℕ) (b : Byte)
  | putData (i : ℕ)
  | resume (i : ℕ)
  | putEof
  | read (i : ℕ)
  | take (i : ℕ)
  | finish (i : ℕ)

/-- Process `i` becomes `p`. -/
def State.setProc (s : State) (i : ℕ) (p : Proc) : State := { s with procs := update s.procs i p }

/-- `~FileDescriptor` of the write end, if the last reference is gone. -/
def State.destroyWrite (s : State) : State :=
  if ∀ i < s.born, (s.procs i).writeRefs = 0 then { s with pendingEof := s.pendingEof + 1 } else s

/-- One action; a call on a descriptor that is not there, or of a process that is suspended, does
nothing. -/
def act (s : State) : Action → State
  | .fork i =>
    if i < s.born ∧ (s.procs i).doing = .idle
        then { s.setProc s.born (s.procs i) with born := s.born + 1 } else s
  | .dupWrite i =>
    let p := s.procs i
    if p.doing = .idle ∧ 0 < p.writeRefs then s.setProc i { p with writeRefs := p.writeRefs + 1 } else s
  | .dupRead i =>
    let p := s.procs i
    if p.doing = .idle ∧ 0 < p.readRefs then s.setProc i { p with readRefs := p.readRefs + 1 } else s
  | .closeWrite i =>
    let p := s.procs i
    if p.doing = .idle ∧ 0 < p.writeRefs
        then (s.setProc i { p with writeRefs := p.writeRefs - 1 }).destroyWrite else s
  | .closeRead i =>
    let p := s.procs i
    if p.doing = .idle ∧ 0 < p.readRefs then s.setProc i { p with readRefs := p.readRefs - 1 } else s
  | .write i b =>
    let p := s.procs i
    if p.doing = .idle ∧ 0 < p.writeRefs then s.setProc i { p with doing := .writing b } else s
  | .putData i =>
    let p := s.procs i
    match p.doing with
    | .writing b =>
      if s.queue.length < capacity then
        { s.setProc i { p with doing := .wrote } with
          queue := s.queue ++ [.data b], written := s.written ++ [b] }
      else s
    | _ => s
  | .resume i =>
    let p := s.procs i
    if p.doing = .wrote then s.setProc i { p with doing := .idle } else s
  | .putEof =>
    if 0 < s.pendingEof ∧ s.queue.length < capacity then
      { s with queue := s.queue ++ [.eof], pendingEof := s.pendingEof - 1 }
    else s
  | .read i =>
    let p := s.procs i
    if p.doing = .idle ∧ 0 < p.readRefs then s.setProc i { p with doing := .reading s.zero } else s
  | .take i =>
    let p := s.procs i
    match p.doing, s.queue with
    | .reading late, t :: queue =>
      { s.setProc i { p with doing := .got s.taken.length t late } with
        queue := queue, taken := s.taken ++ [t] }
    | _, _ => s
  | .finish i =>
    let p := s.procs i
    match p.doing with
    | .got k (.data b) late =>
        { s.setProc i { p with doing := .idle } with returns := s.returns ++ [⟨k, b, late⟩] }
    | .got _ .eof _ =>
      { s.setProc i { p with doing := .idle } with pendingEof := s.pendingEof + 1, zero := true }
    | _ => s

def run (as : List Action) : State := as.foldl act init

/-! ### The invariant -/

/-- Every reference to the write descriptor has been closed. -/
def Closed (s : State) : Prop := ∀ i, (s.procs i).writeRefs = 0

/-- Process `i` holds the token of ticket `k`. -/
def Holding (s : State) (i k : ℕ) (t : Token) (late : Bool) : Prop := (s.procs i).doing = .got k t late

structure Inv (s : State) : Prop where
  /-- All tokens: the bytes written, then ends of file, of which there are none while somebody may
  write. -/
  stream : ∃ m, s.taken ++ s.queue = s.written.map .data ++ List.replicate m .eof ∧ (0 < m → Closed s)
  pending : 0 < s.pendingEof → Closed s
  ended : s.zero = true → Token.eof ∈ s.taken
  unborn : ∀ i, s.born ≤ i → s.procs i = ⟨0, 0, .idle⟩
  writer : ∀ i b, (s.procs i).doing = .writing b → 0 < (s.procs i).writeRefs
  late : ∀ i, (s.procs i).doing = .reading true → s.zero = true
  holding : ∀ i k t late, Holding s i k t late → s.taken[k]? = some t ∧ (∀ r ∈ s.returns, r.ticket ≠ k) ∧
    (late = true → t = .eof)
  alone : ∀ i j k t t' l l', Holding s i k t l → Holding s j k t' l' → i = j
  returned : ∀ r ∈ s.returns, s.taken[r.ticket]? = some (.data r.byte) ∧ r.late = false
  once : (s.returns.map Return.ticket).Nodup
  accounted : ∀ k b, s.taken[k]? = some (.data b) → (∃ r ∈ s.returns, r.ticket = k) ∨
      ∃ i l, Holding s i k (.data b) l

section Stream

variable {l q : List Token} {w : List Byte} {m : ℕ}

theorem filterMap_stream (w : List Byte) (m : ℕ) :
    (w.map Token.data ++ List.replicate m Token.eof).filterMap Token.byte = w := by
  rw [List.filterMap_append, List.filterMap_map, List.filterMap_replicate_of_none rfl, List.append_nil]
  exact List.filterMap_some

/-- Where an end of file stands, all bytes are in front of it. -/
theorem stream_split (h : l ++ q = w.map .data ++ List.replicate m .eof) (he : Token.eof ∈ l) :
    l.filterMap Token.byte = w ∧ (∀ t ∈ q, t = .eof) ∧ 0 < m := by
  rcases List.append_eq_append_iff.mp h with ⟨x, hx, -⟩ | ⟨x, hx, hq⟩
  · have : Token.eof ∈ w.map Token.data := by
      rw [hx]
      exact List.mem_append_left x he
    simp at this
  · have hall : ∀ t ∈ x ++ q, t = .eof := by
      rw [← hq]
      exact fun t ht => List.eq_of_mem_replicate ht
    refine ⟨?_, fun t ht => hall t (List.mem_append_right x ht), ?_⟩
    · have hnone : x.filterMap Token.byte = [] := by
        rw [List.filterMap_eq_nil_iff]
        intro t ht
        rw [hall t (List.mem_append_left q ht)]
        rfl
      rw [hx, List.filterMap_append, hnone, List.append_nil, List.filterMap_map]
      exact List.filterMap_some
    · by_contra h0
      obtain rfl : m = 0 := by omega
      rw [List.replicate_zero, eq_comm, List.append_eq_nil_iff] at hq
      rw [hx, hq.1, List.append_nil] at he
      simp at he

theorem stream_getElem (h : l ++ q = w.map .data ++ List.replicate m .eof) {k : ℕ} {b : Byte}
    (hk : l[k]? = some (.data b)) : w[k]? = some b := by
  have h1 : (l ++ q)[k]? = some (.data b) := by
    rw [List.getElem?_append_left (List.getElem?_eq_some_iff.mp hk).1]
    exact hk
  rw [h] at h1
  by_cases hlt : k < w.length
  · rw [List.getElem?_append_left (by simpa using hlt), List.getElem?_map] at h1
    obtain ⟨b', hb', heq⟩ := Option.map_eq_some_iff.mp h1
    rw [hb', Token.data.inj heq]
  · rw [List.getElem?_append_right (by simpa using hlt)] at h1
    have := List.eq_of_mem_replicate (List.mem_of_getElem? h1)
    cases this

end Stream

theorem inv_init : Inv init where
  stream := ⟨0, rfl, fun h => absurd h (by decide)⟩
  pending h := absurd h (by decide)
  ended h := by cases h
  unborn i hi := by
    have : i ≠ 0 := by
      rintro rfl
      exact absurd hi (by decide)
    simp [init, this]
  writer i b h := by
    simp only [init] at h
    split at h <;> cases h
  late i h := by
    simp only [init] at h
    split at h <;> cases h
  holding i k t late h := by
    simp only [Holding, init] at h
    split at h <;> cases h
  alone i j k t t' l l' h := by
    simp only [Holding, init] at h
    split at h <;> cases h
  returned r h := by cases h
  once := List.nodup_nil
  accounted k b h := by cases h

section Steps

variable {s : State} {i : ℕ}

theorem setProc_self (s : State) (i : ℕ) (p : Proc) : (s.setProc i p).procs i = p := update_self _ _ _

theorem setProc_of_ne {j : ℕ} {p : Proc} (h : j ≠ i) : (s.setProc i p).procs j = s.procs j :=
  update_of_ne h _ _

/-- References change with `dup`, `close` and `fork` only. -/
theorem Closed.setDoing (hc : Closed s) (i : ℕ) (d : Doing) :
    Closed (s.setProc i { s.procs i with doing := d }) := by
  intro j
  by_cases hji : j = i
  · subst hji
    rw [setProc_self]
    exact hc j
  · rw [setProc_of_ne hji]
    exact hc j

/-- What is still to be said about process `i` when it becomes `p`, and nothing else changes. -/
theorem Inv.setProc (h : Inv s) {p : Proc} (hi : i < s.born) (hclosed : Closed s → p.writeRefs = 0)
    (hwriter : ∀ b, p.doing = .writing b → 0 < p.writeRefs)
    (hlate : p.doing = .reading true → s.zero = true) (hnew : ∀ k t l, p.doing ≠ .got k t l)
    (hold : ∀ k b l, ¬Holding s i k (.data b) l) : Inv (s.setProc i p) := by
  have hcl : Closed s → Closed (s.setProc i p) := fun hc j => by
    by_cases hji : j = i
    · subst hji
      rw [setProc_self]
      exact hclosed hc
    · rw [setProc_of_ne hji]
      exact hc j
  have hhold : ∀ j k t l, Holding (s.setProc i p) j k t l → j ≠ i ∧ Holding s j k t l :=
    fun j k t l hj => by
    by_cases hji : j = i
    · subst hji
      rw [Holding, setProc_self] at hj
      exact absurd hj (hnew k t l)
    · rw [Holding, setProc_of_ne hji] at hj
      exact ⟨hji, hj⟩
  refine {
    stream := h.stream.imp fun m hm => ⟨hm.1, fun h0 => hcl (hm.2 h0)⟩
    pending := fun h0 => hcl (h.pending h0)
    ended := h.ended
    unborn := fun j hj => ?_
    writer := fun j b hj => ?_
    late := fun j hj => ?_
    holding := fun j k t l hj => h.holding j k t l (hhold j k t l hj).2
    alone := fun j j' k t t' l l' hj hj' => h.alone j j' k t t' l l' (hhold _ _ _ _ hj).2
      (hhold _ _ _ _ hj').2
    returned := h.returned
    once := h.once
    accounted := fun k b hk => (h.accounted k b hk).imp id fun ⟨j, l, hj⟩ => ⟨j, l, ?_⟩ }
  · have hji : j ≠ i := by
      rintro rfl
      exact absurd hi (Nat.not_lt.mpr hj)
    rw [setProc_of_ne hji]
    exact h.unborn j hj
  · by_cases hji : j = i
    · subst hji
      rw [setProc_self] at hj ⊢
      exact hwriter b hj
    · rw [setProc_of_ne hji] at hj ⊢
      exact h.writer j b hj
  · by_cases hji : j = i
    · subst hji
      rw [setProc_self] at hj
      exact hlate hj
    · rw [setProc_of_ne hji] at hj
      exact h.late j hj
  · have hji : j ≠ i := by
      rintro rfl
      exact hold _ _ _ hj
    rw [Holding, setProc_of_ne hji]
    exact hj

/-- A process that is not as new exists. -/
theorem Inv.lt_born (h : Inv s) (hne : s.procs i ≠ ⟨0, 0, .idle⟩) : i < s.born := by
  by_contra hi
  exact hne (h.unborn i (Nat.le_of_not_lt hi))

theorem Inv.lt_born_of_doing (h : Inv s) (hne : (s.procs i).doing ≠ .idle) : i < s.born :=
  h.lt_born fun he => hne (by rw [he])

theorem Inv.lt_born_of_writeRefs (h : Inv s) (hpos : 0 < (s.procs i).writeRefs) : i < s.born :=
  h.lt_born fun he => by simp [he] at hpos

theorem Inv.lt_born_of_readRefs (h : Inv s) (hpos : 0 < (s.procs i).readRefs) : i < s.born :=
  h.lt_born fun he => by simp [he] at hpos

theorem Inv.setIdle (h : Inv s) {p : Proc} (hi : i < s.born) (hidle : (s.procs i).doing = .idle)
    (hp : p.doing = .idle) (hclosed : Closed s → p.writeRefs = 0) : Inv (s.setProc i p) := by
  exact h.setProc hi hclosed (by simp [hp]) (by simp [hp]) (by simp [hp]) (by simp [Holding, hidle])

theorem Inv.fork (h : Inv s) (i : ℕ) : Inv (act s (.fork i)) := by
  rw [act]
  split
  · next hg =>
    -- the new process is the first that does not exist
    have hnew := h.unborn s.born (Nat.le_refl _)
    have hb : Inv { s with born := s.born + 1 } :=
      { h with unborn := fun j hj => h.unborn j (Nat.le_of_succ_le hj) }
    refine hb.setIdle (i := s.born) (Nat.lt_succ_self _) ?_ hg.2 fun hc => hc i
    change (s.procs s.born).doing = .idle
    rw [hnew]
  · exact h

theorem Inv.dupWrite (h : Inv s) (i : ℕ) : Inv (act s (.dupWrite i)) := by
  rw [act]
  split
  · next hg =>
    refine h.setIdle (h.lt_born_of_writeRefs hg.2) hg.1 hg.1 fun hc => ?_
    have := hc i
    omega
  · exact h

theorem Inv.dupRead (h : Inv s) (i : ℕ) : Inv (act s (.dupRead i)) := by
  rw [act]
  split
  · next hg => exact h.setIdle (h.lt_born_of_readRefs hg.2) hg.1 hg.1 fun hc => hc i
  · exact h

theorem Inv.closeRead (h : Inv s) (i : ℕ) : Inv (act s (.closeRead i)) := by
  rw [act]
  split
  · next hg => exact h.setIdle (h.lt_born_of_readRefs hg.2) hg.1 hg.1 fun hc => hc i
  · exact h

/-- The last reference is gone: the end of file may be put. -/
theorem Inv.destroyWrite (h : Inv s) : Inv s.destroyWrite := by
  unfold State.destroyWrite
  split
  · next hall =>
    have hc : Closed s := fun j => by
      by_cases hj : j < s.born
      · exact hall j hj
      · rw [h.unborn j (Nat.le_of_not_lt hj)]
    exact { h with pending := fun _ => hc }
  · exact h

theorem Inv.closeWrite (h : Inv s) (i : ℕ) : Inv (act s (.closeWrite i)) := by
  rw [act]
  split
  · next hg =>
    apply Inv.destroyWrite
    refine h.setIdle (h.lt_born_of_writeRefs hg.2) hg.1 hg.1 fun hc => ?_
    have := hc i
    dsimp only
    omega
  · exact h

theorem Inv.write (h : Inv s) (i : ℕ) (b : Byte) : Inv (act s (.write i b)) := by
  rw [act]
  split
  · next hg =>
    exact h.setProc (h.lt_born_of_writeRefs hg.2) (fun hc => hc i) (fun _ _ => hg.2) (by simp) (by simp)
      (by simp [Holding, hg.1])
  · exact h

/-- A byte enters the queue while somebody holds the write descriptor. -/
theorem Inv.enqueueData (h : Inv s) (hc : ¬Closed s) (b : Byte) :
    Inv { s with queue := s.queue ++ [.data b], written := s.written ++ [b] } := by
  obtain ⟨m, hm, hclosed⟩ := h.stream
  obtain rfl : m = 0 := by
    by_contra h0
    exact hc (hclosed (Nat.pos_of_ne_zero h0))
  refine { h with stream := ⟨0, ?_, fun h0 => absurd h0 (Nat.lt_irrefl 0)⟩ }
  rw [List.replicate_zero, List.append_nil] at hm ⊢
  rw [List.map_append, ← hm, List.append_assoc]
  rfl

theorem Inv.putData (h : Inv s) (i : ℕ) : Inv (act s (.putData i)) := by
  rw [act]
  match hd : (s.procs i).doing with
  | .writing b =>
    dsimp only
    split
    · have hpos := h.writer i b hd
      have h1 : Inv (s.setProc i { s.procs i with doing := .wrote }) :=
        h.setProc (h.lt_born_of_writeRefs hpos) (fun hc => hc i) (by simp) (by simp) (by simp)
          (by simp [Holding, hd])
      refine h1.enqueueData (fun hc => ?_) b
      have := hc i
      rw [setProc_self] at this
      dsimp only at this
      omega
    · exact h
  | .idle => exact h
  | .wrote => exact h
  | .reading _ => exact h
  | .got _ _ _ => exact h

theorem Inv.resume (h : Inv s) (i : ℕ) : Inv (act s (.resume i)) := by
  rw [act]
  split
  · next hg =>
    exact h.setProc (h.lt_born_of_doing (by simp [hg])) (fun hc => hc i) (by simp) (by simp) (by simp)
      (by simp [Holding, hg])
  · exact h

theorem Inv.putEof (h : Inv s) : Inv (act s .putEof) := by
  rw [act]
  split
  · next hg =>
    have hc := h.pending hg.1
    obtain ⟨m, hm, -⟩ := h.stream
    refine { h with stream := ⟨m + 1, ?_, fun _ => hc⟩, pending := fun _ => hc }
    rw [← List.append_assoc, hm, List.replicate_succ', List.append_assoc]
  · exact h

theorem Inv.read (h : Inv s) (i : ℕ) : Inv (act s (.read i)) := by
  rw [act]
  split
  · next hg =>
    exact h.setProc (h.lt_born_of_readRefs hg.2) (fun hc => hc i) (by simp)
      (fun hr => Doing.reading.inj hr) (by simp)
      (by simp [Holding, hg.1])
  · exact h

/-- The ticket that is drawn is the next one. -/
theorem getElem?_snoc_of_lt {α : Type} {l : List α} {k : ℕ} {x y : α} (h : l[k]? = some x) :
    (l ++ [y])[k]? = some x := by
  rw [List.getElem?_append_left (List.getElem?_eq_some_iff.mp h).1]
  exact h

theorem Inv.take (h : Inv s) (i : ℕ) : Inv (act s (.take i)) := by
  rw [act]
  match hd : (s.procs i).doing, hq : s.queue with
  | .reading late, t :: queue =>
    dsimp only
    obtain ⟨m, hm, hclosed⟩ := h.stream
    rw [hq] at hm
    -- a read that began late finds only ends of file
    have heof : late = true → t = .eof := fun hl => by
      subst hl
      exact (stream_split hm (h.ended (h.late i hd))).2.1 t List.mem_cons_self
    -- the tickets of the others are older
    have hold : ∀ j k t' l, Holding s j k t' l → k < s.taken.length := fun j k t' l hj =>
      (List.getElem?_eq_some_iff.mp (h.holding j k t' l hj).1).1
    have hret : ∀ r ∈ s.returns, r.ticket < s.taken.length := fun r hr =>
      (List.getElem?_eq_some_iff.mp (h.returned r hr).1).1
    have hself : ∀ (s' : State) k t' l,
        s'.procs i = { s.procs i with doing := .got s.taken.length t late } →
        Holding s' i k t' l → k = s.taken.length ∧ t' = t ∧ l = late := by
      intro s' k t' l hs' hj
      rw [Holding, hs'] at hj
      injection hj with h1 h2 h3
      exact ⟨h1.symm, h2.symm, h3.symm⟩
    refine {
      stream := ⟨m, ?_, fun h0 => (hclosed h0).setDoing i _⟩
      pending := fun h0 => (h.pending h0).setDoing i _
      ended := fun hz => List.mem_append_left _ (h.ended hz)
      unborn := fun j hj => ?_
      writer := fun j b hj => ?_
      late := fun j hj => ?_
      holding := fun j k t' l hj => ?_
      alone := fun j j' k t₁ t₂ l l' hj hj' => ?_
      returned := fun r hr => ⟨getElem?_snoc_of_lt (h.returned r hr).1, (h.returned r hr).2⟩
      once := h.once
      accounted := fun k b hk => ?_ }
    · rw [List.append_assoc]
      exact hm
    · have hji : j ≠ i := by
        rintro rfl
        have := h.unborn j hj
        rw [this] at hd
        cases hd
      exact (setProc_of_ne hji).trans (h.unborn j hj)
    · by_cases hji : j = i
      · subst hji
        rw [show _ = _ from setProc_self s j _] at hj
        cases hj
      · rw [show _ = _ from setProc_of_ne hji] at hj ⊢
        exact h.writer j b hj
    · by_cases hji : j = i
      · subst hji
        rw [show _ = _ from setProc_self s j _] at hj
        cases hj
      · rw [show _ = _ from setProc_of_ne hji] at hj
        exact h.late j hj
    · by_cases hji : j = i
      · subst hji
        obtain ⟨rfl, rfl, rfl⟩ := hself _ k t' l (setProc_self s j _) hj
        refine ⟨by simp, fun r hr => ?_, heof⟩
        have := hret r hr
        omega
      · rw [Holding, show _ = _ from setProc_of_ne hji] at hj
        obtain ⟨h1, h2, h3⟩ := h.holding j k t' l hj
        exact ⟨getElem?_snoc_of_lt h1, h2, h3⟩
    · by_cases hji : j = i <;> by_cases hji' : j' = i
      · exact hji.trans hji'.symm
      · subst hji
        obtain ⟨rfl, -, -⟩ := hself _ k t₁ l (setProc_self s j _) hj
        rw [Holding, show _ = _ from setProc_of_ne hji'] at hj'
        exact absurd (hold _ _ _ _ hj') (Nat.lt_irrefl _)
      · subst hji'
        obtain ⟨rfl, -, -⟩ := hself _ k t₂ l' (setProc_self s j' _) hj'
        rw [Holding, show _ = _ from setProc_of_ne hji] at hj
        exact absurd (hold _ _ _ _ hj) (Nat.lt_irrefl _)
      · rw [Holding, show _ = _ from setProc_of_ne hji] at hj
        rw [Holding, show _ = _ from setProc_of_ne hji'] at hj'
        exact h.alone j j' k t₁ t₂ l l' hj hj'
    · by_cases hlt : k < s.taken.length
      · dsimp only at hk
        rw [List.getElem?_append_left hlt] at hk
        refine (h.accounted k b hk).imp id fun ⟨j, l, hj⟩ => ⟨j, l, ?_⟩
        have hji : j ≠ i := by
          rintro rfl
          rw [Holding, hd] at hj
          cases hj
        rw [Holding, show _ = _ from setProc_of_ne hji]
        exact hj
      · dsimp only at hk
        have hklen := (List.getElem?_eq_some_iff.mp hk).1
        rw [List.length_append, List.length_singleton] at hklen
        obtain rfl : k = s.taken.length := by omega
        obtain rfl : t = .data b := by simpa using hk
        refine .inr ⟨i, late, ?_⟩
        rw [Holding, show _ = _ from setProc_self s i _]
  | .reading _, [] => exact h
  | .idle, _ => exact h
  | .writing _, _ => exact h
  | .wrote, _ => exact h
  | .got _ _ _, _ => exact h

theorem Inv.finish (h : Inv s) (i : ℕ) : Inv (act s (.finish i)) := by
  rw [act]
  match hd : (s.procs i).doing with
  | .got k .eof late =>
    dsimp only
    have hmem : Token.eof ∈ s.taken := List.mem_of_getElem? (h.holding i k .eof late hd).1
    obtain ⟨m, hm, hclosed⟩ := h.stream
    have hc := hclosed (stream_split hm hmem).2.2
    have h1 : Inv (s.setProc i { s.procs i with doing := .idle }) :=
      h.setProc (h.lt_born_of_doing (by simp [hd])) (fun hc => hc i) (by simp) (by simp) (by simp)
        (by simp [Holding, hd])
    exact { h1 with
      pending := fun _ => hc.setDoing i .idle
      ended := fun _ => hmem
      late := fun _ _ => rfl }
  | .got k (.data b) late =>
    dsimp only
    obtain ⟨htaken, hnew, hlate⟩ := h.holding i k (.data b) late hd
    have hlt := h.lt_born_of_doing (i := i) (by simp [hd])
    have hother : ∀ j k' t l, Holding (s.setProc i { s.procs i with doing := .idle }) j k' t l →
        j ≠ i ∧ Holding s j k' t l := fun j k' t l hj => by
      by_cases hji : j = i
      · subst hji
        rw [Holding, setProc_self] at hj
        cases hj
      · rw [Holding, setProc_of_ne hji] at hj
        exact ⟨hji, hj⟩
    refine {
      stream := h.stream.imp fun m hm => ⟨hm.1, fun h0 => (hm.2 h0).setDoing i _⟩
      pending := fun h0 => (h.pending h0).setDoing i _
      ended := h.ended
      unborn := fun j hj => ?_
      writer := fun j b' hj => ?_
      late := fun j hj => ?_
      holding := fun j k' t l hj => ?_
      alone := fun j j' k' t t' l l' hj hj' =>
        h.alone j j' k' t t' l l' (hother _ _ _ _ hj).2 (hother _ _ _ _ hj').2
      returned := fun r hr => ?_
      once := ?_
      accounted := fun k' b' hk' => ?_ }
    · have hji : j ≠ i := by
        rintro rfl
        exact absurd hlt (Nat.not_lt.mpr hj)
      exact (setProc_of_ne hji).trans (h.unborn j hj)
    · by_cases hji : j = i
      · subst hji
        rw [show _ = _ from setProc_self s j _] at hj
        cases hj
      · rw [show _ = _ from setProc_of_ne hji] at hj ⊢
        exact h.writer j b' hj
    · by_cases hji : j = i
      · subst hji
        rw [show _ = _ from setProc_self s j _] at hj
        cases hj
      · rw [show _ = _ from setProc_of_ne hji] at hj
        exact h.late j hj
    · obtain ⟨hji, hj'⟩ := hother j k' t l hj
      obtain ⟨h1, h2, h3⟩ := h.holding j k' t l hj'
      refine ⟨h1, fun r hr => ?_, h3⟩
      rcases List.mem_append.mp hr with hr | hr
      · exact h2 r hr
      · rw [List.mem_singleton.mp hr]
        rintro rfl
        exact hji (h.alone j i _ _ _ _ _ hj' hd)
    · rcases List.mem_append.mp hr with hr | hr
      · exact h.returned r hr
      · rw [List.mem_singleton.mp hr]
        refine ⟨htaken, ?_⟩
        by_contra hl
        cases hlate (by simpa using hl)
    · dsimp only
      rw [List.map_append, List.map_singleton, List.nodup_append]
      refine ⟨h.once, List.nodup_singleton _, fun a ha c hc hac => ?_⟩
      obtain ⟨r, hr, rfl⟩ := List.mem_map.mp ha
      exact hnew r hr (hac.trans (List.mem_singleton.mp hc))
    · rcases h.accounted k' b' hk' with ⟨r, hr, hrk⟩ | ⟨j, l, hj⟩
      · exact .inl ⟨r, List.mem_append_left _ hr, hrk⟩
      · by_cases hji : j = i
        · subst hji
          rw [Holding, hd] at hj
          injection hj with hk
          exact .inl ⟨⟨k, b, late⟩, by simp, hk⟩
        · refine .inr ⟨j, l, ?_⟩
          rw [Holding, show _ = _ from setProc_of_ne hji]
          exact hj
  | .idle => exact h
  | .writing _ => exact h
  | .wrote => exact h
  | .reading _ => exact h

end Steps

/-! ### Runs -/

theorem Inv.act {s : State} (h : Inv s) (a : Action) : Inv (act s a) := by
  cases a with
  | fork i => exact h.fork i
  | dupWrite i => exact h.dupWrite i
  | dupRead i => exact h.dupRead i
  | closeWrite i => exact h.closeWrite i
  | closeRead i => exact h.closeRead i
  | write i b => exact h.write i b
  | putData i => exact h.putData i
  | resume i => exact h.resume i
  | putEof => exact h.putEof
  | read i => exact h.read i
  | take i => exact h.take i
  | finish i => exact h.finish i

theorem inv_run (as : List Action) : Inv (run as) := by
  induction as using List.reverseRecOn with
  | nil => exact inv_init
  | append_singleton as a ih =>
    rw [run, List.foldl_append]
    exact ih.act a

/-- **The end of file.**  After every run: the bytes taken by reads are, in the order of the
tickets, the first bytes that were written; a byte that a read returned is the byte of its ticket,
no ticket is returned twice, and a byte that was taken is returned or about to be; if a read has
returned 0, every reference to the write descriptor has been closed and every byte has been taken;
and no read that began after that has returned a byte. -/
theorem pipe_end_of_file (as : List Action) :
    let s := run as
    s.taken.filterMap Token.byte <+: s.written ∧
    (∀ r ∈ s.returns, s.written[r.ticket]? = some r.byte ∧ s.taken[r.ticket]? = some (.data r.byte)) ∧
    (s.returns.map Return.ticket).Nodup ∧
    (∀ k b, s.taken[k]? = some (.data b) → (∃ r ∈ s.returns, r.ticket = k) ∨
      ∃ i l, Holding s i k (.data b) l) ∧
    (s.zero = true → Closed s ∧ s.taken.filterMap Token.byte = s.written) ∧
    (∀ r ∈ s.returns, r.late = false) := by
  intro s
  have h : Inv s := inv_run as
  obtain ⟨m, hm, hclosed⟩ := h.stream
  refine ⟨⟨s.queue.filterMap Token.byte, ?_⟩, fun r hr => ?_, h.once, h.accounted, fun hz => ?_,
    fun r hr => ?_⟩
  · rw [← List.filterMap_append, hm, filterMap_stream]
  · have ht := (h.returned r hr).1
    exact ⟨stream_getElem hm ht, ht⟩
  · obtain ⟨h1, -, h2⟩ := stream_split hm (h.ended hz)
    exact ⟨hclosed h2, h1⟩
  · exact (h.returned r hr).2

end GheithOS.Sync.Pipe
