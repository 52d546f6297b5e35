import Mathlib.Data.List.Count
import GheithOS.Files.Cache

/-!
# GheithOS.Files.CacheRace — concurrent reads through one cache

`CachedBlockIO::read_block` takes the lock of its entry twice: to look the block up (and copy it if
it is there), and to fill the entry with what the device has given.  The device is read between the
two without a lock, so that other calls may look up and fill the same entry in the meantime.  A step
of a call is one of these three parts; `run` lets any number of callers take their steps in any
order.

A call carries its own buffer, and what it fills in is the bytes of the block whose number it
writes.  Hence every entry is `Right` for the entry's index in every state, and a call that has
returned has delivered the bytes of its block (`cache_transparent`).  One caller alone does what
`cachedReadBlock` does (`cachedReadBlock_eq_alone`).
-/

namespace GheithOS.Files

open Lib Function

/-- Where a call is: before each of its three parts, or returned with its buffer. -/
inductive Fetch where
  | idle
  | lookup (block : ℕ)
  | device (block : ℕ)
  | fill (block : ℕ) (buffer : List Byte)
  | returned (block : ℕ) (buffer : List Byte)

/-- No call is under way. -/
def Fetch.isOver : Fetch → Bool
  | .idle => true
  | .returned _ _ => true
  | _ => false

/-- The next part of a call. -/
def Fetch.next (contents : ℕ → List Byte) (c : Cache) : Fetch → Cache × Fetch
  | .lookup b =>
    if c.block (b % cacheSize) = b then (c, .returned b (c.data (b % cacheSize))) else (c, .device b)
  | .device b => (c, .fill b (contents b))
  | .fill b buffer =>
    (⟨update c.block (b % cacheSize) b, update c.data (b % cacheSize) buffer⟩, .returned b buffer)
  | call => (c, call)

variable {κ : Type} [DecidableEq κ]

/-- A cache and its callers. -/
structure Callers (κ : Type) where
  cache : Cache
  call : κ → Fetch

/-- A caller asks for a block, or goes on with its call. -/
inductive Turn (κ : Type) where
  | ask (k : κ) (block : ℕ)
  | step (k : κ)
  deriving DecidableEq

def Callers.init : Callers κ := ⟨Cache.init, fun _ => .idle⟩

/-- A caller asks for the next block when its last call is over. -/
def Callers.turn (contents : ℕ → List Byte) (s : Callers κ) : Turn κ → Callers κ
  | .ask k b => if (s.call k).isOver then { s with call := update s.call k (.lookup b) } else s
  | .step k =>
    let (cache, call) := (s.call k).next contents s.cache
    ⟨cache, update s.call k call⟩

def Callers.run (contents : ℕ → List Byte) (turns : List (Turn κ)) (s : Callers κ) : Callers κ :=
  turns.foldl (fun s t => s.turn contents t) s

/-! ### What every state keeps -/

/-- An entry that names a block is the block's own entry and holds its bytes. -/
def Cache.Exact (contents : ℕ → List Byte) (c : Cache) : Prop :=
  ∀ i, c.block i ≠ noBlock → c.data i = contents (c.block i) ∧ c.block i % cacheSize = i

/-- A call asks for a block, and its buffer holds the bytes of that block. -/
def Fetch.Exact (contents : ℕ → List Byte) : Fetch → Prop
  | .idle => True
  | .lookup b => b < noBlock
  | .device b => b < noBlock
  | .fill b buffer => b < noBlock ∧ buffer = contents b
  | .returned b buffer => b < noBlock ∧ buffer = contents b

/-- The block numbers that are asked for. -/
def Turn.Valid : Turn κ → Prop
  | .ask _ b => b < noBlock
  | .step _ => True

instance Turn.decidableValid : ∀ t : Turn κ, Decidable t.Valid
  | .ask _ b => inferInstanceAs (Decidable (b < noBlock))
  | .step _ => inferInstanceAs (Decidable True)

variable {c : Cache} {b : ℕ}

section Invariant

variable {contents : ℕ → List Byte}

theorem Fetch.next_hit (h : c.block (b % cacheSize) = b) :
    (Fetch.lookup b).next contents c = (c, .returned b (c.data (b % cacheSize))) := if_pos h

theorem Fetch.next_miss (h : c.block (b % cacheSize) ≠ b) :
    (Fetch.lookup b).next contents c = (c, .device b) := if_neg h

variable {s : Callers κ} {k : κ}

theorem Callers.turn_ask (h : (s.call k).isOver = true) (b : ℕ) :
    s.turn contents (.ask k b) = { s with call := update s.call k (.lookup b) } := if_pos h

theorem Callers.turn_ask_busy (h : ¬ (s.call k).isOver = true) (b : ℕ) :
    s.turn contents (.ask k b) = s := if_neg h

theorem Callers.turn_step (s : Callers κ) (k : κ) :
    s.turn contents (.step k) =
      ⟨((s.call k).next contents s.cache).1, update s.call k ((s.call k).next contents s.cache).2⟩ := rfl

theorem Cache.Exact.fill (h : c.Exact contents) (b : ℕ) :
    (Cache.mk (update c.block (b % cacheSize) b)
      (update c.data (b % cacheSize) (contents b))).Exact contents := by
  intro i
  by_cases hi : i = b % cacheSize
  · subst hi
    simp
  · simpa [hi] using h i

/-- **One part of a call** keeps the cache and the call. -/
theorem Fetch.Exact.next {call : Fetch} (hcall : call.Exact contents) (hc : c.Exact contents) :
    (call.next contents c).1.Exact contents ∧ (call.next contents c).2.Exact contents := by
  cases call with
  | idle => exact ⟨hc, trivial⟩
  | lookup b =>
    by_cases hhit : c.block (b % cacheSize) = b
    · have hne : b ≠ noBlock := Nat.ne_of_lt hcall
      have hdata := (hc (b % cacheSize) (by rwa [hhit])).1
      rw [Fetch.next_hit hhit]
      rw [hhit] at hdata
      exact ⟨hc, hcall, hdata⟩
    · rw [Fetch.next_miss hhit]
      exact ⟨hc, hcall⟩
  | device b => exact ⟨hc, hcall, rfl⟩
  | fill b buffer =>
    obtain ⟨hb, rfl⟩ := hcall
    exact ⟨hc.fill b, hb, rfl⟩
  | returned b buffer => exact ⟨hc, hcall⟩

theorem forall_update {P : Fetch → Prop} {call : κ → Fetch} (h : ∀ k, P (call k)) {c : Fetch}
    (hc : P c) :
    ∀ k', P (update call k c k') := by
  intro k'
  rw [update_apply]
  split_ifs
  · exact hc
  · exact h k'

/-- The cache and all calls are right. -/
structure Callers.Exact (contents : ℕ → List Byte) (s : Callers κ) : Prop where
  cache : s.cache.Exact contents
  call : ∀ k, (s.call k).Exact contents

omit [DecidableEq κ] in
theorem Callers.exact_init : (Callers.init : Callers κ).Exact contents :=
  ⟨fun _ h => absurd rfl h, fun _ => trivial⟩

variable {t : Turn κ}

theorem Callers.Exact.turn (h : s.Exact contents) (ht : t.Valid) :
    (s.turn contents t).Exact contents := by
  cases t with
  | ask k b =>
    by_cases hover : (s.call k).isOver = true
    · rw [Callers.turn_ask hover]
      exact ⟨h.cache, forall_update h.call ht⟩
    · rw [Callers.turn_ask_busy hover]
      exact h
  | step k =>
    obtain ⟨hcache, hcall⟩ := (h.call k).next h.cache
    rw [Callers.turn_step]
    exact ⟨hcache, forall_update h.call hcall⟩

variable {turns : List (Turn κ)}

theorem Callers.Exact.run (hturns : ∀ t ∈ turns, t.Valid) (h : s.Exact contents) :
    (s.run contents turns).Exact contents := by
  induction turns generalizing s with
  | nil => exact h
  | cons t turns ih =>
    obtain ⟨ht, hturns⟩ := List.forall_mem_cons.mp hturns
    exact ih hturns (h.turn ht)

/-! ### A call returns -/

/-- The number of parts that a call still has to take, at most. -/
def Fetch.rest : Fetch → ℕ
  | .idle => 0
  | .lookup _ => 3
  | .device _ => 2
  | .fill _ _ => 1
  | .returned _ _ => 0

/-- The block that a call asks for. -/
def Fetch.block : Fetch → Option ℕ
  | .idle => none
  | .lookup b => some b
  | .device b => some b
  | .fill b _ => some b
  | .returned b _ => some b

theorem Fetch.block_next (c : Cache) (call : Fetch) : (call.next contents c).2.block = call.block := by
  cases call with
  | lookup b =>
    by_cases hhit : c.block (b % cacheSize) = b
    · rw [Fetch.next_hit hhit]
      rfl
    · rw [Fetch.next_miss hhit]
      rfl
  | idle => rfl
  | device b => rfl
  | fill b buffer => rfl
  | returned b buffer => rfl

theorem Fetch.rest_next (contents : ℕ → List Byte) (c : Cache) (call : Fetch) :
    (call.next contents c).2.rest ≤ call.rest - 1 := by
  cases call with
  | lookup b =>
    by_cases hhit : c.block (b % cacheSize) = b
    · rw [Fetch.next_hit hhit]
      exact Nat.zero_le _
    · rw [Fetch.next_miss hhit]
      exact Nat.le_refl 2
  | idle => exact Nat.le_refl 0
  | device b => exact Nat.le_refl 1
  | fill b buffer => exact Nat.le_refl 0
  | returned b buffer => exact Nat.le_refl 0

theorem Callers.turn_call_of_ne (s : Callers κ) (contents : ℕ → List Byte)
    (hask : ∀ b, t ≠ .ask k b) (hstep : t ≠ .step k) :
    (s.turn contents t).call k = s.call k := by
  cases t with
  | ask k' b =>
    have hne : k ≠ k' := fun h => hask b (by rw [h])
    by_cases hover : (s.call k').isOver = true
    · rw [turn_ask hover]
      exact update_of_ne hne _ _
    · rw [turn_ask_busy hover]
  | step k' =>
    have hne : k ≠ k' := fun h => hstep (by rw [h])
    exact update_of_ne hne _ _

/-- While it asks for nothing new, a caller keeps its block, and each of its steps brings it nearer
to the end; the turns of the others do neither. -/
theorem Callers.run_call (hturns : ∀ b, Turn.ask k b ∉ turns) (s : Callers κ) :
    ((s.run contents turns).call k).block = (s.call k).block ∧
      ((s.run contents turns).call k).rest ≤ (s.call k).rest - turns.count (.step k) := by
  induction turns generalizing s with
  | nil => exact ⟨rfl, Nat.le_refl _⟩
  | cons t turns ih =>
    obtain ⟨hblock, hrest⟩ := ih (fun b hb => hturns b (List.mem_cons_of_mem _ hb)) (s.turn contents t)
    change ((s.turn contents t).run contents turns |>.call k).block = _ ∧
      ((s.turn contents t).run contents turns |>.call k).rest ≤ _
    rw [List.count_cons]
    by_cases ht : t = .step k
    · subst ht
      have hcall : (s.turn contents (.step k)).call k = ((s.call k).next contents s.cache).2 :=
        update_self _ _ _
      have hnext := Fetch.rest_next contents s.cache (s.call k)
      rw [hcall] at hrest
      rw [hcall, Fetch.block_next] at hblock
      refine ⟨hblock, ?_⟩
      rw [if_pos (beq_self_eq_true _)]
      omega
    · have hsame := s.turn_call_of_ne contents (fun b h => hturns b (h ▸ List.mem_cons_self)) ht
      rw [hsame] at hblock hrest
      rw [if_neg (by simpa using ht)]
      exact ⟨hblock, hrest⟩

end Invariant

/-- **The cache is transparent under every interleaving.**  In every state every entry that names a
block holds the bytes of that block and is at its index, and every call that has returned has
delivered the bytes of the block it asked for.  A call has returned when it has taken three
steps. -/
theorem cache_transparent (contents : ℕ → List Byte) (turns : List (Turn κ))
    (hturns : ∀ t ∈ turns, t.Valid) :
    (∀ i, (Callers.init.run contents turns).cache.block i ≠ noBlock →
      (Callers.init.run contents turns).cache.data i =
        contents ((Callers.init.run contents turns).cache.block i) ∧
        (Callers.init.run contents turns).cache.block i % cacheSize = i) ∧
    (∀ k b buffer, (Callers.init.run contents turns).call k = .returned b buffer → buffer = contents b) ∧
    ∀ (before after : List (Turn κ)) (k : κ) (b : ℕ), turns = before ++ .ask k b :: after →
      ((Callers.init.run contents before).call k).isOver → (∀ b', Turn.ask k b' ∉ after) →
      3 ≤ after.count (.step k) →
        (Callers.init.run contents turns).call k = .returned b (contents b) := by
  have hexact : (Callers.init.run contents turns).Exact contents := Callers.exact_init.run hturns
  have hreturned : ∀ k b buffer, (Callers.init.run contents turns).call k = .returned b buffer →
      buffer = contents b := by
    intro k b buffer hcall
    have h := hexact.call k
    rw [hcall] at h
    exact h.2
  refine ⟨hexact.cache, hreturned, ?_⟩
  rintro before after k b rfl hover hask hcount
  set s := (Callers.init.run contents before).turn contents (.ask k b) with hs
  have hstart : s.call k = .lookup b := by
    rw [hs, Callers.turn_ask hover]
    exact update_self _ _ _
  have hrun : Callers.init.run contents (before ++ .ask k b :: after) = s.run contents after := by
    unfold Callers.run
    rw [List.foldl_append, List.foldl_cons]
    rfl
  obtain ⟨hblock, hrest⟩ := Callers.run_call hask s
  rw [hrun] at hreturned ⊢
  rw [hstart] at hblock hrest
  have hzero : ((s.run contents after).call k).rest = 0 :=
    Nat.le_zero.mp (hrest.trans (by change 3 - _ ≤ 0; omega))
  cases hend : (s.run contents after).call k with
  | returned b' buffer =>
    rw [hend] at hblock
    obtain rfl : b' = b := Option.some.inj hblock
    rw [hreturned k b' buffer hend]
  | idle =>
    rw [hend] at hblock
    cases hblock
  | lookup b' =>
    rw [hend] at hzero
    cases hzero
  | device b' =>
    rw [hend] at hzero
    cases hzero
  | fill b' buffer =>
    rw [hend] at hzero
    cases hzero

/-- Two callers, whose blocks have the same entry. -/
theorem cache_transparent_two :
    (Callers.init.run (fun b => [BitVec.ofNat 8 b]) [.ask true 5, .ask false 37, .step true,
      .step false, .step false, .step true, .step true, .step false]).call false = .returned 37 [37#8] := by
  refine (cache_transparent (fun b => [BitVec.ofNat 8 b]) _ (by decide)).2.2 [.ask true 5]
    [.step true, .step false, .step false, .step true, .step true,
      .step false] false 37 rfl rfl ?_ (by decide)
  intro b hb
  simp at hb

/-! ### One caller alone -/

/-- One call, from beginning to end. -/
def Callers.alone (contents : ℕ → List Byte) (b : ℕ) (c : Cache) : Callers Unit :=
  (⟨c, fun _ => .idle⟩ : Callers Unit).run contents [.ask () b, .step (), .step (), .step ()]

theorem alone_hit (contents : ℕ → List Byte) (h : c.block (b % cacheSize) = b) :
    (Callers.alone contents b c).call () = .returned b (c.data (b % cacheSize)) ∧
      (Callers.alone contents b c).cache = c := by
  simp [Callers.alone, Callers.run, Callers.turn, Fetch.isOver, Fetch.next, h]

theorem alone_miss (contents : ℕ → List Byte) (h : c.block (b % cacheSize) ≠ b) :
    (Callers.alone contents b c).call () = .returned b (contents b) ∧
      (Callers.alone contents b c).cache =
        ⟨update c.block (b % cacheSize) b, update c.data (b % cacheSize) (contents b)⟩ := by
  simp [Callers.alone, Callers.run, Callers.turn, Fetch.isOver, Fetch.next, h]

/-- **A call alone is `cachedReadBlock`**: its three parts are the function of the sequential
model. -/
theorem cachedReadBlock_eq_alone {τ : Type} {device : BlockIO τ} {contents : ℕ → List Byte}
    {t t' : τ} (hdevice : device.readBlock b t = .ok (contents b, t')) (c : Cache) :
    ∃ buffer, (Callers.alone contents b c).call () = .returned b buffer ∧
      cachedReadBlock device b (c, t) =
        .ok (buffer, (Callers.alone contents b c).cache,
          if c.block (b % cacheSize) = b then t else t') := by
  have hget : (get : Prog Halt (Cache × τ) (Cache × τ)) (c, t) = .ok ((c, t), (c, t)) := rfl
  unfold cachedReadBlock
  by_cases hhit : c.block (b % cacheSize) = b
  · obtain ⟨hcall, hcache⟩ := alone_hit contents hhit
    refine ⟨_, hcall, ?_⟩
    rw [bind_of_eq hget, hcache, if_pos hhit]
    dsimp only
    rw [if_pos hhit]
    rfl
  · obtain ⟨hcall, hcache⟩ := alone_miss contents hhit
    have hbelow : below (device.readBlock b) (c, t) = .ok (contents b, (c, t')) := by
      unfold below
      dsimp only
      rw [hdevice]
    refine ⟨_, hcall, ?_⟩
    rw [bind_of_eq hget, hcache, if_neg hhit]
    dsimp only
    rw [if_neg hhit, bind_of_eq hbelow]
    rfl

end GheithOS.Files
