import GheithOS.Heap.Malloc
import GheithOS.Heap.Free

/-!
# GheithOS.Heap.Runs — the heap with its clients

`Sys` is the heap together with the pointers its clients hold.  `step` performs one client
operation: `malloc`, `free`, or a store into a live payload; `Allowed` is what a well-behaved client
does.  `Inv` ties the live pointers to the taken blocks of the layout: one each, next to the
sentinels and the block of the heap's own lock.  `inv_step` carries it over one operation and
`inv_of_reach` over a run.
-/

namespace GheithOS.Heap

open Lib

/-! ### Clients -/

/-- The heap and the pointers its clients hold: the non-null results of `malloc(n)`, `n > 0`, not
freed. -/
structure Sys where
  heap : State
  live : List ℕ

inductive Op
  | malloc (bytes : ℕ)
  | free (p : ℕ)
  /-- a client of the payload `p` stores `x` to `array[i]` -/
  | write (p : ℕ) (i x : ℤ)

/-- The index of the header in front of the payload `p`. -/
def header (a : Area) (p : ℕ) : ℤ := ((p - a.base) / 4 : ℕ) - 1

/-- `array[i]` belongs to the payload `p`: the block without its two tags. -/
def InPayload (a : Area) (h : State) (p : ℕ) (i : ℤ) : Prop :=
  header a p < i ∧ i < header a p + size h (header a p) - 1

def Allowed (a : Area) (s : Sys) : Op → Prop
  | .malloc bytes => bytes < 2 ^ 32
  | .free p => p = 0 ∨ p = a.addr 0 ∨ p ∈ s.live
  | .write p i _ => p ∈ s.live ∧ InPayload a s.heap p i

def step (a : Area) (s : Sys) : Op → Except Stop Sys
  | .malloc bytes => do
    let (p, h) ← malloc a s.heap bytes
    return ⟨h, if bytes = 0 ∨ p = 0 then s.live else p :: s.live⟩
  | .free p => do
    let h ← free a s.heap p
    return ⟨h, s.live.erase p⟩
  | .write _ i x => .ok { s with heap := s.heap.set i x }

/-- Several operations in a row. -/
def steps (a : Area) : Sys → List Op → Except Stop Sys
  | s, [] => .ok s
  | s, op :: ops => do steps a (← step a s op) ops

/-- The states that well-behaved clients reach after `heapInit`, on an area that held `array₀`. -/
inductive Reach (a : Area) (array₀ : ℤ → ℤ) : Sys → Prop
  | init {h : State} : heapInit a array₀ = .ok h → Reach a array₀ ⟨h, []⟩
  | step {s s' : Sys} {op : Op} : Reach a array₀ s → Allowed a s op → Heap.step a s op = .ok s' →
      Reach a array₀ s'

/-- The layout `heapInit` leaves: the sentinels, the lock, and one available block. -/
def initBlocks (a : Area) : List Blk :=
  [⟨0, 2, true⟩, ⟨2, 4, true⟩, ⟨6, (a.bytes / 4 : ℕ) - 8, false⟩, ⟨(a.bytes / 4 : ℕ) - 2, 2, true⟩]

/-! ### The invariant -/

/-- A block that a client holds: taken, no sentinel, not the lock. -/
def Client (h : State) (b : Blk) : Prop := b.tag = true ∧ b.start ≠ 0 ∧ b.start ≠ 2 ∧ b.start ≠ h.len - 2

structure Inv (a : Area) (s : Sys) (bs : List Blk) (fl : List ℤ) : Prop where
  layout : Layout s.heap bs fl
  len : s.heap.len = (a.bytes / 4 : ℕ)
  lock : (⟨2, 4, true⟩ : Blk) ∈ bs
  nodup : s.live.Nodup
  live : ∀ p, p ∈ s.live ↔ ∃ b ∈ bs, Client s.heap b ∧ a.addr (b.start + 1) = p
  count : s.heap.heapCount = s.live.length + 1

variable {a : Area} {array₀ : ℤ → ℤ} {s s' : Sys} {bs : List Blk} {fl : List ℤ} {op : Op}

variable {i : ℤ}

theorem addr_inj {j : ℤ} (hi : 0 ≤ i) (hj : 0 ≤ j) (h : a.addr i = a.addr j) : i = j := by
  unfold Area.addr at h
  omega

theorem header_addr (hi : 0 ≤ i) : header a (a.addr (i + 1)) = i := by
  unfold header Area.addr
  omega

theorem Area.len_lt (a : Area) : ((a.bytes / 4 : ℕ) : ℤ) < 2 ^ 30 ∧ (16 : ℤ) ≤ (a.bytes / 4 : ℕ) := by
  have := a.fits
  have := a.large
  omega

variable {h : State} {b : Blk}

/-- A store inside a taken block touches neither tags nor links. -/
theorem Layout.write (H : Layout h bs fl) (hb : b ∈ bs) (ht : b.tag = true) (h1 : b.start < i)
    (h2 : i < b.foot) (x : ℤ) : Layout (h.set i x) bs fl := by
  have hin : b.start ≤ i ∧ i < b.stop := by unfold Block.foot at h2; unfold Block.stop; omega
  have hother : ∀ c ∈ bs, c.start ≠ i ∧ c.foot ≠ i := by
    intro c hc
    have hlen := (H.tiles.mem_bounds c hc).2.1
    rcases H.tiles.eq_or_disjoint hb hc with h | h | h
    · subst h
      omega
    all_goals
      unfold Block.foot Block.stop at *
      omega
  refine ⟨H.tiles, H.first, H.final, H.large, ?_, H.apart, ?_, H.nodup, H.free⟩
  · intro c hc
    rw [set_array, set_array, if_neg (hother c hc).1, if_neg (hother c hc).2]
    exact H.tags c hc
  · refine linked_frame H.linked fun k hk => ?_
    rw [set_array, if_neg]
    rintro rfl
    -- a link lies inside an available block
    obtain ⟨c, hc, htc, h3, h4⟩ := H.link_inside hk
    have hcin : c.start ≤ k ∧ k < c.stop := by unfold Block.foot at h4; unfold Block.stop; omega
    rw [H.tiles.eq_of_mem hb hc hin hcin, htc] at ht
    exact absurd ht (by decide)

/-! ### `heapInit` -/

/-- The state of `heapInit` before it allocates the lock. -/
def formatted (array₀ : ℤ → ℤ) (n : ℤ) : State :=
  makeTaken (makeAvail (makeTaken ⟨array₀, n, 0, 0⟩ 0 2) 2 (n - 4)) (n - 2) 2

theorem formatted_layout (array₀ : ℤ → ℤ) {n : ℤ} (hn : 16 ≤ n) :
    Layout (formatted array₀ n) [⟨0, 2, true⟩, ⟨2, n - 4, false⟩, ⟨n - 2, 2, true⟩] [2] := by
  have hlen : (formatted array₀ n).len = n := by simp [formatted]
  have hcell : ∀ k x, (k = 0 ∨ k = 1 ∨ k = n - 2 ∨ k = n - 1) ∧ x = -2 ∨ (k = 2 ∨ k = n - 3) ∧ x = n - 4 ∨
      (k = 3 ∨ k = 4) ∧ x = 0 → (formatted array₀ n).array k = x := by
    intro k x hk
    rw [formatted, makeTaken_cell _ (by omega), makeAvail_cell _ (by omega),
      makeTaken_cell _ (by omega), makeTaken_avail]
    dsimp only
    split_ifs <;> omega
  refine ⟨?_, rfl, by simp [hlen], ?_, ?_, by simp [Apart], ?_, by simp, ?_⟩
  · simp only [Tiles, Block.stop, hlen, true_and]
    omega
  · intro b hb
    simp only [List.mem_cons, List.not_mem_nil, or_false] at hb
    rw [hlen]
    rcases hb with rfl | rfl | rfl
    · exact .inl rfl
    · exact .inr (.inr (show 4 ≤ n - 4 by omega))
    · exact .inr (.inl rfl)
  · intro b hb
    simp only [List.mem_cons, List.not_mem_nil, or_false] at hb
    rcases hb with rfl | rfl | rfl
    · exact ⟨hcell 0 (-2) (by omega), hcell (0 + 2 - 1) (-2) (by omega)⟩
    · exact ⟨hcell 2 (n - 4) (by omega), hcell (2 + (n - 4) - 1) (n - 4) (by omega)⟩
    · exact ⟨hcell (n - 2) (-2) (by omega), hcell (n - 2 + 2 - 1) (-2) (by omega)⟩
  · exact ⟨rfl, by decide, hcell (2 + 2) 0 (by omega), hcell (2 + 1) 0 (by omega)⟩
  · intro i
    constructor
    · intro hi
      exact ⟨⟨2, n - 4, false⟩, by simp, rfl, (List.mem_singleton.mp hi).symm⟩
    · rintro ⟨b, hb, ht, rfl⟩
      simp only [List.mem_cons, List.not_mem_nil, or_false] at hb
      rcases hb with rfl | rfl | rfl <;> simp at ht ⊢

theorem heapInit_spec (a : Area) (array₀ : ℤ → ℤ) :
    ∃ h fl, heapInit a array₀ = .ok h ∧ Layout h (initBlocks a) fl ∧ h.len = (a.bytes / 4 : ℕ) ∧
      h.heapCount = 1 := by
  obtain ⟨hmax, hlarge⟩ := a.len_lt
  have h4 : intsFor 1 = 4 := by decide
  have hformat : heapInit a array₀ = (do
      let (p, h) ← malloc a (formatted array₀ (a.bytes / 4 : ℕ)) 1
      if p = 0 then .error .panic
      else
        let i : ℤ := ((p - a.base) / 4 : ℕ)
        return h.set i (h.array i - h.array i % 256)) := by
    simp [heapInit, formatted]
  unfold initBlocks
  generalize ((a.bytes / 4 : ℕ) : ℤ) = n at *
  have hL₀ := formatted_layout array₀ hlarge
  have hlen₀ : (formatted array₀ n).len = n := by simp [formatted]
  have hcount₀ : (formatted array₀ n).heapCount = 0 := by simp [formatted]
  rcases malloc_spec (a := a) hL₀ (by omega) Nat.one_ne_zero with ⟨-, hnone⟩ | hsome
  · have := hnone ⟨2, n - 4, false⟩ (by simp) rfl
    rw [h4] at this
    simp only at this
    omega
  · obtain ⟨xs, b, ys, h', hbs, ht, -, -, hm, hlen, hcount, ⟨fl', hL⟩, -⟩ := hsome
    -- the only available block
    obtain ⟨rfl, rfl, rfl⟩ : xs = [⟨0, 2, true⟩] ∧ b = ⟨2, n - 4, false⟩ ∧ ys = [⟨n - 2, 2, true⟩] := by
      clear hL hm hL₀
      rcases xs with _ | ⟨x, _ | ⟨y, _ | ⟨z, xs⟩⟩⟩ <;>
        simp only [List.cons_append, List.nil_append, List.cons.injEq] at hbs
      · rw [← hbs.1] at ht
        simp at ht
      · simp [hbs]
      · rw [← hbs.2.2.1] at ht
        simp at ht
      · simp at hbs
    have hcarve : carve ⟨2, n - 4, false⟩ (intsFor 1) = [⟨2, 4, true⟩, ⟨6, n - 8, false⟩] := by
      rw [carve, h4, if_pos (show n - 4 - 4 ≥ 4 by omega)]
      simp only [List.cons.injEq, Block.mk.injEq, and_true, true_and]
      omega
    have hp : ((a.addr (2 + 1) - a.base) / 4 : ℕ) = 3 := by
      unfold Area.addr
      omega
    have hp0 : a.addr (2 + 1) ≠ 0 := by
      unfold Area.addr
      omega
    rw [hcarve] at hL
    refine ⟨h'.set 3 (h'.array 3 - h'.array 3 % 256), fl', ?_, ?_, hlen.trans hlen₀, ?_⟩
    · rw [hformat, hm]
      simp only [bind, Except.bind, hp0, ite_false, hp]
      rfl
    · exact hL.write (b := ⟨2, 4, true⟩) (by simp) rfl (by simp) (by simp [Block.foot]) _
    · simpa [hcount₀] using hcount

theorem inv_init (hi : heapInit a array₀ = .ok h) : ∃ fl, Inv a ⟨h, []⟩ (initBlocks a) fl := by
  obtain ⟨h', fl, hok, hL, hlen, hcount⟩ := heapInit_spec a array₀
  obtain rfl : h = h' := by simpa [hi] using hok
  refine ⟨fl, hL, hlen, by simp [initBlocks], List.nodup_nil, fun p => ?_, hcount⟩
  simp only [List.not_mem_nil, false_iff, not_exists, not_and]
  intro b hb hc
  -- its taken blocks are the sentinels and the lock
  simp only [initBlocks, List.mem_cons, List.not_mem_nil, or_false] at hb
  rw [Client, hlen] at hc
  rcases hb with rfl | rfl | rfl | rfl <;> simp at hc

/-! ### One operation -/

theorem Layout.not_inAvail (H : Layout h bs fl) (hb : b ∈ bs) (ht : b.tag = true) {k : ℤ}
    (h1 : b.start ≤ k) (h2 : k < b.stop) : ¬ InAvail bs k := by
  rintro ⟨c, hc, htc, h3, h4⟩
  rw [H.tiles.eq_of_mem hb hc ⟨h1, h2⟩ ⟨h3, h4⟩, htc] at ht
  exact absurd ht (by decide)

theorem Inv.length_lt (I : Inv a s bs fl) : s.live.length + 2 < 2 ^ 32 := by
  have hsub : s.live ⊆ bs.map fun b => a.addr (b.start + 1) := fun p hp => by
    obtain ⟨b, hb, -, rfl⟩ := (I.live p).mp hp
    exact List.mem_map_of_mem hb
  have h1 := (I.nodup.subperm hsub).length_le
  have h2 := I.layout.tiles.length_le
  have h3 := a.len_lt
  rw [List.length_map] at h1
  rw [I.len] at h2
  omega

variable {p : ℕ}

theorem Inv.block (I : Inv a s bs fl) (hp : p ∈ s.live) :
    ∃ b ∈ bs, Client s.heap b ∧ a.addr (b.start + 1) = p ∧ header a p = b.start ∧
      size s.heap (header a p) = b.len := by
  obtain ⟨b, hb, hc, rfl⟩ := (I.live p).mp hp
  have h0 := (I.layout.tiles.mem_bounds b hb).1
  rw [header_addr h0]
  exact ⟨b, hb, hc, rfl, rfl, I.layout.size_eq hb⟩

/-- What a client keeps over an operation of another: its block and all its cells. -/
def Keeps (s s' : Sys) (bs bs' : List Blk) (op : Op) (a : Area) : Prop :=
  ∀ b ∈ bs, Client s.heap b → op ≠ .free (a.addr (b.start + 1)) →
    b ∈ bs' ∧ ∀ k, b.start ≤ k → k < b.stop → s'.heap.array k = s.heap.array k

variable {xs ys : List Blk} {c : Blk}

theorem taken_carve (hb : b.tag = false) (ints : ℤ) :
    (c ∈ xs ++ carve b ints ++ ys ∧ c.tag = true) ↔ (c ∈ xs ++ [b] ++ ys ∧ c.tag = true) ∨
      c = ⟨b.start, if b.len - ints ≥ 4 then ints else b.len, true⟩ := by
  have hcb : c.tag = true → c ≠ b := by
    rintro h rfl
    exact absurd (h.symm.trans hb) (by decide)
  have hcarve : (c ∈ carve b ints ∧ c.tag = true) ↔
      c = ⟨b.start, if b.len - ints ≥ 4 then ints else b.len, true⟩ := by
    unfold carve
    split
    · simp only [List.mem_cons, List.not_mem_nil, or_false]
      constructor
      · rintro ⟨rfl | rfl, ht⟩
        · rfl
        · simp at ht
      · rintro rfl
        exact ⟨.inl rfl, rfl⟩
    · simp only [List.mem_singleton]
      constructor
      · exact fun h => h.1
      · rintro rfl
        exact ⟨rfl, rfl⟩
  rw [← hcarve]
  simp only [List.mem_append, List.mem_singleton]
  tauto

theorem inv_malloc (I : Inv a s bs fl) (bytes : ℕ) :
    ∃ s' bs' fl', step a s (.malloc bytes) = .ok s' ∧ Inv a s' bs' fl' ∧
      Keeps s s' bs bs' (.malloc bytes) a := by
  by_cases h0 : bytes = 0
  · refine ⟨s, bs, fl, ?_, I, fun b hb _ _ => ⟨hb, fun _ _ _ => rfl⟩⟩
    simp [step, malloc, h0, bind, Except.bind]
    rfl
  have hmax := a.len_lt
  rcases malloc_spec (a := a) I.layout (by rw [I.len]; omega) h0 with ⟨hm, -⟩ | hsome
  · refine ⟨s, bs, fl, ?_, I, fun b hb _ _ => ⟨hb, fun _ _ _ => rfl⟩⟩
    simp [step, hm, bind, Except.bind]
    rfl
  obtain ⟨xs, b, ys, h', rfl, ht, -, -, hm, hlen, hcount, ⟨fl', hL⟩, hframe⟩ := hsome
  have hb : b ∈ xs ++ [b] ++ ys := by simp
  have hbb := I.layout.avail_bounds hb ht
  have hns := I.layout.not_sentinel hb ht
  have hb2 : b.start ≠ 2 := fun hc => by
    have := I.layout.tiles.eq_of_start hb I.lock hc
    rw [this] at ht
    exact absurd ht (by decide)
  have hp0 : a.addr (b.start + 1) ≠ 0 := by
    have := a.base_pos
    unfold Area.addr
    omega
  have hmem := fun c => @taken_carve b xs ys c ht (intsFor bytes)
  refine ⟨⟨h', a.addr (b.start + 1) :: s.live⟩, _, fl', ?_, ⟨hL, hlen.trans I.len, ?_, ?_, ?_, ?_⟩, ?_⟩
  · simp only [step, hm, bind, Except.bind, h0, hp0, or_self, ite_false]
    rfl
  · exact ((hmem _).mpr (.inl ⟨I.lock, rfl⟩)).1
  · refine List.nodup_cons.mpr ⟨fun hp => ?_, I.nodup⟩
    -- a live block that starts where `b` does would be `b`, which is available
    obtain ⟨c, hc, hcl, he⟩ := (I.live _).mp hp
    have hc0 := (I.layout.tiles.mem_bounds c hc).1
    have := I.layout.tiles.eq_of_start hc hb (by have := addr_inj (by omega) (by omega) he; omega)
    rw [← this, hcl.1] at ht
    exact absurd ht (by decide)
  · intro p
    simp only [List.mem_cons, I.live p, Client, hlen]
    constructor
    · rintro (rfl | ⟨c, hc, hcl, he⟩)
      · exact ⟨_, ((hmem _).mpr (.inr rfl)).1, ⟨rfl, hns.1, hb2, hns.2⟩, rfl⟩
      · exact ⟨c, ((hmem c).mpr (.inl ⟨hc, hcl.1⟩)).1, hcl, he⟩
    · rintro ⟨c, hc, hcl, he⟩
      rcases (hmem c).mp ⟨hc, hcl.1⟩ with ⟨hc, -⟩ | rfl
      · exact .inr ⟨c, hc, hcl, he⟩
      · exact .inl he.symm
  · have hlt := I.length_lt
    rw [hcount, I.count, List.length_cons, Nat.mod_eq_of_lt (by omega)]
  · intro c hc hcl _
    exact ⟨((hmem c).mpr (.inl ⟨hc, hcl.1⟩)).1, fun k h1 h2 =>
      hframe k (I.layout.not_inAvail hc hcl.1 h1 h2)⟩

theorem taken_joined {l r : Blk} (H : Layout h (xs ++ [l, b, r] ++ ys) fl) :
    (c ∈ (xs ++ kept l) ++ [joined l b r] ++ (kept r ++ ys) ∧ c.tag = true) ↔
      (c ∈ xs ++ [l, b, r] ++ ys ∧ c.tag = true) ∧ c ≠ b := by
  have htile := H.tiles_joined
  have hgone : ∀ d : Blk, c ∈ gone d → c.tag = false := by
    intro d hd
    unfold gone at hd
    split at hd
    · simp at hd
    · rename_i ht
      obtain rfl := List.mem_singleton.mp hd
      simpa using ht
  rw [blocks_eq] at H ⊢
  have hb : c ∈ xs ++ kept l ++ (kept r ++ ys) → c ≠ b := by
    rintro hc rfl
    have ho := H.outside (by simp) htile hc
    have hm := htile.mem_bounds c (by simp)
    unfold Block.stop at *
    omega
  constructor
  · rintro ⟨hc, ht⟩
    have hc' : c ∈ xs ++ kept l ++ (kept r ++ ys) := by
      simp only [List.mem_append, List.mem_singleton] at hc ⊢
      rcases hc with (hc | rfl) | hc
      · exact .inl hc
      · exact absurd ht (by simp [joined])
      · exact .inr hc
    refine ⟨⟨?_, ht⟩, hb hc'⟩
    simp only [List.mem_append] at hc' ⊢
    tauto
  · rintro ⟨⟨hc, ht⟩, hne⟩
    refine ⟨?_, ht⟩
    have h1 : c ∉ gone l := fun h => absurd (ht.symm.trans (hgone l h)) (by decide)
    have h2 : c ∉ gone r := fun h => absurd (ht.symm.trans (hgone r h)) (by decide)
    simp only [List.mem_append, List.mem_singleton] at hc ⊢
    tauto

theorem inv_free (I : Inv a s bs fl) (hp : p = 0 ∨ p = a.addr 0 ∨ p ∈ s.live) :
    ∃ s' bs' fl', step a s (.free p) = .ok s' ∧ s'.live = s.live.erase p ∧ Inv a s' bs' fl' ∧
      Keeps s s' bs bs' (.free p) a := by
  by_cases hlive : p ∈ s.live
  · obtain ⟨b, hb, hc, rfl⟩ := (I.live p).mp hlive
    -- a client's block has neighbours on both sides
    obtain ⟨xs, ys, rfl⟩ := List.append_of_mem hb
    have hxs : xs ≠ [] := I.layout.left_ne_nil hc.2.1
    have hys : ys ≠ [] := Layout.right_ne_nil (by simpa using I.layout) hc.2.2.2
    obtain ⟨xs, l, rfl⟩ := List.eq_nil_or_concat xs |>.resolve_left hxs
    obtain ⟨r, ys, rfl⟩ := List.exists_cons_of_ne_nil hys
    rw [show xs.concat l ++ b :: r :: ys = xs ++ [l, b, r] ++ ys by simp] at I hb ⊢
    obtain ⟨h', hm, hlen, hcount, ⟨fl', hL⟩, hframe⟩ := free_spec I.len I.layout hc.1
    have hmem := fun c => taken_joined (c := c) I.layout
    have hpos : ∀ c ∈ xs ++ [l, b, r] ++ ys, 0 ≤ c.start := fun c hc => (I.layout.tiles.mem_bounds c hc).1
    have hne : ∀ c ∈ xs ++ [l, b, r] ++ ys, c ≠ b ↔ a.addr (c.start + 1) ≠ a.addr (b.start + 1) := by
      intro c hcm
      refine not_congr ⟨fun h => by rw [h], fun h => I.layout.tiles.eq_of_start hcm hb ?_⟩
      have h1 := hpos c hcm
      have h2 := hpos b hb
      have := addr_inj (a := a) (by omega) (by omega) h
      omega
    refine ⟨⟨h', s.live.erase _⟩, _, fl', ?_, rfl, ⟨hL, hlen.trans I.len, ?_, I.nodup.erase _, ?_, ?_⟩, ?_⟩
    · simp only [step, hm, bind, Except.bind]
      rfl
    · refine ((hmem _).mpr ⟨⟨I.lock, rfl⟩, fun h => hc.2.2.1 ?_⟩).1
      rw [← h]
    · intro q
      simp only [I.nodup.mem_erase_iff, I.live q, Client, hlen]
      constructor
      · rintro ⟨hq, c, hcm, hcl, rfl⟩
        exact ⟨c, ((hmem c).mpr ⟨⟨hcm, hcl.1⟩, (hne c hcm).mpr hq⟩).1, hcl, rfl⟩
      · rintro ⟨c, hcm, hcl, rfl⟩
        obtain ⟨⟨hcm, -⟩, hcb⟩ := (hmem c).mp ⟨hcm, hcl.1⟩
        exact ⟨(hne c hcm).mp hcb, c, hcm, hcl, rfl⟩
    · have hlt := I.length_lt
      have hpos := List.length_pos_of_mem hlive
      rw [hcount, I.count, List.length_erase_of_mem hlive]
      omega
    · intro c hcm hcl hop
      have hcb : c ≠ b := fun h => hop (by rw [h])
      refine ⟨((hmem c).mpr ⟨⟨hcm, hcl.1⟩, hcb⟩).1, fun k h1 h2 => ?_⟩
      refine hframe k (I.layout.not_inAvail hcm hcl.1 h1 h2) ?_
      rcases I.layout.tiles.eq_or_disjoint hcm hb with h | h | h
      · exact absurd h hcb
      · exact .inl (by omega)
      · exact .inr (by omega)
  · -- null and the base of the array are no live pointers
    have hfree : free a s.heap p = .ok s.heap := by
      rcases hp with rfl | rfl | h
      · rfl
      · simp [free]
      · exact absurd h hlive
    have he : s.live.erase p = s.live := List.erase_of_not_mem hlive
    refine ⟨s, bs, fl, ?_, he.symm, I, fun b hb _ _ => ⟨hb, fun _ _ _ => rfl⟩⟩
    simp only [step, hfree, bind, Except.bind, he]
    rfl

theorem inv_write (I : Inv a s bs fl) (hp : p ∈ s.live) (hi : InPayload a s.heap p i) (x : ℤ) :
    Inv a { s with heap := s.heap.set i x } bs fl := by
  obtain ⟨b, hb, hc, -, hh, hs⟩ := I.block hp
  rw [InPayload, hs, hh] at hi
  exact ⟨I.layout.write hb hc.1 hi.1 (by unfold Block.foot; omega) x, I.len, I.lock, I.nodup,
    I.live, I.count⟩

/-- **One operation** of a well-behaved client returns and keeps the invariant. -/
theorem inv_step (I : Inv a s bs fl) (hop : Allowed a s op) :
    ∃ s' bs' fl', step a s op = .ok s' ∧ Inv a s' bs' fl' := by
  cases op with
  | malloc bytes =>
    obtain ⟨s', bs', fl', hs, hI, -⟩ := inv_malloc I bytes
    exact ⟨s', bs', fl', hs, hI⟩
  | free p =>
    obtain ⟨s', bs', fl', hs, -, hI, -⟩ := inv_free I hop
    exact ⟨s', bs', fl', hs, hI⟩
  | write p i x => exact ⟨_, bs, fl, rfl, inv_write I hop.1 hop.2 x⟩

/-- **A run** of well-behaved clients keeps the invariant. -/
theorem inv_of_reach (hr : Reach a array₀ s) : ∃ bs fl, Inv a s bs fl := by
  induction hr with
  | init hi => exact ⟨_, inv_init hi⟩
  | step _ hop hs ih =>
    obtain ⟨bs, fl, I⟩ := ih
    obtain ⟨s', bs', fl', hs', I'⟩ := inv_step I hop
    obtain rfl : _ = s' := by simpa [hs] using hs'
    exact ⟨bs', fl', I'⟩

/-! ### Freeing everything -/

/-- Without clients there is one layout: the one of `heapInit`. -/
theorem Inv.blocks_of_no_live (I : Inv a s bs fl) (h0 : s.live = []) : bs = initBlocks a := by
  obtain ⟨hmax, hlarge⟩ := a.len_lt
  have H := I.layout
  have hlen := I.len
  have htaken : ∀ b ∈ bs, b.tag = true → b.start = 0 ∨ b.start = 2 ∨ b.start = s.heap.len - 2 := by
    intro b hb ht
    by_contra hc
    have := (I.live (a.addr (b.start + 1))).mpr ⟨b, hb, ⟨ht, by omega, by omega, by omega⟩, rfl⟩
    simp [h0] at this
  -- walk along the tiling: each block is determined by where it starts
  obtain ⟨bs₁, rfl, ht₁⟩ := H.tiles.head_of_start H.first_mem rfl
  have hlock : (⟨2, 4, true⟩ : Blk) ∈ bs₁ := by simpa using I.lock
  obtain ⟨bs₂, rfl, ht₂⟩ := ht₁.head_of_start hlock rfl
  obtain ⟨b, bs₃, rfl, hb, ht₃⟩ := ht₂.exists_head (show 2 + 4 < s.heap.len by omega)
  replace hb : b.start = 6 := hb
  have hbt : b.tag = false := by
    by_contra hc
    have := htaken b (by simp) (by simpa using hc)
    omega
  have hbb := H.avail_bounds (b := b) (by simp) hbt
  obtain ⟨c, bs₄, rfl, hc, ht₄⟩ := ht₃.exists_head (by omega)
  have hct : c.tag = true := by
    have := H.apart
    simp only [Apart, List.isChain_cons_cons, hbt, Bool.false_eq_true, false_or] at this
    exact this.2.2.1
  have hcs := htaken c (by simp) hct
  have hbs : b.stop = 6 + b.len := by rw [Block.stop, hb]
  obtain rfl := H.tiles.eq_of_start (b := c) (by simp) H.final_mem (show c.start = s.heap.len - 2 by omega)
  have hnil : bs₄ = [] := Tiles.eq_nil (by simpa [Block.stop] using ht₄)
  subst hnil
  have hbe : b = ⟨6, (a.bytes / 4 : ℕ) - 8, false⟩ := by
    cases b
    simp only [Block.stop] at *
    simp only [Block.mk.injEq]
    exact ⟨hb, by omega, hbt⟩
  rw [hbe, initBlocks, hlen]

theorem Inv.free_all : ∀ {s : Sys} {bs : List Blk} {fl : List ℤ} (ps : List ℕ), Inv a s bs fl →
    ps.Perm s.live → ∃ s' fl', steps a s (ps.map .free) = .ok s' ∧ s'.live = [] ∧
      Layout s'.heap (initBlocks a) fl'
  | s, bs, fl, [], I, hp => by
    have h0 : s.live = [] := hp.nil_eq.symm
    exact ⟨s, fl, rfl, h0, I.blocks_of_no_live h0 ▸ I.layout⟩
  | s, bs, fl, p :: ps, I, hp => by
    have hmem : p ∈ s.live := hp.subset (List.mem_cons_self ..)
    obtain ⟨s₁, bs₁, fl₁, hs, hlive, I₁, -⟩ := inv_free I (.inr (.inr hmem))
    have hp₁ : ps.Perm s₁.live := by
      rw [hlive]
      exact List.Perm.cons_inv (hp.trans (List.perm_cons_erase hmem))
    obtain ⟨s', fl', hs', h0, hL⟩ := I₁.free_all ps hp₁
    refine ⟨s', fl', ?_, h0, hL⟩
    simp only [List.map_cons, steps, hs, bind, Except.bind]
    exact hs'

/-! ### The heap over whole runs -/

/-- **The representation invariant of the heap.**  `heapInit` returns and leaves `initBlocks`; in
every state reached by well-behaved clients the array has a layout, `heap_count` counts the live
allocations (the lock of the heap is the one that is not a client's), no allowed operation panics,
and freeing all live pointers in any order restores the blocks `heapInit` left. -/
theorem heap_invariant (a : Area) (array₀ : ℤ → ℤ) :
    (∃ h fl, heapInit a array₀ = .ok h ∧ Layout h (initBlocks a) fl ∧ h.heapCount = 1) ∧
    ∀ s, Reach a array₀ s →
      (∃ bs fl, Layout s.heap bs fl) ∧ s.heap.heapCount = s.live.length + 1 ∧
      (∀ op, Allowed a s op → ∃ s', step a s op = .ok s') ∧
      ∀ ps : List ℕ, ps.Perm s.live → ∃ s' fl', steps a s (ps.map .free) = .ok s' ∧
        Layout s'.heap (initBlocks a) fl' := by
  refine ⟨?_, fun s hr => ?_⟩
  · obtain ⟨h, fl, hok, hL, -, hcount⟩ := heapInit_spec a array₀
    exact ⟨h, fl, hok, hL, hcount⟩
  · obtain ⟨bs, fl, I⟩ := inv_of_reach hr
    refine ⟨⟨bs, fl, I.layout⟩, I.count, fun op hop => ?_, fun ps hps => ?_⟩
    · obtain ⟨s', -, -, hs, -⟩ := inv_step I hop
      exact ⟨s', hs⟩
    · obtain ⟨s', fl', hs, -, hL⟩ := I.free_all ps hps
      exact ⟨s', fl', hs, hL⟩

/-- An area of 32 ints. -/
def smallArea : Area := ⟨4096, 128, by decide, by decide, by decide⟩

theorem reach_two_clients : ∃ s, Reach smallArea (fun _ => 0) s ∧ s.live = [4140, 4124] := by
  have hal : ∀ s : Sys, Allowed smallArea s (.malloc 8) := fun _ => show 8 < 2 ^ 32 by decide
  have halloc : ∀ {s s' : Sys}, Reach smallArea (fun _ => 0) s → step smallArea s (.malloc 8) = .ok s' →
      Reach smallArea (fun _ => 0) s' := fun hr hs => .step hr (hal _) hs
  exact ⟨_, halloc (halloc (.init rfl) rfl) rfl, rfl⟩

theorem heap_invariant_two_clients : ∃ s, Reach smallArea (fun _ => 0) s ∧ s.live = [4140, 4124] ∧
    s.heap.heapCount = 3 ∧ (∃ s', step smallArea s (.malloc 1000) = .ok s') ∧
    ∃ s' fl', steps smallArea s [.free 4124, .free 4140] = .ok s' ∧
      Layout s'.heap (initBlocks smallArea) fl' := by
  obtain ⟨s, hr, hl⟩ := reach_two_clients
  obtain ⟨-, hcount, htotal, hfree⟩ := (heap_invariant smallArea _).2 s hr
  refine ⟨s, hr, hl, by rw [hcount, hl]; rfl, htotal _ (show 1000 < 2 ^ 32 by decide),
    hfree [4124, 4140] ?_⟩
  rw [hl]
  exact List.Perm.swap _ _ _

/-- **Non-interference.**  Live payloads lie inside the array and do not meet, and a `malloc` or a
`free` of another pointer changes no word of them. -/
theorem payloads_apart (hr : Reach a array₀ s) :
    (∀ p ∈ s.live, ∀ i, InPayload a s.heap p i → 0 ≤ i ∧ i < s.heap.len ∧
      a.base ≤ a.addr i ∧ a.addr i + 4 ≤ a.base + a.bytes) ∧
    (∀ p ∈ s.live, ∀ q ∈ s.live, p ≠ q → ∀ i, InPayload a s.heap p i → ¬ InPayload a s.heap q i) ∧
    ∀ op s', (∃ n, op = .malloc n) ∨ (∃ p, op = .free p) → Allowed a s op → step a s op = .ok s' →
      ∀ q ∈ s.live, op ≠ .free q → q ∈ s'.live ∧ ∀ i, InPayload a s.heap q i →
        InPayload a s'.heap q i ∧ s'.heap.array i = s.heap.array i := by
  obtain ⟨bs, fl, I⟩ := inv_of_reach hr
  have hin : ∀ p ∈ s.live, ∃ b ∈ bs, Client s.heap b ∧ a.addr (b.start + 1) = p ∧
      ∀ i, InPayload a s.heap p i ↔ b.start < i ∧ i < b.start + b.len - 1 := by
    intro p hp
    obtain ⟨b, hb, hc, he, hh, hs⟩ := I.block hp
    refine ⟨b, hb, hc, he, fun i => ?_⟩
    rw [InPayload, hs, hh]
  refine ⟨fun p hp i hi => ?_, fun p hp q hq hne i hpi hqi => ?_, fun op s' hop hal hs q hq hne => ?_⟩
  · obtain ⟨b, hb, -, -, hiff⟩ := hin p hp
    have hbb := I.layout.tiles.mem_bounds b hb
    have hi' := (hiff i).mp hi
    have hlen := I.len
    unfold Block.stop at hbb
    refine ⟨by omega, by omega, ?_, ?_⟩ <;> unfold Area.addr <;> omega
  · obtain ⟨b, hb, -, hbp, hb'⟩ := hin p hp
    obtain ⟨c, hc, -, hcq, hc'⟩ := hin q hq
    have h1 := (hb' i).mp hpi
    have h2 := (hc' i).mp hqi
    have := I.layout.tiles.eq_of_mem hb hc (i := i)
      (by unfold Block.stop; omega) (by unfold Block.stop; omega)
    exact hne (by rw [← hbp, ← hcq, this])
  · obtain ⟨bs', fl', I', hk⟩ : ∃ bs' fl', Inv a s' bs' fl' ∧ Keeps s s' bs bs' op a := by
      rcases hop with ⟨n, rfl⟩ | ⟨p, rfl⟩
      · obtain ⟨s₁, bs', fl', hs₁, I', hk⟩ := inv_malloc I n
        obtain rfl : s' = s₁ := by simpa [hs] using hs₁
        exact ⟨bs', fl', I', hk⟩
      · obtain ⟨s₁, bs', fl', hs₁, -, I', hk⟩ := inv_free I hal
        obtain rfl : s' = s₁ := by simpa [hs] using hs₁
        exact ⟨bs', fl', I', hk⟩
    obtain ⟨b, hb, hc, hbq, hiff⟩ := hin q hq
    obtain ⟨hb', hcells⟩ := hk b hb hc (by rw [hbq]; exact hne)
    have hlive : q ∈ s'.live := by
      refine (I'.live q).mpr ⟨b, hb', ?_, hbq⟩
      rw [Client, I'.len, ← I.len]
      exact hc
    refine ⟨hlive, fun i hi => ?_⟩
    have hi' := (hiff i).mp hi
    refine ⟨?_, hcells i (by omega) (by unfold Block.stop; omega)⟩
    have h0 := (I.layout.tiles.mem_bounds b hb).1
    rw [InPayload, ← hbq, header_addr h0, I'.layout.size_eq hb']
    exact hi'

theorem payloads_apart_two_clients : ∃ s s', Reach smallArea (fun _ => 0) s ∧ s.live = [4140, 4124] ∧
    step smallArea s (.free 4124) = .ok s' ∧ 4140 ∈ s'.live ∧
    ∀ i, InPayload smallArea s.heap 4140 i → s'.heap.array i = s.heap.array i := by
  obtain ⟨s, hr, hl⟩ := reach_two_clients
  have hal : Allowed smallArea s (.free 4124) := by simp [Allowed, hl]
  obtain ⟨bs, fl, I⟩ := inv_of_reach hr
  obtain ⟨s', -, -, hs, -⟩ := inv_step I hal
  obtain ⟨hlive, hkeep⟩ :=
    (payloads_apart hr).2.2 _ s' (.inr ⟨4124, rfl⟩) hal hs 4140 (by simp [hl]) (by simp)
  exact ⟨s, s', hr, hl, hs, hlive, fun i hi => (hkeep i hi).2⟩

end GheithOS.Heap
