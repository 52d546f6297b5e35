import GheithOS.Heap.Runs

/-!
# GheithOS.Heap.Choice — which block `malloc` takes, and how much room it gives

`available` reads the blocks off the tags of the array, `freeList` off the links; in a reachable
state both are the available blocks of the layout.  `malloc_choice` says which of them `malloc`
takes and what is available afterwards.

The length that `malloc` asks for is computed from `bytes + 3`, a `size_t`: the last three sizes
wrap to nothing, and are given a block of four ints.  `malloc_room_iff` says that these are the only
ones.
-/

namespace GheithOS.Heap

open Lib

/-! ### Blocks as the array tells them -/

/-- The nodes met from `p` along `next`, `steps` of them at most. -/
def walk (h : State) : ℕ → ℤ → List ℤ
  | 0, _ => []
  | steps + 1, p => if p = 0 then [] else p :: walk h steps (next h p)

/-- The available blocks in the order of the list. -/
def freeList (h : State) : List ℤ := walk h (h.len.toNat + 1) h.avail

/-- The headers met from `i` on by going right, `steps` of them at most. -/
def headers (h : State) : ℕ → ℤ → List ℤ
  | 0, _ => []
  | steps + 1, i => if h.len ≤ i then [] else i :: headers h steps (right h i)

/-- The available blocks in the order of the array, each with its length. -/
def available (h : State) : List (ℤ × ℤ) :=
  ((headers h (h.len.toNat + 1) 0).filter (isAvail h)).map fun i => (i, size h i)

variable {a : Area} {array₀ : ℤ → ℤ} {s : Sys} {h : State} {bs : List Blk} {fl : List ℤ}

theorem walk_eq {pr p : ℤ} {l : List ℤ} {steps : ℕ} (hl : Linked (next h) (prev h) 0 pr p l)
    (hs : l.length < steps) : walk h steps p = l := by
  induction l generalizing pr p steps with
  | nil =>
    obtain ⟨steps, rfl⟩ : ∃ m, steps = m + 1 := ⟨steps - 1, by simp at hs; omega⟩
    have hp : p = 0 := hl
    simp [walk, hp]
  | cons x l ih =>
    obtain ⟨steps, rfl⟩ : ∃ m, steps = m + 1 := ⟨steps - 1, by simp at hs; omega⟩
    obtain ⟨rfl, hp0, -, hrest⟩ := hl
    rw [walk, if_neg hp0, ih hrest (by simpa using hs)]

theorem Layout.freeList_eq (H : Layout h bs fl) : Heap.freeList h = fl := walk_eq H.linked H.length_fl

theorem headers_eq {lo : ℤ} {cs : List Blk} {steps : ℕ} (ht : Tiles lo cs h.len)
    (htags : ∀ b ∈ cs, size h b.start = b.len) (hs : cs.length < steps) :
    headers h steps lo = cs.map Block.start := by
  induction cs generalizing lo steps with
  | nil =>
    obtain ⟨steps, rfl⟩ : ∃ m, steps = m + 1 := ⟨steps - 1, by simp at hs; omega⟩
    have hlo : lo = h.len := ht
    simp [headers, hlo]
  | cons b cs ih =>
    obtain ⟨steps, rfl⟩ : ∃ m, steps = m + 1 := ⟨steps - 1, by simp at hs; omega⟩
    have hlt := (ht.mem_bounds b List.mem_cons_self)
    obtain ⟨rfl, hpos, hrest⟩ := ht
    have hright : right h b.start = b.stop := by
      rw [right, sanity, htags b List.mem_cons_self]
      rfl
    rw [headers, if_neg (by unfold Block.stop at hlt; omega), hright,
      ih hrest (fun c hc => htags c (List.mem_cons_of_mem b hc)) (by simpa using hs)]
    rfl

variable {i n : ℤ}

theorem Layout.mem_available (H : Layout h bs fl) :
    (i, n) ∈ available h ↔ ∃ b ∈ bs, b.tag = false ∧ b.start = i ∧ b.len = n := by
  have hlen : bs.length < h.len.toNat + 1 := by
    have := H.tiles.length_le
    omega
  rw [available, headers_eq H.tiles (fun b hb => H.size_eq hb) hlen]
  simp only [List.mem_map, List.mem_filter, Prod.mk.injEq]
  constructor
  · rintro ⟨x, ⟨⟨b, hb, rfl⟩, hav⟩, rfl, rfl⟩
    rw [H.isAvail_iff hb] at hav
    exact ⟨b, hb, by simpa using hav, rfl, (H.size_eq hb).symm⟩
  · rintro ⟨b, hb, ht, rfl, rfl⟩
    refine ⟨b.start, ⟨⟨b, hb, rfl⟩, ?_⟩, rfl, H.size_eq hb⟩
    rw [H.isAvail_iff hb, ht]
    rfl

theorem Layout.mem_freeList (H : Layout h bs fl) :
    i ∈ Heap.freeList h ↔ ∃ n, (i, n) ∈ available h := by
  rw [H.freeList_eq, H.free]
  constructor
  · rintro ⟨b, hb, ht, rfl⟩
    exact ⟨b.len, H.mem_available.mpr ⟨b, hb, ht, rfl, rfl⟩⟩
  · rintro ⟨n, hn⟩
    obtain ⟨b, hb, ht, hs, -⟩ := H.mem_available.mp hn
    exact ⟨b, hb, ht, hs⟩

/-! ### The choice -/

variable {h' : State} {xs ys : List Blk} {b : Blk} {fl' : List ℤ} {ints : ℤ}

theorem available_carve (H : Layout h (xs ++ [b] ++ ys) fl)
    (H' : Layout h' (xs ++ carve b ints ++ ys) fl') :
    (i, n) ∈ available h' ↔ (i, n) ∈ available h ∧ i ≠ b.start ∨
      4 ≤ b.len - ints ∧ i = b.start + ints ∧ n = b.len - ints := by
  have hsides : ∀ c, c ∈ xs ∨ c ∈ ys → c.start ≠ b.start := fun c hc => by
    obtain ⟨h1, hpos, h2⟩ := Tiles.split (by simpa using H.tiles)
    rcases hc with hc | hc
    · have := h1.mem_bounds c hc
      unfold Block.stop at this
      omega
    · have := h2.mem_bounds c hc
      unfold Block.stop at this
      omega
  have hcarve : ∀ c : Blk, c ∈ carve b ints ∧ c.tag = false ↔
      4 ≤ b.len - ints ∧ c = ⟨b.start + ints, b.len - ints, false⟩ := fun c => by
    unfold carve
    by_cases hex : b.len - ints ≥ 4
    · rw [if_pos hex]
      simp only [List.mem_cons, List.not_mem_nil, or_false]
      constructor
      · rintro ⟨rfl | rfl, ht⟩
        · simp at ht
        · exact ⟨hex, rfl⟩
      · rintro ⟨-, rfl⟩
        exact ⟨.inr rfl, rfl⟩
    · rw [if_neg hex]
      simp only [List.mem_singleton]
      constructor
      · rintro ⟨rfl, ht⟩
        simp at ht
      · rintro ⟨h4, -⟩
        exact absurd h4 hex
  rw [H'.mem_available, H.mem_available]
  constructor
  · rintro ⟨c, hc, ht, rfl, rfl⟩
    simp only [List.mem_append] at hc
    rcases hc with (hc | hc) | hc
    · exact .inl ⟨⟨c, by simp [hc], ht, rfl, rfl⟩, hsides c (.inl hc)⟩
    · obtain ⟨h4, rfl⟩ := (hcarve c).mp ⟨hc, ht⟩
      exact .inr ⟨h4, rfl, rfl⟩
    · exact .inl ⟨⟨c, by simp [hc], ht, rfl, rfl⟩, hsides c (.inr hc)⟩
  · rintro (⟨⟨c, hc, ht, rfl, rfl⟩, hne⟩ | ⟨h4, rfl, rfl⟩)
    · have hcb : c ≠ b := fun h => hne (by rw [h])
      simp only [List.mem_append, List.mem_singleton] at hc
      refine ⟨c, ?_, ht, rfl, rfl⟩
      simp only [List.mem_append]
      tauto
    · obtain ⟨hc, ht⟩ := (hcarve _).mpr ⟨h4, rfl⟩
      exact ⟨_, by simp only [List.mem_append]; exact .inl (.inr hc), ht, rfl, rfl⟩

/-- **`malloc`'s choice.**  In a reachable state the list holds the available blocks, each once.
`malloc` returns null, and then changes nothing, exactly if no available block has `ints` ints;
otherwise it takes the smallest of the first 20 blocks of the list that have, the first of them, and
leaves the others and the tail that is cut off. -/
theorem malloc_choice (hr : Reach a array₀ s) {bytes : ℕ} (h0 : 0 < bytes) :
    (freeList s.heap).Nodup ∧ (∀ i, i ∈ freeList s.heap ↔ ∃ n, (i, n) ∈ available s.heap) ∧
    ∃ p h', malloc a s.heap bytes = .ok (p, h') ∧
      (p = 0 ↔ ∀ i n, (i, n) ∈ available s.heap → n < intsFor bytes) ∧ (p = 0 → h' = s.heap) ∧
      (p ≠ 0 → ∃ it, (candidates s.heap (freeList s.heap) (intsFor bytes)).argmin (size s.heap) = some it ∧
        p = a.addr (it + 1) ∧ ∀ i n, (i, n) ∈ available h' ↔ (i, n) ∈ available s.heap ∧ i ≠ it ∨
          4 ≤ size s.heap it - intsFor bytes ∧ i = it + intsFor bytes ∧
          n = size s.heap it - intsFor bytes) := by
  obtain ⟨bs, fl, I⟩ := inv_of_reach hr
  have H := I.layout
  have hmax : s.heap.len ≤ 0x7FFFFFFF := by
    have := a.len_lt
    rw [I.len]
    omega
  refine ⟨H.freeList_eq ▸ H.nodup, fun i => H.mem_freeList, ?_⟩
  rw [H.freeList_eq]
  rcases malloc_spec (a := a) H hmax (Nat.pos_iff_ne_zero.mp h0) with ⟨hm, hnone⟩ | hsome
  · refine ⟨0, s.heap, hm, ⟨fun _ i n hin => ?_, fun _ => rfl⟩, fun _ => rfl, fun h => absurd rfl h⟩
    obtain ⟨b, hb, ht, rfl, rfl⟩ := H.mem_available.mp hin
    exact hnone b hb ht
  · obtain ⟨xs, b, ys, h', rfl, ht, hle, hmin, hm, -, -, ⟨fl', hL⟩, -⟩ := hsome
    have hb : b ∈ xs ++ [b] ++ ys := by simp
    have hp0 : a.addr (b.start + 1) ≠ 0 := by
      have := a.base_pos
      unfold Area.addr
      omega
    refine ⟨_, h', hm, ⟨fun h => absurd h hp0, fun hall => ?_⟩, fun h => absurd h hp0, fun _ => ?_⟩
    · have := hall b.start b.len (H.mem_available.mpr ⟨b, hb, ht, rfl, rfl⟩)
      omega
    · refine ⟨b.start, hmin, rfl, fun i n => ?_⟩
      rw [H.size_eq hb]
      exact available_carve H hL

/-- A third client of eight bytes gets the block behind the two others. -/
theorem malloc_choice_two_clients : ∃ s, Reach smallArea (fun _ => 0) s ∧ s.live = [4140, 4124] ∧
    ∃ p h', malloc smallArea s.heap 8 = .ok (p, h') ∧
      (p = 0 ↔ ∀ i n, (i, n) ∈ available s.heap → n < intsFor 8) := by
  obtain ⟨s, hr, hl⟩ := reach_two_clients
  obtain ⟨-, -, p, h', hm, hp, -⟩ := malloc_choice hr (show 0 < 8 by decide)
  exact ⟨s, hr, hl, p, h', hm, hp⟩

/-! ### The room -/

/-- `malloc` returns, with null or with a payload of at least `bytes` bytes. -/
def GivesRoom (a : Area) (h : State) (bytes : ℕ) : Prop :=
  ∃ p h', malloc a h bytes = .ok (p, h') ∧ (p ≠ 0 → (bytes : ℤ) ≤ 4 * (size h' (header a p) - 2))

theorem intsFor_eq {bytes : ℕ} (h0 : 0 < bytes) (h : bytes + 3 < 2 ^ 32) :
    (bytes : ℤ) ≤ 4 * (intsFor bytes - 2) := by
  unfold intsFor
  rw [Nat.mod_eq_of_lt h]
  dsimp only
  split <;> omega

theorem intsFor_wrap {bytes : ℕ} (h : 2 ^ 32 ≤ bytes + 3) (hb : bytes < 2 ^ 32) : intsFor bytes = 4 := by
  have hmod : (bytes + 3) % 2 ^ 32 / 4 = 0 := by omega
  unfold intsFor
  rw [hmod]
  rfl

theorem size_carved (H' : Layout h' (xs ++ carve b ints ++ ys) fl') :
    size h' b.start = if b.len - ints ≥ 4 then ints else b.len := by
  unfold carve at H'
  split at H'
  · next hex =>
    rw [if_pos hex]
    exact H'.size_eq (b := ⟨b.start, ints, true⟩) (by simp)
  · next hex =>
    rw [if_neg hex]
    exact H'.size_eq (b := ⟨b.start, b.len, true⟩) (by simp)

/-- **Enough room.**  In a reachable state `malloc` gives a request the room it asks for, or null,
exactly if the request is none of the last three of `size_t`, or nothing is available. -/
theorem malloc_room_iff (hr : Reach a array₀ s) {bytes : ℕ} (h0 : 0 < bytes) (hb : bytes < 2 ^ 32) :
    GivesRoom a s.heap bytes ↔ bytes + 3 < 2 ^ 32 ∨ s.heap.avail = 0 := by
  obtain ⟨bs, fl, I⟩ := inv_of_reach hr
  have H := I.layout
  have hmax : s.heap.len ≤ 0x7FFFFFFF := by
    have := a.len_lt
    rw [I.len]
    omega
  rcases malloc_spec (a := a) H hmax (Nat.pos_iff_ne_zero.mp h0) with ⟨hm, hnone⟩ | hsome
  · refine iff_of_true ⟨0, s.heap, hm, fun h => absurd rfl h⟩ (or_iff_not_imp_left.mpr fun hwrap => ?_)
    -- a request that wraps asks for four ints, and no block is smaller
    refine H.linked.eq_nil_iff.mp (List.eq_nil_iff_forall_not_mem.mpr fun i hi => ?_)
    obtain ⟨b, hbm, ht, -⟩ := (H.free i).mp hi
    have h1 := hnone b hbm ht
    have h2 := (H.avail_bounds hbm ht).1
    rw [intsFor_wrap (by omega) hb] at h1
    omega
  · obtain ⟨xs, b, ys, h', rfl, ht, hle, -, hm, -, -, ⟨fl', hL⟩, -⟩ := hsome
    have hbm : b ∈ xs ++ [b] ++ ys := by simp
    have hb0 := (H.avail_bounds hbm ht).2.1
    have hp0 : a.addr (b.start + 1) ≠ 0 := by
      have := a.base_pos
      unfold Area.addr
      omega
    have hav : s.heap.avail ≠ 0 := fun h => by
      have hnil := H.linked.eq_nil_iff.mpr h
      have := (H.free b.start).mpr ⟨b, hbm, ht, rfl⟩
      rw [hnil] at this
      simp at this
    have hsize := size_carved hL
    have hhead : header a (a.addr (b.start + 1)) = b.start := header_addr (by omega)
    rw [or_iff_left hav]
    constructor
    · rintro ⟨p, h'', hm', hroom⟩
      obtain ⟨rfl, rfl⟩ : a.addr (b.start + 1) = p ∧ h' = h'' := by
        rw [hm] at hm'
        simpa using hm'
      by_contra hwrap
      have h1 := hroom hp0
      rw [hhead, hsize, intsFor_wrap (by omega) hb] at h1
      split at h1 <;> omega
    · intro hfit
      refine ⟨_, h', hm, fun _ => ?_⟩
      have h1 := intsFor_eq h0 hfit
      rw [hhead, hsize]
      split <;> omega

theorem malloc_room_two_clients : ∃ s, Reach smallArea (fun _ => 0) s ∧ s.live = [4140, 4124] ∧
    (GivesRoom smallArea s.heap 10 ↔ 10 + 3 < 2 ^ 32 ∨ s.heap.avail = 0) := by
  obtain ⟨s, hr, hl⟩ := reach_two_clients
  exact ⟨s, hr, hl, malloc_room_iff hr (by decide) (by decide)⟩

/-- After `heapInit` a request of `0xFFFFFFFF` bytes is given eight. -/
theorem malloc_gives_eight_bytes : ∃ s, Reach smallArea (fun _ => 0) s ∧
    ∃ p h', malloc smallArea s.heap 0xFFFFFFFF = .ok (p, h') ∧ p ≠ 0 ∧
      4 * (size h' (header smallArea p) - 2) = 8 ∧
      ¬GivesRoom smallArea s.heap 0xFFFFFFFF := by
  refine ⟨_, .init rfl, _, _, rfl, by decide, by decide, ?_⟩
  rintro ⟨p, h', hm, hroom⟩
  cases hm
  exact absurd (hroom (by decide)) (by decide)

end GheithOS.Heap
