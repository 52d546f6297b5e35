import GheithOS.Vmm.Moves

/-!
# GheithOS.Vmm.Frames — frames change their use

A frame that nobody targets goes from one use to another: `alloc_frame` takes it, a directory or a
table is made of it, `dealloc_frame` gives it back.  All of them are `Sound.recast`.  The loops of
`clone_directory` and of `COW::copy` double the entries of a directory or a table: `Sound.share`,
and `Sound.relay` when nothing targets the old one any more.
-/

namespace GheithOS.Vmm

open Cow Lib Function

variable {c : Config} {G G' : Ghost} {s s' : Vm} {X Y : Set ℕ} {n m d t f a : ℕ} {i j : Index} {k : Kind}

/-! ### One frame -/

section Recast

theorem slot_congr {kind kind' : ℕ → Kind} {mem mem' : ℕ → Row} (hk : kind' n = kind n)
    (hm : mem' n = mem n) : slot kind' mem' n = slot kind mem n := by
  funext i
  rw [slot, slot, hk, hm]

theorem mem_holders_update {kind : ℕ → Kind} (hn : n ≠ f) :
    n ∈ holders (update kind f k) ↔ n ∈ holders kind := by
  rw [holders, holders, Finset.mem_filter, Finset.mem_filter, update_of_ne hn]

theorem holders_update {kind : ℕ → Kind} (hf : f < frameLimit) :
    holders (update kind f k) =
      if k = .dir ∨ k = .table then insert f ((holders kind).erase f) else (holders kind).erase f := by
  ext n
  by_cases hn : n = f
  · subst hn
    split <;> simp_all [holders]
  · rw [mem_holders_update hn]
    split <;> simp [hn]

/-- The ledger does not see a frame without entries change its use. -/
theorem Sound.balanced_recast (H : Sound c G s) (hlim : f < frameLimit)
    (hrow : ∀ n, n ≠ f → s'.mem n = s.mem n)
    (hold : f ∈ holders G.kind → ∀ i, slot G.kind s.mem f i = none)
    (hnew : k = .dir ∨ k = .table → ∀ i, slot (update G.kind f k) s'.mem f i = none) :
    Balanced (holders (update G.kind f k)) (slot (update G.kind f k) s'.mem) s.refCounts G.bias ∧
    ∀ a, total (holders (update G.kind f k)) (slot (update G.kind f k) s'.mem) a = entries G s a := by
  have hslot : ∀ n, n ≠ f → slot (update G.kind f k) s'.mem n = slot G.kind s.mem n := fun n hn =>
    slot_congr (update_of_ne hn _ _) (hrow n hn)
  -- without `f` the two ledgers agree
  have hsame : ∀ n ∈ (holders G.kind).erase f, slot (update G.kind f k) s'.mem n = slot G.kind s.mem n :=
    fun n hn => hslot n (Finset.ne_of_mem_erase hn)
  have hdrop : Balanced ((holders G.kind).erase f) (slot G.kind s.mem) s.refCounts G.bias ∧
      ∀ a, total ((holders G.kind).erase f) (slot G.kind s.mem) a = entries G s a := by
    by_cases hf : f ∈ holders G.kind
    · refine ⟨H.balanced.dropHolder hf (hold hf), fun a => ?_⟩
      have h1 := shared_erase (slot G.kind s.mem) hf a
      have h2 := owned_erase (slot G.kind s.mem) hf a
      rw [sharedHits_empty (hold hf)] at h1
      rw [ownedHits_empty (hold hf)] at h2
      unfold entries total
      omega
    · rw [Finset.erase_eq_of_notMem hf]
      exact ⟨H.balanced, fun a => rfl⟩
  have hbal : Balanced ((holders G.kind).erase f) (slot (update G.kind f k) s'.mem) s.refCounts G.bias ∧
      ∀ a, total ((holders G.kind).erase f) (slot (update G.kind f k) s'.mem) a = entries G s a := by
    refine ⟨hdrop.1.congr hsame, fun a => ?_⟩
    rw [total, shared_congr hsame, owned_congr hsame]
    exact hdrop.2 a
  rw [holders_update hlim]
  split
  · next hk =>
    have hni : f ∉ (holders G.kind).erase f := by simp
    refine ⟨hbal.1.addHolder hni (hnew hk), fun a => ?_⟩
    rw [total, shared_insert hni, owned_insert hni, sharedHits_empty (hnew hk),
      ownedHits_empty (hnew hk), Nat.zero_add, Nat.zero_add]
    exact hbal.2 a
  · exact hbal

/-- **A frame that nobody targets changes its use**, and may be filled anew. -/
theorem Sound.recast (H : Sound c G s) (hP : Pool c G' s') (hk : G'.kind = update G.kind f k)
    (hb : G'.bias = G.bias) (hrc : s'.refCounts = s.refCounts) (hav : s.avail ≤ s'.avail)
    (hrow : ∀ n, n ≠ f → s'.mem n = s.mem n) (hlim : f < frameLimit) (hbase : f ≠ c.baseDirectory)
    (halone : entries G s f = 0)
    (hold : f ∈ holders G.kind → ∀ i, slot G.kind s.mem f i = none)
    (hnew : k = .dir ∨ k = .table → ∀ i, slot (update G.kind f k) s'.mem f i = none)
    (hclean : k = .free ∨ k = .limbo ∨ k = .dir → s.refCounts f = 0) :
    Sound c G' s' ∧ ∀ a, entries G' s' a = entries G s a := by
  obtain ⟨hbal, hent⟩ := H.balanced_recast hlim hrow hold hnew
  have hent' : ∀ a, entries G' s' a = entries G s a := fun a => by
    rw [entries, hk]
    exact hent a
  have hkind : ∀ {n : ℕ}, n ≠ f → G'.kind n = G.kind n := fun hn => by rw [hk, update_of_ne hn]
  -- what is targeted is not `f`, so its use is as before
  have hkeep : ∀ {m : ℕ} {i : Index} {a : ℕ}, Holds G m i → tgt (s.mem m i) = some a →
      G'.kind a = G.kind a :=
    fun {m i a} hm h => hkind fun haf => by
      have := H.entries_pos hm h
      rw [haf, halone] at this
      omega
  have hdir : ∀ {m : ℕ} {i : Index} {t : ℕ}, G'.kind m = .dir → isUser i = true →
      tgt (s'.mem m i) = some t →
      m ≠ f := fun {m i t} hm hi ht hmf => by
    subst hmf
    have hkd : k = .dir := by
      rw [hk, update_self] at hm
      exact hm
    have h1 := hnew (.inl hkd) i
    rw [slot, if_neg (by simp [hi]), entryRef_eq_none, ht] at h1
    cases h1
  have htab : ∀ {m : ℕ} {j : Index} {x : ℕ}, G'.kind m = .table → tgt (s'.mem m j) = some x → m ≠ f :=
    fun {m j x} hm hx hmf => by
    subst hmf
    have hkt : k = .table := by
      rw [hk, update_self] at hm
      exact hm
    have h1 := hnew (.inr hkt) j
    rw [slot, if_neg (by simp [hkt]), entryRef_eq_none, hx] at h1
    cases h1
  refine ⟨{ toPool := hP, pde := ?_, pte := ?_, zero_ro := ?_, base := ?_,
            balanced := ?_, loose := ?_, lone := ?_, zero_bias := ?_, clean := ?_ }, hent'⟩
  · intro d i t hd hi ht
    have hdf := hdir hd hi ht
    rw [hkind hdf] at hd
    rw [hrow d hdf] at ht
    rw [hkeep (.inl ⟨hd, hi⟩) ht]
    exact H.pde hd hi ht
  · intro t j x hkt hx
    have htf := htab hkt hx
    rw [hkind htf] at hkt
    rw [hrow t htf] at hx
    rw [hkeep (.inr hkt) hx]
    exact H.pte hkt hx
  · intro t j hkt hx
    have htf := htab hkt hx
    rw [hkind htf] at hkt
    rw [hrow t htf] at hx ⊢
    exact H.zero_ro hkt hx
  · intro i hi
    rw [hrow _ (Ne.symm hbase)]
    exact H.base i hi
  · rw [hk, hb, hrc]
    exact hbal
  · intro a ha
    rw [hent']
    rw [hb] at ha
    exact H.loose a ha
  · intro t j x hkt hx hbx
    have htf := htab hkt hx
    rw [hkind htf] at hkt
    rw [hrow t htf] at hx
    rw [hb] at hbx
    rw [hent']
    exact H.lone t j x hkt hx hbx
  · rw [hb]
    exact H.zero_bias
  · intro n hn
    rw [hrc]
    by_cases hnf : n = f
    · subst hnf
      rw [hk, update_self] at hn
      rcases hn with h | h | h | h
      · exact hclean (.inl h)
      · exact hclean (.inr (.inl h))
      · exact hclean (.inr (.inr h))
      · exact H.clean n (.inr (.inr (.inr (le_trans hav h))))
    · rw [hkind hnf] at hn
      refine H.clean n (hn.imp id (Or.imp id (Or.imp id fun h => le_trans hav h)))

end Recast

/-! ### `alloc_frame`, `dealloc_frame`, and the uses in between -/

section Uses

theorem unlink_link {p : Option ℕ} (h : ∀ n, p = some n → 0 < n ∧ n < frameLimit) :
    unlink (link p) = p := by
  match p with
  | none => rfl
  | some n =>
    obtain ⟨h1, h2⟩ := h n rfl
    have hne : frameAddr n ≠ 0#32 := by
      intro h0
      have h3 := congrArg BitVec.toNat h0
      rw [frameAddr_toNat h2] at h3
      simp at h3
      omega
    rw [link, unlink, if_neg hne, pageNumber_frameAddr h2]

theorem Chain.head_mem {mem : ℕ → Row} :
    ∀ {p : Option ℕ} {l : List ℕ}, Chain mem p l → ∀ n, p = some n → n ∈ l
  | some _, _ :: _, h, n, hn => by
    obtain rfl : _ = n := Option.some.inj hn
    rw [h.1]
    exact List.mem_cons_self

/-- `alloc_frame` returns the first free frame or the next one of the pool, zeroed, or panics. -/
theorem allocFrame_cases (s : Vm) :
    (∃ f, s.firstFree = some f ∧
      allocFrame s = .ok (f, ({ s with firstFree := unlink (s.mem f 0) }).setRow f fun _ => 0#32)) ∨
    (s.firstFree = none ∧ s.avail ≠ s.limit ∧
      allocFrame s = .ok (s.avail, ({ s with avail := s.avail + 1 }).setRow s.avail fun _ => 0#32)) ∨
    allocFrame s = .error .noMoreFrames := by
  cases h : s.firstFree with
  | some f => exact .inl ⟨f, rfl, by simp [allocFrame, h]⟩
  | none =>
    by_cases hl : s.avail = s.limit
    · exact .inr (.inr (by simp [allocFrame, h, hl]))
    · exact .inr (.inl ⟨rfl, hl, by simp [allocFrame, h, hl]⟩)

/-- The ghost when the code takes a frame. -/
def Ghost.take (G : Ghost) (f : ℕ) : Ghost :=
  { G with kind := update G.kind f .limbo, free := G.free.erase f }

/-- The ghost when the code gives a frame back. -/
def Ghost.give (G : Ghost) (f : ℕ) : Ghost := { G with kind := update G.kind f .free, free := f :: G.free }

/-- The ghost when a frame gets another use. -/
def Ghost.setKind (G : Ghost) (f : ℕ) (k : Kind) : Ghost := { G with kind := update G.kind f k }

@[simp] theorem take_kind_self (G : Ghost) (f : ℕ) : (G.take f).kind f = .limbo := update_self _ _ _

theorem take_kind (h : n ≠ f) : (G.take f).kind n = G.kind n := update_of_ne h _ _

@[simp] theorem give_kind_self (G : Ghost) (f : ℕ) : (G.give f).kind f = .free := update_self _ _ _

theorem give_kind (h : n ≠ f) : (G.give f).kind n = G.kind n := update_of_ne h _ _

@[simp] theorem setKind_self (G : Ghost) (f : ℕ) (k : Kind) : (G.setKind f k).kind f = k :=
  update_self _ _ _

theorem setKind_of_ne (h : n ≠ f) : (G.setKind f k).kind n = G.kind n := update_of_ne h _ _

/-- What `alloc_frame` does. -/
structure Taken (c : Config) (G : Ghost) (s : Vm) (f : ℕ) (s' : Vm) : Prop where
  sound : Sound c (G.take f) s'
  same : ∀ a, entries (G.take f) s' a = entries G s a
  kind : G.kind f = .free ∨ G.kind f = .out
  row : s'.mem f = fun _ => 0#32
  rows : ∀ n, n ≠ f → s'.mem n = s.mem n
  counts : s'.refCounts = s.refCounts
  count : s.refCounts f = 0
  lt : f < frameLimit
  pool_le : c.pool ≤ f
  avail : ∀ n, n < s'.avail → n < s.avail ∨ n = f

theorem Sound.not_targeted (H : Sound c G s) (hk : G.kind f = .free ∨ G.kind f = .out)
    (hp : c.pool ≤ f) : entries G s f = 0 := by
  have hz := H.zero_lt
  rcases hk with h | h <;> exact H.entries_eq_zero (by simp [h]) (by simp [h]) (by omega)

theorem Pool.alloc_head (H : Pool c G s) (h : s.firstFree = some f) :
    Pool c (G.take f) (({ s with firstFree := unlink (s.mem f 0) }).setRow f fun _ => 0#32) := by
  have hk : G.kind f = .free := (H.free_iff f).mp (H.chain.head_mem f h)
  obtain ⟨l, hl⟩ : ∃ l, G.free = f :: l := by
    have hc := H.chain
    rw [h] at hc
    match hg : G.free with
    | [] => simp [hg, Chain] at hc
    | q :: l =>
      rw [hg] at hc
      exact ⟨l, by rw [hc.1]⟩
  have hnd := H.nodup
  have hch := H.chain
  rw [hl] at hnd hch
  rw [h] at hch
  have hne : ∀ n ∈ l, n ≠ f := fun n hn => by
    rintro rfl
    exact (List.nodup_cons.mp hnd).1 hn
  have herase : (G.take f).free = l := by simp [Ghost.take, hl]
  exact {
    chain := by
      rw [herase]
      exact hch.2.congr fun n hn => setRow_of_ne (hne n hn)
    nodup := by
      rw [herase]
      exact (List.nodup_cons.mp hnd).2
    free_iff := fun n => by
      rw [herase]
      by_cases hn : n = f
      · subst hn
        simpa using (List.nodup_cons.mp hnd).1
      · rw [take_kind hn, ← H.free_iff, hl]
        simp [hn]
    range := fun n hn => by
      by_cases hnf : n = f
      · exact hnf ▸ H.range f (by simp [hk])
      · rw [take_kind hnf] at hn
        exact H.range n hn
    pool_le := H.pool_le
    avail_le := H.avail_le
    limit_le := H.limit_le
    zero_lt := H.zero_lt
    base_lt := H.base_lt }

theorem Pool.kind_avail (H : Pool c G s) : G.kind s.avail = .out := by
  by_contra hc
  have := H.range _ hc
  omega

theorem Pool.alloc_next (H : Pool c G s) (h : s.avail ≠ s.limit) :
    Pool c (G.take s.avail) (({ s with avail := s.avail + 1 }).setRow s.avail fun _ => 0#32) := by
  have hnf : s.avail ∉ G.free := by
    rw [H.free_iff, H.kind_avail]
    simp
  have hfree : (G.take s.avail).free = G.free := List.erase_of_not_mem hnf
  have h1 := H.avail_le
  have h4 := H.pool_le
  exact {
    chain := by
      rw [hfree]
      exact H.chain.congr fun n hn => setRow_of_ne (by
        rintro rfl
        exact hnf hn)
    nodup := by
      rw [hfree]
      exact H.nodup
    free_iff := fun n => by
      rw [hfree]
      by_cases hn : n = s.avail
      · subst hn
        simpa using hnf
      · rw [take_kind hn]
        exact H.free_iff n
    range := fun n hn => by
      change c.pool ≤ n ∧ n < s.avail + 1
      by_cases hna : n = s.avail
      · omega
      · rw [take_kind hna] at hn
        have := H.range n hn
        omega
    pool_le := le_trans h4 (Nat.le_succ _)
    avail_le := by
      change s.avail + 1 ≤ s.limit
      omega
    limit_le := H.limit_le
    zero_lt := H.zero_lt
    base_lt := H.base_lt }

/-- A frame that is not free gets another use. -/
theorem Pool.setKind (H : Pool c G s) (ho : G.kind f ≠ .out) (hf : G.kind f ≠ .free)
    (hkf : k ≠ .free) : Pool c (G.setKind f k) s where
  chain := H.chain
  nodup := H.nodup
  free_iff n := by
    by_cases hn : n = f
    · subst hn
      rw [setKind_self]
      exact ⟨fun h => absurd ((H.free_iff n).mp h) hf, fun h => absurd h hkf⟩
    · rw [setKind_of_ne hn]
      exact H.free_iff n
  range n hn := by
    by_cases hnf : n = f
    · exact hnf ▸ H.range f ho
    · rw [setKind_of_ne hnf] at hn
      exact H.range n hn
  pool_le := H.pool_le
  avail_le := H.avail_le
  limit_le := H.limit_le
  zero_lt := H.zero_lt
  base_lt := H.base_lt

theorem Sound.alloc_head (H : Sound c G s) (h : s.firstFree = some f) :
    Taken c G s f (({ s with firstFree := unlink (s.mem f 0) }).setRow f fun _ => 0#32) := by
  have hk : G.kind f = .free := (H.free_iff f).mp (H.chain.head_mem f h)
  have hr := H.range f (by simp [hk])
  have hlim := H.lt_limit (n := f) (by simp [hk])
  have hbase := H.base_lt
  have hcl := H.clean f (.inl hk)
  obtain ⟨h1, h2⟩ := H.recast (k := .limbo) (H.toPool.alloc_head h) rfl rfl rfl (le_refl _)
    (fun n hn => setRow_of_ne hn) hlim (by omega) (H.not_targeted (.inl hk) hr.1)
    (fun hm => by
      rw [H.mem_holders, hk] at hm
      simp at hm)
    (fun h => by simp at h) (fun _ => hcl)
  exact ⟨h1, h2, .inl hk, setRow_self _ _ _, fun n hn => setRow_of_ne hn, rfl, hcl, hlim, hr.1,
    fun n hn => .inl hn⟩

theorem Sound.alloc_next (H : Sound c G s) (h : s.avail ≠ s.limit) :
    Taken c G s s.avail (({ s with avail := s.avail + 1 }).setRow s.avail fun _ => 0#32) := by
  have hk := H.toPool.kind_avail
  have h1 := H.avail_le
  have h2 := H.limit_le
  have h3 := H.base_lt
  have h4 := H.pool_le
  have hcl := H.clean s.avail (.inr (.inr (.inr (le_refl _))))
  obtain ⟨h5, h6⟩ := H.recast (k := .limbo) (H.toPool.alloc_next h) rfl rfl rfl (Nat.le_succ _)
    (fun n hn => setRow_of_ne hn) (by omega) (by omega) (H.not_targeted (.inr hk) h4)
    (fun hm => by
      rw [H.mem_holders, hk] at hm
      simp at hm)
    (fun h => by simp at h) (fun _ => hcl)
  refine ⟨h5, h6, .inr hk, setRow_self _ _ _, fun n hn => setRow_of_ne hn, rfl, hcl, by omega, h4,
    fun n hn => ?_⟩
  change n < s.avail + 1 at hn
  omega

/-- **`alloc_frame`** takes a frame, or there is none left. -/
theorem Sound.alloc (H : Sound c G s) :
    (∃ f s', allocFrame s = .ok (f, s') ∧ Taken c G s f s') ∨ allocFrame s = .error .noMoreFrames := by
  rcases allocFrame_cases s with ⟨f, hf, h⟩ | ⟨-, hl, h⟩ | h
  · exact .inl ⟨f, _, h, H.alloc_head hf⟩
  · exact .inl ⟨_, _, h, H.alloc_next hl⟩
  · exact .inr h

/-- **A frame in hand is put to use, or one that nobody uses is taken in hand.** -/
theorem Sound.setKind (H : Sound c G s) (ho : G.kind f ≠ .out) (hf : G.kind f ≠ .free)
    (hkf : k ≠ .free) (halone : entries G s f = 0) (hcount : s.refCounts f = 0)
    (hold : ∀ i, Holds G f i → tgt (s.mem f i) = none)
    (hnew : ∀ i, Holds (G.setKind f k) f i → tgt (s.mem f i) = none) :
    Sound c (G.setKind f k) s ∧ ∀ a, entries (G.setKind f k) s a = entries G s a := by
  have hr := H.range f ho
  have hb := H.base_lt
  have hempty : ∀ {kind : ℕ → Kind} {i : Index}, (kind f = .dir ∧ isUser i = true ∨ kind f = .table →
      tgt (s.mem f i) = none) → kind f = .dir ∨ kind f = .table → slot kind s.mem f i = none := by
    intro kind i h hk
    unfold slot
    split
    · rfl
    · next hc =>
      refine entryRef_eq_none.mpr (h (hk.imp (fun hd => ⟨hd, ?_⟩) id))
      by_contra hu
      exact hc ⟨hd, by simpa using hu⟩
  refine H.recast (k := k) (H.toPool.setKind ho hf hkf) rfl rfl rfl (le_refl _)
    (fun _ _ => rfl) (H.lt_limit ho)
    (by omega) halone (fun hm i => hempty (hold i) (H.mem_holders.mp hm)) (fun hk i => ?_) (fun _ => hcount)
  refine hempty (hnew i) ?_
  rwa [update_self]

/-- **`dealloc_frame`** gives a frame in hand back. -/
theorem Sound.dealloc (H : Sound c G s) (hk : G.kind f = .limbo) :
    Sound c (G.give f) { s.setWord f 0 (link s.firstFree) with firstFree := some f } ∧
    ∀ a, entries (G.give f) { s.setWord f 0 (link s.firstFree) with firstFree := some f } a =
      entries G s a := by
  have hr := H.range f (by simp [hk])
  have hb := H.base_lt
  have hz := H.zero_lt
  have hnf : f ∉ G.free := by
    rw [H.free_iff, hk]
    simp
  have hlink : unlink (link s.firstFree) = s.firstFree := unlink_link fun n hn => by
    have hm := (H.free_iff n).mp (H.chain.head_mem n hn)
    have h1 := H.range n (by simp [hm])
    exact ⟨by omega, H.lt_limit (by simp [hm])⟩
  have hP : Pool c (G.give f) { s.setWord f 0 (link s.firstFree) with firstFree := some f } := {
    chain := by
      refine ⟨rfl, ?_⟩
      rw [setWord_self, hlink]
      refine H.chain.congr fun n hn => setWord_row ?_
      rintro rfl
      exact hnf hn
    nodup := List.nodup_cons.mpr ⟨hnf, H.nodup⟩
    free_iff := fun n => by
      by_cases hn : n = f
      · subst hn
        simp [Ghost.give]
      · rw [give_kind hn, ← H.free_iff, Ghost.give]
        simp [hn]
    range := fun n hn => by
      by_cases hnf : n = f
      · exact hnf ▸ hr
      · rw [give_kind hnf] at hn
        exact H.range n hn
    pool_le := H.pool_le
    avail_le := H.avail_le
    limit_le := H.limit_le
    zero_lt := hz
    base_lt := hb }
  refine H.recast (k := .free) hP rfl rfl rfl (le_refl _) (fun n hn => setWord_row hn)
    (H.lt_limit (by simp [hk]))
    (by omega) (H.entries_eq_zero (by simp [hk]) (by simp [hk]) (by omega)) (fun hm => ?_)
      (fun h => by simp at h)
    (fun _ => H.clean f (.inr (.inl hk)))
  rw [H.mem_holders, hk] at hm
  simp at hm

end Uses

/-! ### A directory or a table is doubled -/

section Double

/-- The entries of `t` have lost `FLAG_RW`, stand a second time in `f`, and are counted. -/
structure Doubled (G : Ghost) (s s' : Vm) (t f : ℕ) : Prop where
  holder : G.kind t = .dir ∨ G.kind t = .table
  rows : ∀ n, n ≠ t → n ≠ f → s'.mem n = s.mem n
  firstFree : s'.firstFree = s.firstFree
  avail : s'.avail = s.avail
  limit : s'.limit = s.limit
  old : ∀ i, Holds G t i → entryRef (s'.mem t i) = (entryRef (s.mem t i)).map fun x => (x.1, false)
  new : ∀ i, Holds G t i → entryRef (s'.mem f i) = (entryRef (s.mem t i)).map fun x => (x.1, false)
  counts : ∀ a, s'.refCounts a = s.refCounts a + gain (slot G.kind s.mem t) a

variable (D : Doubled G s s' t f)

include D

theorem Doubled.old_tgt (hi : Holds G t i) : tgt (s'.mem t i) = tgt (s.mem t i) := by
  have h := congrArg (Option.map Prod.fst) (D.old i hi)
  rw [map_fst_entryRef, Option.map_map] at h
  rw [h, ← map_fst_entryRef]
  rfl

theorem Doubled.new_tgt (hi : Holds G t i) : tgt (s'.mem f i) = tgt (s.mem t i) := by
  have h := congrArg (Option.map Prod.fst) (D.new i hi)
  rw [map_fst_entryRef, Option.map_map] at h
  rw [h, ← map_fst_entryRef]
  rfl

theorem Doubled.old_ro (hi : Holds G t i) (h : tgt (s'.mem t i) = some a) : isRw (s'.mem t i) = false := by
  have h1 := D.old i hi
  rw [D.old_tgt hi] at h
  rw [entryRef_of_tgt h] at h1
  exact (entryRef_eq_some.mp h1).2

theorem Doubled.new_ro (hi : Holds G t i) (h : tgt (s'.mem f i) = some a) : isRw (s'.mem f i) = false := by
  have h1 := D.new i hi
  rw [D.new_tgt hi] at h
  rw [entryRef_of_tgt h] at h1
  exact (entryRef_eq_some.mp h1).2

theorem Doubled.slot_eq {b : Bool} (h : slot G.kind s.mem t i = some (a, b)) :
    Holds G t i ∧ tgt (s.mem t i) = some a := by
  obtain ⟨h1, -, h2⟩ := slot_eq_some h
  exact ⟨D.holder.imp (fun hd => ⟨hd, h2 hd⟩) id, h1⟩

theorem Doubled.hits_eq_zero (hn : ∀ i, Holds G t i → tgt (s.mem t i) ≠ some a) :
    sharedHits (slot G.kind s.mem t) a = 0 ∧ ownedHits (slot G.kind s.mem t) a = 0 := by
  have h : ∀ i b, slot G.kind s.mem t i ≠ some (a, b) :=
    fun i b hx => hn i (D.slot_eq hx).1 (D.slot_eq hx).2
  exact ⟨Lib.hits_eq_zero.mpr fun i hi => h i false (sharedTgt_eq.mp hi),
    Lib.hits_eq_zero.mpr fun i hi => h i true (ownedTgt_eq.mp hi)⟩

theorem Doubled.count_eq (hn : ∀ i, Holds G t i → tgt (s.mem t i) ≠ some a) :
    s'.refCounts a = s.refCounts a := by
  obtain ⟨h1, h2⟩ := D.hits_eq_zero hn
  rw [D.counts, gain, h1, h2]
  simp

theorem Doubled.slot_old {kind : ℕ → Kind} (ht : kind t = G.kind t) :
    slot kind s'.mem t = demoteRow (slot G.kind s.mem t) := by
  funext i
  by_cases hu : G.kind t = .dir ∧ isUser i = false
  · rw [demoteRow, slot, slot, ht, if_pos hu, if_pos hu]
    rfl
  · have hi : Holds G t i := D.holder.imp (fun hd => ⟨hd, by_contra fun h => hu ⟨hd, by simpa using h⟩⟩) id
    rw [demoteRow, slot, slot, ht, if_neg hu, if_neg hu, D.old i hi]

theorem Doubled.slot_new {kind : ℕ → Kind} (hf : kind f = G.kind t) :
    slot kind s'.mem f = demoteRow (slot G.kind s.mem t) := by
  funext i
  by_cases hu : G.kind t = .dir ∧ isUser i = false
  · rw [demoteRow, slot, slot, hf, if_pos hu, if_pos hu]
    rfl
  · have hi : Holds G t i := D.holder.imp (fun hd => ⟨hd, by_contra fun h => hu ⟨hd, by simpa using h⟩⟩) id
    rw [demoteRow, slot, slot, hf, if_neg hu, if_neg hu, D.new i hi]

/-- **Two hold what one held.**  No count of what is doubled may be too small. -/
theorem Sound.share (H : Sound c G s) (hf : G.kind f = .limbo)
    (hneg : ∀ i a, Holds G t i → tgt (s.mem t i) = some a → 0 ≤ G.bias a)
    (hdeep : ∀ i t' j a, Holds G t i → tgt (s.mem t i) = some t' → G.kind t' = .table →
      tgt (s.mem t' j) = some a → 0 ≤ G.bias a) :
    Sound c (G.setKind f (G.kind t)) s' ∧
    ∀ a, entries (G.setKind f (G.kind t)) s' a =
      entries G s a + (sharedHits (slot G.kind s.mem t) a + ownedHits (slot G.kind s.mem t) a) := by
  have htf : t ≠ f := by
    rintro rfl
    rcases D.holder with h | h <;> simp [h] at hf
  have hfr := H.range f (by simp [hf])
  have hbz := H.base_lt
  have hkt : (G.setKind f (G.kind t)).kind t = G.kind t := setKind_of_ne htf
  have hst := D.slot_old hkt
  have hsf := D.slot_new (setKind_self G f _)
  have htm : t ∈ holders G.kind := H.mem_holders.mpr D.holder
  have hfm : f ∉ holders G.kind := by
    rw [H.mem_holders, hf]
    simp
  have hhold : holders (G.setKind f (G.kind t)).kind = insert f (holders G.kind) := by
    rw [Ghost.setKind, holders_update (H.lt_limit (by simp [hf])), if_pos D.holder,
      Finset.erase_eq_of_notMem hfm]
  have hother : ∀ n ∈ holders G.kind, n ≠ t →
      slot (G.setKind f (G.kind t)).kind s'.mem n = slot G.kind s.mem n := fun n hn hnt => by
    have hnf : n ≠ f := fun h => hfm (h ▸ hn)
    exact slot_congr (setKind_of_ne hnf) (D.rows n hnt hnf)
  have hbal := H.balanced.share htm hfm hst hsf hother
  rw [← hhold] at hbal
  have hent : ∀ a, entries (G.setKind f (G.kind t)) s' a =
      entries G s a + (sharedHits (slot G.kind s.mem t) a + ownedHits (slot G.kind s.mem t) a) :=
        fun a => by
    have h1 := hbal.count_eq a
    have h2 := H.balanced.count_eq a
    have h3 : owned (holders (G.setKind f (G.kind t)).kind) (slot (G.setKind f (G.kind t)).kind s'.mem) a +
        ownedHits (slot G.kind s.mem t) a = owned (holders G.kind) (slot G.kind s.mem) a := by
      rw [hhold, owned_insert hfm, hsf, ownedHits_demoteRow]
      have e1 := owned_erase (slot G.kind s.mem) htm a
      have e2 := owned_erase (slot (G.setKind f (G.kind t)).kind s'.mem) htm a
      rw [hst, ownedHits_demoteRow, owned_congr fun n hn =>
        hother n (Finset.mem_of_mem_erase hn) (Finset.ne_of_mem_erase hn)] at e2
      omega
    unfold gain at h1
    unfold entries total
    omega
  -- the entries of the new state are those of the old one, some of them twice
  have hdir : ∀ {d i}, (G.setKind f (G.kind t)).kind d = .dir → isUser i = true →
      ∃ d', G.kind d' = .dir ∧ tgt (s'.mem d i) = tgt (s.mem d' i) := by
    intro d i hd hi
    by_cases hdf : d = f
    · subst hdf
      rw [setKind_self] at hd
      exact ⟨t, hd, D.new_tgt (.inl ⟨hd, hi⟩)⟩
    · rw [setKind_of_ne hdf] at hd
      by_cases hdt : d = t
      · subst hdt
        exact ⟨d, hd, D.old_tgt (.inl ⟨hd, hi⟩)⟩
      · exact ⟨d, hd, by rw [D.rows d hdt hdf]⟩
  have htab : ∀ {t' j x}, (G.setKind f (G.kind t)).kind t' = .table → tgt (s'.mem t' j) = some x →
      ∃ t₀, G.kind t₀ = .table ∧ tgt (s.mem t₀ j) = some x ∧
        (t₀ = t' ∨ t₀ = t) ∧ (isRw (s'.mem t' j) = false ∨ isRw (s'.mem t' j) = isRw (s.mem t₀ j)) := by
    intro t' j x hk hx
    by_cases htf' : t' = f
    · subst htf'
      rw [setKind_self] at hk
      exact ⟨t, hk, by rw [← D.new_tgt (.inr hk), hx], .inr rfl, .inl (D.new_ro (.inr hk) hx)⟩
    · rw [setKind_of_ne htf'] at hk
      by_cases htt : t' = t
      · subst htt
        exact ⟨t', hk, by rw [← D.old_tgt (.inr hk), hx], .inl rfl, .inl (D.old_ro (.inr hk) hx)⟩
      · rw [D.rows t' htt htf'] at hx ⊢
        exact ⟨t', hk, hx, .inl rfl, .inr rfl⟩
  have hkeep : ∀ {k' : Kind} {a : ℕ}, G.kind a = k' → k' ≠ .limbo →
      (G.setKind f (G.kind t)).kind a = k' := by
    intro k' a hk hl
    refine (setKind_of_ne ?_).trans hk
    rintro rfl
    exact hl (hk.symm.trans hf)
  refine ⟨{ chain := ?_, nodup := H.nodup, free_iff := fun n => ?_, range := fun n hn => ?_, pool_le := ?_,
            avail_le := ?_, limit_le := ?_, zero_lt := H.zero_lt, base_lt := H.base_lt, pde :=
              ?_, pte := ?_,
            zero_ro := ?_, base := fun i hi => ?_, balanced := ?_, loose := fun a ha => ?_,
            lone := fun t' j a hk hx ha => ?_, zero_bias := H.zero_bias, clean := fun n hn => ?_ }, hent⟩
  · rw [D.firstFree]
    refine H.chain.congr fun n hn => ?_
    have hk := (H.free_iff n).mp hn
    refine D.rows n ?_ ?_
    · rintro rfl
      rcases D.holder with h | h <;> simp [h] at hk
    · rintro rfl
      simp [hf] at hk
  · by_cases hnf : n = f
    · subst hnf
      rw [setKind_self]
      refine ⟨fun h => ?_, fun h => ?_⟩
      · have := (H.free_iff n).mp h
        simp [hf] at this
      · rcases D.holder with h' | h' <;> simp [h'] at h
    · rw [setKind_of_ne hnf]
      exact H.free_iff n
  · rw [D.avail]
    by_cases hnf : n = f
    · exact hnf ▸ hfr
    · rw [setKind_of_ne hnf] at hn
      exact H.range n hn
  · rw [D.avail]
    exact H.pool_le
  · rw [D.avail, D.limit]
    exact H.avail_le
  · rw [D.limit]
    exact H.limit_le
  · intro d i x hd hi hx
    obtain ⟨d', hd', he⟩ := hdir hd hi
    rw [he] at hx
    exact hkeep (H.pde hd' hi hx) (by simp)
  · intro t' j x hk hx
    obtain ⟨t₀, hk₀, hx₀, -, -⟩ := htab hk hx
    exact (H.pte hk₀ hx₀).imp id fun h => hkeep h (by simp)
  · intro t' j hk hx
    obtain ⟨t₀, hk₀, hx₀, -, h | h⟩ := htab hk hx
    · exact h
    · rw [h]
      exact H.zero_ro hk₀ hx₀
  · have h1 : c.baseDirectory ≠ t := by
      rintro h
      rcases D.holder with h' | h' <;> rw [← h, H.kind_base] at h' <;> cases h'
    rw [D.rows _ h1 (by omega)]
    exact H.base i hi
  · rw [show s'.refCounts = fun a => s.refCounts a + gain (slot G.kind s.mem t) a from funext D.counts]
    exact hbal
  · have h0 := D.hits_eq_zero (a := a) fun i hi h => by
      have := hneg i a hi h
      exact absurd ha (not_lt.mpr this)
    rw [hent, h0.1, h0.2, Nat.add_zero]
    exact H.loose a ha
  · obtain ⟨t₀, hk₀, hx₀, ht₀, -⟩ := htab hk hx
    -- a table that is doubled has no such entry
    have h1 : t₀ = t' := by
      refine ht₀.resolve_right fun h => ?_
      subst h
      exact absurd ha (not_lt.mpr (hneg j a (.inr hk₀) hx₀))
    subst h1
    have h0 := D.hits_eq_zero (a := t₀) fun i hi h =>
      absurd ha (not_lt.mpr (hdeep i t₀ j a hi h hk₀ hx₀))
    rw [hent, h0.1, h0.2, Nat.add_zero]
    exact H.lone t₀ j a hk₀ hx₀ ha
  · have hn' : G.kind n = .free ∨ G.kind n = .limbo ∨ G.kind n = .dir ∨ s.avail ≤ n := by
      by_cases hnf : n = f
      · exact .inr (.inl (hnf ▸ hf))
      · rwa [setKind_of_ne hnf, D.avail] at hn
    rw [D.count_eq fun i hi h => H.ne_target hi h hn' rfl]
    exact H.clean n hn'

/-- **One takes over from another** that nothing targets any more.  Its entries were counted once
more and are not given up, so the counts of what it targets are too large. -/
theorem Sound.relay (H : Sound c G s) (htf : t ≠ f) (hkt : G.kind t = .table) (ht0 : entries G s t = 0)
    (hkf : G.kind f = .table) (hempty : ∀ i, tgt (s.mem f i) = none) (hf1 : entries G s f ≤ 1) :
    Sound c ((G.setKind t .out).withBias fun a =>
      G.bias a + sharedHits (slot G.kind s.mem t) a + ownedHits (slot G.kind s.mem t) a) s' := by
  set G₁ := (G.setKind t .out).withBias fun a =>
    G.bias a + sharedHits (slot G.kind s.mem t) a + ownedHits (slot G.kind s.mem t) a with hG₁
  have hk₁ : ∀ {n}, n ≠ t → G₁.kind n = G.kind n := fun h => setKind_of_ne h
  have hkt₁ : G₁.kind t = .out := setKind_self G t .out
  have hsf : slot G₁.kind s'.mem f = demoteRow (slot G.kind s.mem t) :=
    D.slot_new ((hk₁ (Ne.symm htf)).trans (hkf.trans hkt.symm))
  have hrow : ∀ i, slot G.kind s.mem f i = none := fun i => by
    rw [slot_table hkf, entryRef_eq_none]
    exact hempty i
  have htm : t ∈ (holders G.kind).erase f := Finset.mem_erase.mpr ⟨htf, H.mem_holders.mpr (.inr hkt)⟩
  have hfm : f ∈ holders G.kind := H.mem_holders.mpr (.inr hkf)
  have hother : ∀ n ∈ (holders G.kind).erase f, n ≠ t →
      slot G₁.kind s'.mem n = slot G.kind s.mem n := fun n hn hnt =>
    slot_congr (hk₁ hnt) (D.rows n hnt (Finset.ne_of_mem_erase hn))
  have hhold : holders G₁.kind = insert f (((holders G.kind).erase f).erase t) := by
    have h1 : holders G₁.kind = (holders G.kind).erase t := by
      rw [show G₁.kind = update G.kind t .out from rfl, holders_update (H.lt_limit (by simp [hkt])),
        if_neg (by simp)]
    rw [h1, Finset.erase_right_comm, Finset.insert_erase (Finset.mem_erase.mpr ⟨Ne.symm htf, hfm⟩)]
  have hbal := (H.balanced.dropHolder hfm hrow).relay htm (by simp) hsf hother
  rw [← hhold] at hbal
  have hent : ∀ a, entries G₁ s' a = entries G s a := fun a => by
    have h1 := hbal.count_eq a
    have h2 := H.balanced.count_eq a
    have h3 : owned (holders G₁.kind) (slot G₁.kind s'.mem) a + ownedHits (slot G.kind s.mem t) a =
        owned (holders G.kind) (slot G.kind s.mem) a := by
      have e1 := owned_erase (slot G.kind s.mem) hfm a
      have e2 := owned_erase (slot G.kind s.mem) htm a
      rw [ownedHits_empty hrow] at e1
      rw [hhold, owned_insert (by simp), hsf, ownedHits_demoteRow, owned_congr fun n hn =>
        hother n (Finset.mem_of_mem_erase hn) (Finset.ne_of_mem_erase hn)]
      omega
    unfold gain at h1
    unfold entries total
    omega
  have htgt : ∀ {m i x}, Holds G m i → tgt (s.mem m i) = some x → x ≠ t := fun {m i x} hm hx h => by
    have := H.entries_pos hm hx
    rw [h, ht0] at this
    omega
  have hdir : ∀ {d}, G₁.kind d = .dir → G.kind d = .dir ∧ s'.mem d = s.mem d := by
    intro d hd
    have hdt : d ≠ t := by
      rintro rfl
      rw [hkt₁] at hd
      cases hd
    rw [hk₁ hdt] at hd
    refine ⟨hd, D.rows d hdt ?_⟩
    rintro rfl
    rw [hkf] at hd
    cases hd
  have htab : ∀ {t' j x}, G₁.kind t' = .table → tgt (s'.mem t' j) = some x →
      t' = f ∧ tgt (s.mem t j) = some x ∧ isRw (s'.mem t' j) = false ∨ G.kind t' = .table ∧
      s'.mem t' = s.mem t' := by
    intro t' j x hk hx
    have htt : t' ≠ t := by
      rintro rfl
      rw [hkt₁] at hk
      cases hk
    by_cases htf' : t' = f
    · subst htf'
      exact .inl ⟨rfl, by rw [← D.new_tgt (.inr hkt), hx], D.new_ro (.inr hkt) hx⟩
    · rw [hk₁ htt] at hk
      exact .inr ⟨hk, D.rows t' htt htf'⟩
  have hge : ∀ a, G.bias a ≤ G₁.bias a := fun a => by
    change G.bias a ≤ G.bias a + sharedHits (slot G.kind s.mem t) a + ownedHits (slot G.kind s.mem t) a
    omega
  refine { chain := ?_, nodup := H.nodup, free_iff := fun n => ?_, range := fun n hn => ?_, pool_le := ?_,
           avail_le := ?_, limit_le := ?_, zero_lt := H.zero_lt, base_lt := H.base_lt, pde := ?_, pte := ?_,
           zero_ro := ?_, base := fun i hi => ?_, balanced := ?_, loose := fun a ha => ?_,
           lone := fun t' j a hk hx ha => ?_, zero_bias := le_trans H.zero_bias (hge _),
             clean := fun n hn => ?_ }
  · rw [D.firstFree]
    refine H.chain.congr fun n hn => ?_
    have hk := (H.free_iff n).mp hn
    refine D.rows n ?_ ?_
    · rintro rfl
      simp [hkt] at hk
    · rintro rfl
      simp [hkf] at hk
  · by_cases hnt : n = t
    · subst hnt
      rw [hkt₁]
      refine ⟨fun h => ?_, fun h => by cases h⟩
      have := (H.free_iff n).mp h
      simp [hkt] at this
    · rw [hk₁ hnt]
      exact H.free_iff n
  · rw [D.avail]
    refine H.range n fun h => hn ?_
    rw [hk₁, h]
    rintro rfl
    simp [hkt] at h
  · rw [D.avail]
    exact H.pool_le
  · rw [D.avail, D.limit]
    exact H.avail_le
  · rw [D.limit]
    exact H.limit_le
  · intro d i x hd hi hx
    obtain ⟨hd', hr⟩ := hdir hd
    rw [hr] at hx
    rw [hk₁ (htgt (.inl ⟨hd', hi⟩) hx)]
    exact H.pde hd' hi hx
  · intro t' j x hk hx
    rcases htab hk hx with ⟨-, hx', -⟩ | ⟨hk', hr⟩
    · rw [hk₁ (htgt (.inr hkt) hx')]
      exact H.pte hkt hx'
    · rw [hr] at hx
      rw [hk₁ (htgt (.inr hk') hx)]
      exact H.pte hk' hx
  · intro t' j hk hx
    rcases htab hk hx with ⟨-, -, h⟩ | ⟨hk', hr⟩
    · exact h
    · rw [hr] at hx ⊢
      exact H.zero_ro hk' hx
  · have h1 : ∀ {n}, G.kind n = .table → c.baseDirectory ≠ n := fun hn h => by
      rw [← h, H.kind_base] at hn
      cases hn
    rw [D.rows _ (h1 hkt) (h1 hkf)]
    exact H.base i hi
  · rw [show s'.refCounts = fun a => s.refCounts a + gain (slot G.kind s.mem t) a from funext D.counts]
    exact hbal
  · rw [hent]
    exact H.loose a (lt_of_le_of_lt (hge a) ha)
  · rw [hent]
    rcases htab hk hx with ⟨h, -, -⟩ | ⟨hk', hr⟩
    · rw [h]
      exact hf1
    · rw [hr] at hx
      exact H.lone t' j a hk' hx (lt_of_le_of_lt (hge a) ha)
  · have hn' : G.kind n = .free ∨ G.kind n = .limbo ∨ G.kind n = .dir ∨ s.avail ≤ n := by
      rw [D.avail] at hn
      by_cases hnt : n = t
      · subst hnt
        have h1 := H.range n (by simp [hkt])
        rw [hkt₁] at hn
        simp at hn
        omega
      · rwa [hk₁ hnt] at hn
    rw [D.count_eq fun i hi h => H.ne_target hi h hn' rfl]
    exact H.clean n hn'

end Double

end GheithOS.Vmm
