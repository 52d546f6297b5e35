import GheithOS.Files.Directory

/-!
# GheithOS.Files.ScanBounds — `Node::find` on arbitrary data

`find` goes from record to record by the lengths that it reads from the disk.  For arbitrary blocks
its way is a sequence of places that the blocks alone determine (`place`): the next record is
`node_length` bytes further on, or at the start of the next block.  A place is left by going on, by
a match, or because the sum of the lengths has reached the size.

`find_returns_iff` says for which data the scan comes to an end with every access inside of the
buffer.  A record of length zero holds it for ever.
-/

namespace GheithOS.Files

open Lib Exec Syscall

variable {σ : Type}

/-- A record to be visited: its block, its position in the block, and the sum of the lengths before
it. -/
structure Place where
  block : ℕ
  offset : ℕ
  total : ℕ
  deriving DecidableEq

section Places

variable (blockSize : ℕ) (blocks : ℕ → List Byte)

/-- `node_length` of the record at a place. -/
def Place.length (x : Place) : ℕ := field (blocks x.block) (x.offset + 4) 2

/-- The place after this one. -/
def Place.next (x : Place) : Place :=
  let offset := u32 (x.offset + x.length blocks)
  let total := u32 (x.total + x.length blocks)
  if offset < blockSize then ⟨x.block, offset, total⟩ else ⟨u32 (x.block + 1), 0, total⟩

/-- The places of the scan. -/
def place : ℕ → Place
  | 0 => ⟨0, 0, 0⟩
  | k + 1 => (place k).next blockSize blocks

/-- The header of the record lies in the block. -/
def Place.HeaderInside (x : Place) : Prop := x.offset + FolderLLNode.size ≤ blockSize

/-- Every byte of the record's name that is compared lies in the block: the one at `j` is compared
if the lengths are equal and the bytes before it are. -/
def Place.NameInside (name : Option (List Byte)) (x : Place) : Prop :=
  ∀ n, name = some n → field (blocks x.block) x.offset 4 ≠ 0 →
    field (blocks x.block) (x.offset + 6) 2 = n.length →
    ∀ j < n.length, (∀ i < j, (blocks x.block)[x.offset + FolderLLNode.size + i]? = n[i]?) →
      x.offset + FolderLLNode.size + j < blockSize

/-- The record is the one that is looked for. -/
def Place.Matches (name : Option (List Byte)) (x : Place) : Prop :=
  ∃ node, visit (blocks x.block) name x.offset = some (node, true)

/-- The scan comes to the `k`-th place and looks at its record. -/
def Visited (size : ℕ) (name : Option (List Byte)) (k : ℕ) : Prop :=
  ∀ j ≤ k, (place blockSize blocks j).total < size ∧
    (j < k → ¬ (place blockSize blocks j).Matches blocks name)

end Places

/-! ### One record -/

theorem compareName_isSome_iff {buffer name : List Byte} {position : ℕ} :
    (compareName buffer position name).isSome = true ↔
      ∀ j < name.length, (∀ i < j, buffer[position + i]? = name[i]?) → position + j < buffer.length := by
  induction name generalizing position with
  | nil => simp [compareName]
  | cons c name ih =>
    unfold compareName
    by_cases hlt : position < buffer.length
    · rw [List.getElem?_eq_getElem hlt]
      dsimp only
      split_ifs with hc
      · rw [ih]
        constructor
        · intro h j hj hsame
          cases j with
          | zero => exact hlt
          | succ j =>
            rw [List.length_cons] at hj
            have hnext := h j (by omega) fun i hi => by
              have := hsame (i + 1) (by omega)
              rwa [List.getElem?_cons_succ, ← Nat.add_assoc, Nat.add_right_comm] at this
            omega
        · intro h j hj hsame
          have hnext := h (j + 1) (by rw [List.length_cons]; omega) fun i hi => by
            cases i with
            | zero => rw [Nat.add_zero, List.getElem?_eq_getElem hlt, hc, List.getElem?_cons_zero]
            | succ i =>
              rw [List.getElem?_cons_succ, ← hsame i (by omega)]
              congr 1
              omega
          omega
      · refine iff_of_true rfl fun j hj hsame => ?_
        cases j with
        | zero => exact hlt
        | succ j =>
          have h0 := hsame 0 (by omega)
          rw [Nat.add_zero, List.getElem?_eq_getElem hlt, List.getElem?_cons_zero] at h0
          exact absurd (Option.some.inj h0) hc
    · rw [List.getElem?_eq_none (by omega)]
      refine iff_of_false (by simp) fun h => hlt ?_
      simpa using h 0 (by simp) (by simp)

section Record

variable {blockSize : ℕ} {blocks : ℕ → List Byte} {name : Option (List Byte)} {x : Place}

theorem visit_isSome_iff (hlength : ∀ i, (blocks i).length = blockSize) :
    (visit (blocks x.block) name x.offset).isSome = true ↔ x.HeaderInside blockSize ∧
    x.NameInside blockSize blocks name := by
  unfold visit getHeader Place.HeaderInside Place.NameInside
  rw [hlength]
  by_cases hheader : x.offset + FolderLLNode.size ≤ blockSize
  · rw [if_pos hheader, and_iff_right hheader]
    cases name with
    | none => simp
    | some n =>
      dsimp only
      split_ifs with hc
      · rw [Option.isSome_map, compareName_isSome_iff, hlength]
        constructor
        · rintro h _ ⟨⟩ - -
          exact h
        · exact fun h => h n rfl hc.1 hc.2
      · refine iff_of_true rfl ?_
        rintro _ ⟨⟩ h0 hlen
        exact absurd ⟨h0, hlen⟩ hc
  · rw [if_neg hheader]
    exact iff_of_false (by simp) fun h => hheader h.1

theorem next_total : (x.next blockSize blocks).total = u32 (x.total + x.length blocks) := by
  unfold Place.next
  dsimp only
  split_ifs <;> rfl

theorem next_same (h : u32 (x.offset + x.length blocks) < blockSize) :
    x.next blockSize blocks = ⟨x.block, u32 (x.offset + x.length blocks),
      u32 (x.total + x.length blocks)⟩ := if_pos h

theorem next_other (h : ¬ u32 (x.offset + x.length blocks) < blockSize) :
    x.next blockSize blocks = ⟨u32 (x.block + 1), 0, u32 (x.total + x.length blocks)⟩ := if_neg h

theorem visit_nodeLength {node : FolderLLNode} {isSame : Bool}
    (h : visit (blocks x.block) name x.offset = some (node, isSame)) :
    node.nodeLength = x.length blocks := by
  have hheader : getHeader (blocks x.block) x.offset = some node := by
    unfold visit at h
    cases hg : getHeader (blocks x.block) x.offset with
    | none =>
      rw [hg] at h
      cases h
    | some node' =>
      rw [hg] at h
      cases name with
      | none =>
        cases h
        rfl
      | some n =>
        dsimp only at h
        split_ifs at h
        · obtain ⟨_, -, heq⟩ := Option.map_eq_some_iff.mp h
          cases heq
          rfl
        · cases h
          rfl
  unfold getHeader at hheader
  split_ifs at hheader
  cases hheader
  rfl

end Record

/-! ### The places of a scan -/

/-- Every block is delivered as it is, whatever was read before. -/
def Delivers (io : BlockIO σ) (I : σ → Prop) (blocks : ℕ → List Byte) : Prop :=
  ∀ i s, I s → ∃ s', io.readBlock i s = .ok (blocks i, s') ∧ I s'

section Way

variable {io : BlockIO σ} {I : σ → Prop} {blocks : ℕ → List Byte} {name : Option (List Byte)} {s : σ}

variable {i processed : ℕ}

theorem scan_stop {buffer : List Byte} {position entries rounds : ℕ}
    (h : ¬(position < io.blockSize ∧ processed < io.sizeInBytes)) :
    scan io name (rounds + 1) (.record i buffer position) processed entries =
      scan io name rounds (.block (u32 (i + 1))) processed entries := by
  rw [scan, if_neg h]

theorem scan_over {entries rounds : ℕ} (h : io.sizeInBytes ≤ processed) :
    scan io name (rounds + 1) (.block i) processed entries s = .ok (some (.finished entries), s) := by
  rw [scan, if_neg (Nat.not_lt.mpr h)]
  rfl

theorem scan_load {buffer : List Byte} {entries rounds : ℕ} {s₁ : σ}
    (h : processed < io.sizeInBytes) (hread : io.readBlock i s = .ok (buffer, s₁)) :
    scan io name (rounds + 1) (.block i) processed entries s =
      scan io name rounds (.record i buffer 0) processed entries s₁ := by
  have hlift : lift (io.readBlock i) s = .ok (buffer, s₁) := by
    unfold lift
    rw [hread]
    rfl
  rw [scan, if_pos h, bind_of_eq hlift]

/-- The machine at a place. -/
def scanFrom (io : BlockIO σ) (blocks : ℕ → List Byte) (name : Option (List Byte)) (rounds : ℕ)
    (x : Place) (entries : ℕ) : Prog Fault σ (Option Scanned) :=
  scan io name rounds (.record x.block (blocks x.block) x.offset) x.total entries

variable {x : Place}

/-- **From a place to the next one.**  After a record that is not the one looked for, the scan has
reached the size, or it comes to the next place within three rounds. -/
theorem scanFrom_next (hD : Delivers io I blocks) (hI : I s) {node : FolderLLNode}
    (hx : x.offset < io.blockSize) (ht : x.total < io.sizeInBytes)
    (hv : visit (blocks x.block) name x.offset = some (node, false)) (entries : ℕ) :
    ∃ entries', (io.sizeInBytes ≤ (x.next io.blockSize blocks).total →
        scanFrom io blocks name 3 x entries s = .ok (some (.finished entries'), s)) ∧
      ((x.next io.blockSize blocks).total < io.sizeInBytes → ∃ s₁ c, I s₁ ∧ c ≤ 2 ∧
        ∀ rounds, scanFrom io blocks name (rounds + c + 1) x entries s =
          scanFrom io blocks name rounds (x.next io.blockSize blocks) entries' s₁) := by
  have hlen := visit_nodeLength hv
  set entries' := if node.inode = 0 then entries else u32 (entries + 1) with hentries
  have hvisit : ∀ rounds, scanFrom io blocks name (rounds + 1) x entries =
      scan io name rounds (.record x.block (blocks x.block) (u32 (x.offset + x.length blocks)))
        (u32 (x.total + x.length blocks)) entries' := by
    intro rounds
    unfold scanFrom
    rw [scan, if_pos ⟨hx, ht⟩, hv]
    dsimp only
    rw [hlen]
  refine ⟨entries', ?_, ?_⟩
  · intro hover
    rw [next_total] at hover
    rw [hvisit 2, scan_stop (by omega), scan_over hover]
  · intro hmore
    rw [next_total] at hmore
    by_cases ho : u32 (x.offset + x.length blocks) < io.blockSize
    · refine ⟨s, 0, hI, by omega, fun rounds => ?_⟩
      rw [next_same ho, Nat.add_zero, hvisit]
      rfl
    · obtain ⟨s₁, hread, hI₁⟩ := hD (u32 (x.block + 1)) s hI
      refine ⟨s₁, 2, hI₁, by omega, fun rounds => ?_⟩
      rw [next_other ho, hvisit, scan_stop (by omega), scan_load hmore hread]
      rfl

variable {r : Scanned} {s' : σ}

theorem scan_mono {rounds : ℕ} {point : Point} {entries : ℕ}
    (h : scan io name rounds point processed entries s = .ok (some r, s')) (d : ℕ) :
    scan io name (rounds + d) point processed entries s = .ok (some r, s') := by
  induction rounds generalizing point processed entries s with
  | zero => cases h
  | succ rounds ih =>
    rw [Nat.add_right_comm]
    cases point with
    | block i =>
      rw [scan] at h ⊢
      split_ifs at h ⊢
      · cases hread : lift (io.readBlock i) s with
        | error e =>
          rw [bind_of_error hread] at h
          cases h
        | ok p =>
          rw [bind_of_eq hread] at h ⊢
          exact ih h
      · exact h
    | record i buffer position =>
      rw [scan] at h ⊢
      split_ifs at h ⊢
      · cases hv : visit buffer name position with
        | none =>
          rw [hv] at h
          cases h
        | some v =>
          rw [hv] at h
          obtain ⟨node, isSame⟩ := v
          cases isSame with
          | true => exact h
          | false => exact ih h
      · exact ih h

theorem place_offset_lt (io : BlockIO σ) (blocks : ℕ → List Byte) (k : ℕ) :
    (place io.blockSize blocks k).offset < io.blockSize := by
  have hpos := io.blockSize_pos
  cases k with
  | zero => exact hpos
  | succ k =>
    unfold place
    by_cases ho : u32 ((place io.blockSize blocks k).offset +
        (place io.blockSize blocks k).length blocks) < io.blockSize
    · rw [next_same ho]
      exact ho
    · rw [next_other ho]
      exact hpos

variable (io blocks name) in
/-- From the `k`-th place the scan comes to the `m`-th one, with every access inside, and ends
there. -/
structure EndsAt (k m : ℕ) : Prop where
  le : k ≤ m
  before : ∀ j, k ≤ j → j < m → (visit (blocks (place io.blockSize blocks j).block) name
      (place io.blockSize blocks j).offset).isSome = true ∧
    (place io.blockSize blocks j).total < io.sizeInBytes ∧
    ¬ (place io.blockSize blocks j).Matches blocks name
  last : io.sizeInBytes ≤ (place io.blockSize blocks m).total ∨
      (place io.blockSize blocks m).Matches blocks name

theorem visit_of_not_matches (h : (visit (blocks x.block) name x.offset).isSome = true)
    (hm : ¬ x.Matches blocks name) :
    ∃ node, visit (blocks x.block) name x.offset = some (node, false) := by
  obtain ⟨⟨node, isSame⟩, hv⟩ := Option.isSome_iff_exists.mp h
  cases isSame with
  | false => exact ⟨node, hv⟩
  | true => exact absurd ⟨node, hv⟩ hm

variable {k : ℕ}

/-- **A scan that returns** ends at a place. -/
theorem endsAt_of_scanFrom (hD : Delivers io I blocks) {rounds entries : ℕ} (hI : I s)
    (h : scanFrom io blocks name rounds (place io.blockSize blocks k) entries s = .ok (some r, s')) :
    ∃ m, EndsAt io blocks name k m := by
  induction rounds using Nat.strongRecOn generalizing k entries s with
  | ind rounds ih =>
    by_cases ht : (place io.blockSize blocks k).total < io.sizeInBytes
    swap
    · exact ⟨k, Nat.le_refl k, fun j h1 h2 => by omega, .inl (Nat.le_of_not_lt ht)⟩
    have hx := place_offset_lt io blocks k
    cases hv : visit (blocks (place io.blockSize blocks k).block) name
        (place io.blockSize blocks k).offset with
    | none =>
      exfalso
      cases rounds with
      | zero => cases h
      | succ rounds =>
        unfold scanFrom at h
        rw [scan, if_pos ⟨hx, ht⟩, hv] at h
        cases h
    | some v =>
      obtain ⟨node, isSame⟩ := v
      cases isSame with
      | true => exact ⟨k, Nat.le_refl k, fun j h1 h2 => by omega, .inr ⟨node, hv⟩⟩
      | false =>
        -- the way goes on from the next place
        have hhere : (visit (blocks (place io.blockSize blocks k).block) name
            (place io.blockSize blocks k).offset).isSome = true ∧
            (place io.blockSize blocks k).total < io.sizeInBytes ∧
            ¬ (place io.blockSize blocks k).Matches blocks name := by
          refine ⟨by rw [hv]; rfl, ht, ?_⟩
          rintro ⟨node', hv'⟩
          rw [hv] at hv'
          cases hv'
        have hgo : (∃ m, EndsAt io blocks name (k + 1) m) → ∃ m, EndsAt io blocks name k m := by
          rintro ⟨m, hm⟩
          refine ⟨m, Nat.le_of_succ_le hm.le, fun j h1 h2 => ?_, hm.last⟩
          rcases h1.eq_or_lt with rfl | hlt
          · exact hhere
          · exact hm.before j hlt h2
        obtain ⟨entries', hover, hmore⟩ := scanFrom_next hD hI hx ht hv entries
        refine hgo ?_
        by_cases ht' : (place io.blockSize blocks (k + 1)).total < io.sizeInBytes
        swap
        · exact ⟨k + 1, Nat.le_refl _, fun j h1 h2 => by omega, .inl (Nat.le_of_not_lt ht')⟩
        obtain ⟨s₁, c, hI₁, -, hnext⟩ := hmore ht'
        by_cases hc : rounds ≤ c
        · have hfew := scan_mono h (c + 1 - rounds)
          rw [show rounds + (c + 1 - rounds) = 0 + c + 1 by omega] at hfew
          cases (hnext 0).symm.trans hfew
        · obtain ⟨rest, rfl⟩ := Nat.exists_eq_add_of_lt (Nat.lt_of_not_le hc)
          rw [show c + rest + 1 = rest + c + 1 by omega, hnext] at h
          exact ih rest (by omega) hI₁ h

/-- **A scan that ends at a place** returns. -/
theorem scanFrom_of_endsAt (hD : Delivers io I blocks) {m : ℕ} (h : EndsAt io blocks name k m)
    (hI : I s) (entries : ℕ) :
    ∃ rounds r s', scanFrom io blocks name rounds (place io.blockSize blocks k) entries s =
      .ok (some r, s') := by
  obtain ⟨d, rfl⟩ := Nat.exists_eq_add_of_le h.le
  induction d generalizing k entries s with
  | zero =>
    rw [Nat.add_zero] at h
    by_cases ht : (place io.blockSize blocks k).total < io.sizeInBytes
    · obtain ⟨node, hv⟩ := h.last.resolve_left (Nat.not_le.mpr ht)
      refine ⟨1, .found node.inode, s, ?_⟩
      unfold scanFrom
      rw [scan, if_pos ⟨place_offset_lt io blocks k, ht⟩, hv]
      rfl
    · refine ⟨2, .finished entries, s, ?_⟩
      unfold scanFrom
      rw [scan_stop (by omega), scan_over (Nat.le_of_not_lt ht)]
  | succ d ih =>
    obtain ⟨hsome, ht, hm⟩ := h.before k (Nat.le_refl k) (by omega)
    obtain ⟨node, hv⟩ := visit_of_not_matches hsome hm
    obtain ⟨entries', hover, hmore⟩ := scanFrom_next hD hI (place_offset_lt io blocks k) ht hv entries
    by_cases ht' : (place io.blockSize blocks (k + 1)).total < io.sizeInBytes
    · obtain ⟨s₁, c, hI₁, -, hnext⟩ := hmore ht'
      have hrest : EndsAt io blocks name (k + 1) (k + 1 + d) := by
        rw [show k + 1 + d = k + (d + 1) by omega]
        exact ⟨by omega, fun j h1 h2 => h.before j (by omega) h2, h.last⟩
      obtain ⟨rounds, r, s', hr⟩ := ih hI₁ entries' hrest
      exact ⟨rounds + c + 1, r, s', (hnext rounds).trans hr⟩
    · exact ⟨3, _, s, hover (Nat.le_of_not_lt ht')⟩

theorem scan_stuck {buffer : List Byte} {node : FolderLLNode} {position : ℕ}
    (hv : visit buffer name position = some (node, false)) (h0 : node.nodeLength = 0)
    (hp : position < io.blockSize) (hp' : position < 2 ^ 32) (ht : processed < io.sizeInBytes)
    (rounds entries : ℕ) :
    scan io name rounds (.record i buffer position) processed entries s = .ok (none, s) := by
  have hsize := io.size_lt
  induction rounds generalizing entries with
  | zero => rfl
  | succ rounds ih =>
    rw [scan, if_pos ⟨hp, ht⟩, hv]
    dsimp only
    rw [h0, Nat.add_zero, Nat.add_zero, u32_of_lt hp', u32_of_lt (by omega), ih]

/-! ### When a scan ends -/

theorem u32_lt (n : ℕ) : u32 n < 2 ^ 32 := Nat.mod_lt _ (by decide)

theorem place_lt (io : BlockIO σ) (blocks : ℕ → List Byte) (k : ℕ) :
    (place io.blockSize blocks k).offset < 2 ^ 32 ∧ (place io.blockSize blocks k).total < 2 ^ 32 := by
  cases k with
  | zero => exact ⟨Nat.two_pow_pos 32, Nat.two_pow_pos 32⟩
  | succ k =>
    unfold place Place.next
    dsimp only
    split_ifs
    · exact ⟨u32_lt _, u32_lt _⟩
    · exact ⟨Nat.two_pow_pos 32, u32_lt _⟩

theorem place_stuck (h0 : (place io.blockSize blocks k).length blocks = 0) (j : ℕ) :
    place io.blockSize blocks (k + j) = place io.blockSize blocks k := by
  induction j with
  | zero => rfl
  | succ j ih =>
    obtain ⟨ho, ht⟩ := place_lt io blocks k
    have hnext : (place io.blockSize blocks k).next io.blockSize blocks = place io.blockSize blocks k := by
      have hsame : u32 ((place io.blockSize blocks k).offset +
          (place io.blockSize blocks k).length blocks) =
          (place io.blockSize blocks k).offset := by rw [h0, Nat.add_zero, u32_of_lt ho]
      rw [next_same (by rw [hsame]; exact place_offset_lt io blocks k), hsame, h0, Nat.add_zero,
        u32_of_lt ht]
    change (place io.blockSize blocks (k + j)).next io.blockSize blocks = _
    rw [ih, hnext]

theorem length_le (blocks : ℕ → List Byte) (x : Place) : x.length blocks ≤ 65535 := by
  have hlen : (((blocks x.block).drop (x.offset + 4)).take 2).length ≤ 2 := List.length_take_le _ _
  have h := littleEndian_lt (((blocks x.block).drop (x.offset + 4)).take 2)
  have hpow : 256 ^ (((blocks x.block).drop (x.offset + 4)).take 2).length ≤ 256 ^ 2 :=
    Nat.pow_le_pow_right (by decide) hlen
  unfold Place.length field
  omega

theorem le_total (hsize : io.sizeInBytes + 65535 < 2 ^ 32)
    (h : ∀ k, (place io.blockSize blocks k).total < io.sizeInBytes ∧
      (place io.blockSize blocks k).length blocks ≠ 0)
    (k : ℕ) : k ≤ (place io.blockSize blocks k).total := by
  induction k with
  | zero => exact Nat.zero_le _
  | succ k ih =>
    obtain ⟨ht, hne⟩ := h k
    have hlen := length_le blocks (place io.blockSize blocks k)
    change _ ≤ ((place io.blockSize blocks k).next io.blockSize blocks).total
    rw [next_total, u32_of_lt (by omega)]
    omega

/-- **The ends of a scan**, in terms of the records. -/
theorem exists_endsAt_iff (hlength : ∀ i, (blocks i).length = io.blockSize) :
    (∃ m, EndsAt io blocks name 0 m) ↔
      (∀ k, Visited io.blockSize blocks io.sizeInBytes name k →
        (place io.blockSize blocks k).HeaderInside io.blockSize ∧
        (place io.blockSize blocks k).NameInside io.blockSize blocks name ∧
        ((place io.blockSize blocks k).Matches blocks name ∨
          (place io.blockSize blocks k).length blocks ≠ 0)) ∧
      (io.sizeInBytes + 65535 < 2 ^ 32 ∨ ∃ k, io.sizeInBytes ≤ (place io.blockSize blocks k).total ∨
        (place io.blockSize blocks k).Matches blocks name) := by
  constructor
  · rintro ⟨m, hm⟩
    refine ⟨fun k hk => ?_, .inr ⟨m, hm.last⟩⟩
    rcases Nat.lt_trichotomy k m with hlt | rfl | hgt
    · obtain ⟨hsome, ht, hno⟩ := hm.before k (Nat.zero_le k) hlt
      obtain ⟨hheader, hname⟩ := (visit_isSome_iff hlength).mp hsome
      refine ⟨hheader, hname, .inr fun h0 => ?_⟩
      -- a record of length zero would also be the last place
      have hstuck := place_stuck h0 (m - k)
      rw [Nat.add_sub_cancel' (Nat.le_of_lt hlt)] at hstuck
      have hlast := hm.last
      rw [hstuck] at hlast
      exact hlast.elim (Nat.not_le.mpr ht) hno
    · have hmatch := hm.last.resolve_left (Nat.not_le.mpr (hk k (Nat.le_refl k)).1)
      obtain ⟨node, hv⟩ := hmatch
      obtain ⟨hheader, hname⟩ := (visit_isSome_iff hlength).mp (by rw [hv]; rfl)
      exact ⟨hheader, hname, .inl ⟨node, hv⟩⟩
    · obtain ⟨ht, hno⟩ := hk m (Nat.le_of_lt hgt)
      exact absurd hm.last (not_or.mpr ⟨Nat.not_le.mpr ht, hno hgt⟩)
  · rintro ⟨hgood, hend⟩
    by_cases hex : ∃ k, io.sizeInBytes ≤ (place io.blockSize blocks k).total ∨
        (place io.blockSize blocks k).Matches blocks name
    · classical
      -- the first of these places is where the scan ends
      refine ⟨Nat.find hex, Nat.zero_le _, fun j _ hj => ?_, Nat.find_spec hex⟩
      have hbefore : ∀ i, i < Nat.find hex → (place io.blockSize blocks i).total < io.sizeInBytes ∧
          ¬ (place io.blockSize blocks i).Matches blocks name := fun i hi => by
        obtain ⟨ht, hno⟩ := not_or.mp (Nat.find_min hex hi)
        exact ⟨Nat.lt_of_not_le ht, hno⟩
      obtain ⟨hheader, hname, -⟩ := hgood j fun i hi =>
        ⟨(hbefore i (by omega)).1, fun _ => (hbefore i (by omega)).2⟩
      exact ⟨(visit_isSome_iff hlength).mpr ⟨hheader, hname⟩, hbefore j hj⟩
    · have hnever : ∀ k, (place io.blockSize blocks k).total < io.sizeInBytes ∧
          ¬ (place io.blockSize blocks k).Matches blocks name := fun k => by
        obtain ⟨ht, hno⟩ := not_or.mp (not_exists.mp hex k)
        exact ⟨Nat.lt_of_not_le ht, hno⟩
      have hall : ∀ k, (place io.blockSize blocks k).length blocks ≠ 0 := fun k =>
        ((hgood k fun j _ => ⟨(hnever j).1, fun _ => (hnever j).2⟩).2.2).resolve_left (hnever k).2
      have hle := le_total (hend.resolve_right hex) (fun k => ⟨(hnever k).1, hall k⟩) io.sizeInBytes
      exact absurd (hnever io.sizeInBytes).1 (Nat.not_lt.mpr hle)

theorem scan_returns_iff (hD : Delivers io I blocks) (hI : I s) :
    (∃ rounds r s', scan io name rounds (.block 0) 0 0 s = .ok (some r, s')) ↔
      ∃ m, EndsAt io blocks name 0 m := by
  by_cases hsize : 0 < io.sizeInBytes
  · obtain ⟨s₁, hread, hI₁⟩ := hD 0 s hI
    have hload : ∀ rounds, scan io name (rounds + 1) (.block 0) 0 0 s =
        scanFrom io blocks name rounds (place io.blockSize blocks 0) 0 s₁ := fun _ => scan_load hsize hread
    constructor
    · rintro ⟨rounds, r, s', h⟩
      cases rounds with
      | zero => cases h
      | succ rounds =>
        rw [hload] at h
        exact endsAt_of_scanFrom hD hI₁ h
    · rintro ⟨m, hm⟩
      obtain ⟨rounds, r, s', h⟩ := scanFrom_of_endsAt hD hm hI₁ 0
      exact ⟨rounds + 1, r, s', (hload rounds).trans h⟩
  · have h0 : io.sizeInBytes ≤ 0 := Nat.le_of_not_lt hsize
    exact iff_of_true ⟨1, _, s, scan_over h0⟩ ⟨0, Nat.le_refl 0,
      fun j _ h => absurd h (Nat.not_lt_zero j), .inl h0⟩

theorem find_returns_iff_scan {dir : FsNode σ} (hdir : dir.isDir = true) (saved : ℕ) :
    (∃ rounds r s', find rounds dir name saved s = .ok (some r, s')) ↔
      ∃ rounds r s', scan dir.io name rounds (.block 0) 0 0 s = .ok (some r, s') := by
  have hassert : lift (assert (dir.isDir = true)) s = .ok ((), s) := by
    unfold lift assert
    rw [if_pos hdir]
    rfl
  refine exists_congr fun rounds => ?_
  unfold find
  rw [bind_of_eq hassert]
  cases hscan : scan dir.io name rounds (.block 0) 0 0 s with
  | error e =>
    rw [bind_of_error hscan]
    simp
  | ok p =>
    obtain ⟨r, s'⟩ := p
    rw [bind_of_eq hscan]
    cases r with
    | none => exact iff_of_false (fun ⟨_, _, h⟩ => by cases h) fun ⟨_, _, h⟩ => by cases h
    | some r =>
      cases r with
      | found inode => exact iff_of_true ⟨_, _, rfl⟩ ⟨_, _, rfl⟩
      | finished entries => exact iff_of_true ⟨_, _, rfl⟩ ⟨_, _, rfl⟩

end Way

/-- **`find` on arbitrary data.**  For every size, every content of the blocks and every name or
null, `find` comes to an end with every header and every compared byte inside of the block if and
only if this is so for each record that it visits, none of them has length zero (unless it is the
one looked for), and, should the sum of the lengths be able to wrap, it reaches the size or a
match. -/
theorem find_returns_iff {dir : FsNode σ} {I : σ → Prop} {blocks : ℕ → List Byte} (hdir : dir.isDir = true)
    (hD : Delivers dir.io I blocks) (hlength : ∀ i, (blocks i).length = dir.io.blockSize)
    (name : Option (List Byte)) (saved : ℕ) {s : σ} (hI : I s) :
    (∃ rounds r s', find rounds dir name saved s = .ok (some r, s')) ↔
      (∀ k, Visited dir.io.blockSize blocks dir.io.sizeInBytes name k →
        (place dir.io.blockSize blocks k).HeaderInside dir.io.blockSize ∧
        (place dir.io.blockSize blocks k).NameInside dir.io.blockSize blocks name ∧
        ((place dir.io.blockSize blocks k).Matches blocks name ∨
          (place dir.io.blockSize blocks k).length blocks ≠ 0)) ∧
      (dir.io.sizeInBytes + 65535 < 2 ^ 32 ∨
        ∃ k, dir.io.sizeInBytes ≤ (place dir.io.blockSize blocks k).total ∨
        (place dir.io.blockSize blocks k).Matches blocks name) := by
  rw [find_returns_iff_scan hdir saved, scan_returns_iff hD hI, exists_endsAt_iff hlength]

/-- The records of the small directory are visited to the end. -/
theorem find_returns_small :
    ∃ rounds r s', find rounds smallDirectory none noCount () = .ok (some r, s') := by
  have hD : Delivers smallDirectory.io (fun _ => True) fun i => window smallContent (i * 1024) 1024 :=
    fun _ _ _ => ⟨(), rfl, trivial⟩
  refine (find_returns_iff rfl hD (fun _ => length_window _ _ _) none noCount trivial).mpr
    ⟨fun k hk => ?_, .inl (by decide)⟩
  have hlt : k < 2 := by
    by_contra hge
    exact absurd (hk 2 (Nat.le_of_not_lt hge)).1 (by decide)
  refine ⟨?_, (fun n hn => by cases hn), .inr ?_⟩
  · interval_cases k
    · exact (by decide : 0 + 8 ≤ 1024)
    · exact (by decide : 16 + 8 ≤ 1024)
  · interval_cases k
    · exact (by decide : 16 ≠ 0)
    · exact (by decide : 1008 ≠ 0)

/-- A directory of one block. -/
def oneBlock (bytes : List Byte) : FsNode Unit :=
  ⟨2, 0x4, [], ramFile (fun a => bytes.getD a 0#8) 1024 smallDirectory.io.size_lt⟩

theorem scan_oneBlock (bytes : List Byte) (rounds : ℕ) :
    scan (oneBlock bytes).io (some [97#8]) (rounds + 1) (.block 0) 0 0 () =
    scan (oneBlock bytes).io (some [97#8]) rounds
      (.record 0 (window (fun a => bytes.getD a 0#8) 0 1024) 0) 0 0 () :=
  scan_load (show 0 < 1024 by decide) rfl

/-- A record of 1020 bytes, whose name is `b`. -/
def longRecord : List Byte := [12#8, 0#8, 0#8, 0#8, 252#8, 3#8, 1#8, 0#8, 98#8]

theorem scan_longRecord :
    scan (oneBlock longRecord).io (some [97#8]) 4 (.block 0) 0 0 () = .error .outside := by
  have hfirst : visit (window (fun a => longRecord.getD a 0#8) 0 1024) (some [97#8]) 0 =
      some (⟨12, 1020, 1⟩, false) := by
    decide +kernel
  have hsecond : visit (window (fun a => longRecord.getD a 0#8) 0 1024) (some [97#8]) 1020 = none := by
    unfold visit getHeader
    rw [length_window]
    rfl
  rw [scan_oneBlock, scan, if_pos (by decide), hfirst]
  dsimp only
  rw [scan, if_pos (by decide), show u32 (0 + 1020) = 1020 from rfl, hsecond]
  rfl

/-- In a block of zeros the scan never ends; the long record puts the next header across the end of
the buffer. -/
theorem find_stuck_or_outside :
    (∀ rounds r s', find rounds (oneBlock []) (some [97#8]) noCount () ≠ .ok (some r, s')) ∧
      find 4 (oneBlock longRecord) (some [97#8]) noCount () = .error .outside := by
  refine ⟨fun rounds r s' h => ?_, ?_⟩
  swap
  · unfold find
    rw [bind_of_eq (show lift (assert ((oneBlock longRecord).isDir = true)) () = .ok ((), ()) from rfl)]
    exact bind_of_error scan_longRecord
  obtain ⟨rounds', r', s'', hscan⟩ := (find_returns_iff_scan rfl noCount).mp ⟨rounds, r, s', h⟩
  cases rounds' with
  | zero => cases hscan
  | succ rounds' =>
    have hvisit : visit (window (fun a => [].getD a 0#8) 0 1024) (some [97#8]) 0 =
        some (⟨0, 0, 0⟩, false) := by
      decide +kernel
    rw [scan_oneBlock, scan_stuck hvisit rfl (by decide) (by decide) (by decide)] at hscan
    cases hscan

end GheithOS.Files
