import Mathlib.Data.Set.BooleanAlgebra
import Mathlib.Order.CompletePartialOrder
import GheithOS.Files.Cursor

/-!
# GheithOS.Files.SharedOffset — readers of one descriptor

Processes that share a descriptor of type `File` (after `fork` or `dup`) share its offset.  A read
loads the offset, cuts its size at the end of the file and claims the range by a
compare-and-exchange; if the offset has changed it starts again with the size it was asked for.
Loads and exchanges of different readers come in any order.

The ranges are claimed one behind the other (`Chained`): each begins where the offset was, and the
offset is the end of the newest.  Hence `shared_offset`: they are disjoint and cover what lies
between the first offset and the present one.  At the end of the file a range is empty and the
exchange leaves the offset as it is.  One reader alone does what `read` does (`read_eq_alone`).
-/

namespace GheithOS.Files.SharedOffset

open Lib Files Function

/-- Where a reader is in `FileDescriptor::read`. -/
inductive Reader where
  | idle
  | load (size : Word)
  | exchange (size loadedOffset : Word)

/-- What a completed read has claimed: its position and its size. -/
structure Range where
  position : Word
  size : Word
  deriving DecidableEq

/-- The offset of the descriptor, its readers, and what they have claimed, the newest first. -/
structure State (κ : Type) where
  offset : Word
  reader : κ → Reader
  claimed : List Range

/-- A process calls `read`, or its call takes the next step. -/
inductive Turn (κ : Type) where
  | call (k : κ) (size : Word)
  | step (k : κ)

variable {κ : Type} [DecidableEq κ]

def updatedSize (fileSize size loadedOffset : Word) : Word :=
  kMin (loadedOffset + size) fileSize - loadedOffset

/-- What a read that has exchanged the offset returns and reads: the size is computed once more. -/
def claim (fileSize size loadedOffset : Word) : Range :=
  let position := loadedOffset
  let size := updatedSize fileSize size loadedOffset
  ⟨position, kMin (position + size) fileSize - position⟩

def State.turn (fileSize : Word) (s : State κ) : Turn κ → State κ
  | .call k size =>
    match s.reader k with
    | .idle => { s with reader := update s.reader k (.load size) }
    | _ => s
  | .step k =>
    match s.reader k with
    | .idle => s
    | .load size => { s with reader := update s.reader k (.exchange size s.offset) }
    | .exchange size loadedOffset =>
      if s.offset = loadedOffset then
        ⟨loadedOffset + updatedSize fileSize size loadedOffset, update s.reader k .idle,
          claim fileSize size loadedOffset :: s.claimed⟩
      else { s with reader := update s.reader k (.load size) }

/-- A load after which the sum of the offset and the size does not wrap. -/
def State.Fits (s : State κ) : Turn κ → Prop
  | .call _ _ => True
  | .step k =>
    match s.reader k with
    | .load size => s.offset.toNat + size.toNat < 2 ^ 32
    | _ => True

/-- The states that the readers reach from the given offset. -/
inductive Reach (fileSize initial : Word) : State κ → Prop
  | start : Reach fileSize initial ⟨initial, fun _ => .idle, []⟩
  | turn {s : State κ} {t : Turn κ} : Reach fileSize initial s → s.Fits t →
      Reach fileSize initial (s.turn fileSize t)

/-! ### Ranges, one behind the other -/

def Range.bytes (r : Range) : Set ℕ := Set.Ico r.position.toNat (r.position.toNat + r.size.toNat)

/-- The ranges lead from `first` to `last`, each from the end of the one before. -/
def Chained (first : ℕ) : List Range → ℕ → Prop
  | [], last => last = first
  | r :: rs, last => last = r.position.toNat + r.size.toNat ∧ Chained first rs r.position.toNat

theorem Chained.le {first : ℕ} : ∀ {rs : List Range} {last : ℕ}, Chained first rs last → first ≤ last
  | [], _, h => Nat.le_of_eq h.symm
  | _ :: _, _, ⟨h, hrs⟩ => by
    have := hrs.le
    omega

variable {rs : List Range}

theorem Chained.mem_iff {first : ℕ} {last : ℕ} (h : Chained first rs last) (x : ℕ) :
    (∃ r ∈ rs, x ∈ r.bytes) ↔ x ∈ Set.Ico first last := by
  induction rs generalizing last with
  | nil =>
    obtain rfl : last = first := h
    simp
  | cons r rs ih =>
    obtain ⟨rfl, hrs⟩ := h
    have hle := hrs.le
    rw [List.exists_mem_cons_iff, ih hrs]
    simp only [Range.bytes, Set.mem_Ico]
    omega

theorem Chained.end_le {first : ℕ} {last : ℕ} (h : Chained first rs last) {r : Range} (hr : r ∈ rs) :
    r.position.toNat + r.size.toNat ≤ last := by
  induction rs generalizing last with
  | nil => cases hr
  | cons r' rs ih =>
    obtain ⟨rfl, hrs⟩ := h
    rcases List.mem_cons.mp hr with rfl | hr
    · exact Nat.le_refl _
    · exact (ih hrs hr).trans (Nat.le_add_right _ _)

theorem Chained.disjoint {first : ℕ} {last : ℕ} (h : Chained first rs last) :
    rs.Pairwise fun r r' => Disjoint r.bytes r'.bytes := by
  induction rs generalizing last with
  | nil => exact List.Pairwise.nil
  | cons r rs ih =>
    refine List.pairwise_cons.mpr ⟨fun r' hr' => ?_, ih h.2⟩
    rw [Set.disjoint_left]
    intro x hx hx'
    have hbefore := (h.2.mem_iff x).mp ⟨r', hr', hx'⟩
    exact absurd hbefore.2 (Nat.not_lt.mpr hx.1)

/-! ### What every state keeps -/

section Invariant

variable {fileSize initial : Word} {s : State κ}

/-- The ranges lead to the offset, which is not behind the end; a loaded offset fits with the size
that was asked for. -/
structure Inv (fileSize initial : Word) (s : State κ) : Prop where
  offset_le : s.offset.toNat ≤ fileSize.toNat
  chained : Chained initial.toNat s.claimed s.offset.toNat
  loaded : ∀ k size loadedOffset, s.reader k = .exchange size loadedOffset →
    loadedOffset.toNat + size.toNat < 2 ^ 32

variable {k : κ}

theorem step_idle (hk : s.reader k = .idle) : s.turn fileSize (.step k) = s := by
  simp only [State.turn, hk]

theorem step_load {size : Word} (hk : s.reader k = .load size) :
    s.turn fileSize (.step k) = { s with reader := update s.reader k (.exchange size s.offset) } := by
  simp only [State.turn, hk]

theorem step_exchange {size : Word} (hk : s.reader k = .exchange size s.offset) :
    s.turn fileSize (.step k) =
      ⟨s.offset + updatedSize fileSize size s.offset, update s.reader k .idle,
        claim fileSize size s.offset :: s.claimed⟩ := by
  simp only [State.turn, hk, if_true]

theorem step_retry {size loadedOffset : Word} (hk : s.reader k = .exchange size loadedOffset)
    (hne : s.offset ≠ loadedOffset) :
    s.turn fileSize (.step k) = { s with reader := update s.reader k (.load size) } := by
  simp only [State.turn, hk, if_neg hne]

theorem claim_eq (fileSize size loadedOffset : Word) :
    claim fileSize size loadedOffset = ⟨loadedOffset, updatedSize fileSize size loadedOffset⟩ := by
  unfold claim updatedSize
  dsimp only
  rw [kMin_again]

theorem loaded_update {reader : κ → Reader} {r : Reader}
    (h : ∀ k size loadedOffset, reader k = .exchange size loadedOffset →
      loadedOffset.toNat + size.toNat < 2 ^ 32)
    (hr : ∀ size loadedOffset, r = .exchange size loadedOffset → loadedOffset.toNat + size.toNat < 2 ^ 32) :
    ∀ k' size loadedOffset, update reader k r k' = .exchange size loadedOffset →
      loadedOffset.toNat + size.toNat < 2 ^ 32 := by
  intro k' size loadedOffset hk'
  rw [update_apply] at hk'
  split_ifs at hk'
  · exact hr size loadedOffset hk'
  · exact h k' size loadedOffset hk'

/-- **One step** of a reader. -/
theorem Inv.step (h : Inv fileSize initial s) (hfits : s.Fits (.step k)) :
    Inv fileSize initial (s.turn fileSize (.step k)) := by
  cases hk : s.reader k with
  | idle =>
    rw [step_idle hk]
    exact h
  | load size =>
    rw [step_load hk]
    refine ⟨h.offset_le, h.chained, loaded_update h.loaded ?_⟩
    rintro _ _ ⟨⟩
    simpa only [State.Fits, hk] using hfits
  | exchange size loadedOffset =>
    by_cases hsame : s.offset = loadedOffset
    · -- the range that is claimed begins at the offset
      subst hsame
      have hfit := h.loaded k size _ hk
      have hsize : (updatedSize fileSize size s.offset).toNat = _ :=
        (size_eq_iff s.offset size fileSize).mpr ⟨h.offset_le, hfit⟩
      have hend : (s.offset + updatedSize fileSize size s.offset).toNat = _ :=
        new_offset_eq h.offset_le hfit
      have hle := h.offset_le
      rw [step_exchange hk, claim_eq]
      refine ⟨?_, ⟨?_, h.chained⟩, loaded_update h.loaded (by rintro _ _ ⟨⟩)⟩
      · dsimp only
        omega
      · dsimp only
        rw [hend, hsize]
    · rw [step_retry hk hsame]
      exact ⟨h.offset_le, h.chained, loaded_update h.loaded (by rintro _ _ ⟨⟩)⟩

theorem Inv.call (h : Inv fileSize initial s) (k : κ) (size : Word) :
    Inv fileSize initial (s.turn fileSize (.call k size)) := by
  cases hk : s.reader k with
  | idle =>
    simp only [State.turn, hk]
    exact ⟨h.offset_le, h.chained, loaded_update h.loaded (by rintro _ _ ⟨⟩)⟩
  | load size' =>
    simp only [State.turn, hk]
    exact h
  | exchange size' loadedOffset =>
    simp only [State.turn, hk]
    exact h

theorem Reach.inv (hinitial : initial.toNat ≤ fileSize.toNat) (h : Reach fileSize initial s) :
    Inv fileSize initial s := by
  induction h with
  | start => exact ⟨hinitial, rfl, fun _ _ _ hk => by cases hk⟩
  | @turn s t _ hfits ih =>
    cases t with
    | call k size => exact ih.call k size
    | step k => exact ih.step hfits

end Invariant

/-- **The shared offset.**  In every state that the readers reach, the ranges of the completed reads
are disjoint and make up what lies between the first offset and the present one, the offset is not
behind the end of the file, and each read delivers exactly the bytes of its range. -/
theorem shared_offset {σ : Type} {file : BlockIO σ} {I : σ → Prop} {content : ℕ → Byte}
    (H : Serves file I content) {initial : Word} (hinitial : initial.toNat ≤ file.sizeInBytes)
    {s : State κ} (h : Reach (length file) initial s) :
    (s.claimed.Pairwise fun r r' => Disjoint r.bytes r'.bytes) ∧
    (∀ x, (∃ r ∈ s.claimed, x ∈ r.bytes) ↔ x ∈ Set.Ico initial.toNat s.offset.toNat) ∧
    s.offset.toNat ≤ file.sizeInBytes ∧
    ∀ r ∈ s.claimed, ∀ disk, I disk → ∃ disk', I disk' ∧
      file.readAll r.position.toNat r.size.toNat disk =
        .ok (((r.size.toNat : ℤ), window content r.position.toNat r.size.toNat), disk') := by
  have hinv := h.inv (by simpa using hinitial)
  have hle : s.offset.toNat ≤ file.sizeInBytes := by simpa using hinv.offset_le
  refine ⟨hinv.chained.disjoint, hinv.chained.mem_iff, hle, ?_⟩
  intro r hr disk hI
  have hend := hinv.chained.end_le hr
  have hmin : min r.size.toNat (file.sizeInBytes - r.position.toNat) = r.size.toNat := by omega
  obtain ⟨_, disk', hread, rfl, hI'⟩ :=
    (H.readAll hI r.size.toNat (show r.position.toNat ≤ _ by omega)).returns
    fun _ h => h.elim
  rw [hmin] at hread
  exact ⟨disk', hI', hread⟩

/-- Two readers load the same offset: the second one exchanges only after it has loaded again, and
gets what is left. -/
theorem shared_offset_two : ∃ s : State Bool, Reach (length tenZeros) 0#32 s ∧
    s.claimed = [⟨4#32, 6#32⟩, ⟨0#32, 4#32⟩] ∧ ∀ x, (∃ r ∈ s.claimed, x ∈ r.bytes) ↔ x ∈ Set.Ico 0 10 := by
  have h0 : Reach (length tenZeros) 0#32 (⟨0#32, fun _ => .idle, []⟩ : State Bool) := .start
  have h2 := (h0.turn (t := .call true 4#32) trivial).turn (t := .call false 8#32) trivial
  have h3 := h2.turn (t := .step true) (by decide : 0 + 4 < 2 ^ 32)
  have h4 := h3.turn (t := .step false) (by decide : 0 + 8 < 2 ^ 32)
  have h6 := (h4.turn (t := .step true) trivial).turn (t := .step false) trivial
  have h7 := h6.turn (t := .step false) (by decide : 4 + 8 < 2 ^ 32)
  have h8 := h7.turn (t := .step false) trivial
  exact ⟨_, h8, by decide, (shared_offset serves_tenZeros (by decide) h8).2.1⟩

/-! ### One reader alone -/

/-- One call, from beginning to end. -/
def alone (fileSize size offset : Word) : State Unit :=
  (((⟨offset, fun _ => .idle, []⟩ : State Unit).turn fileSize (.call () size)).turn fileSize
    (.step ())).turn fileSize
    (.step ())

/-- **A reader alone does what `read` does**: it reads the range that it has claimed and leaves the
offset behind it. -/
theorem read_eq_alone {σ : Type} (file : BlockIO σ) (size : Word) (d : Descriptor σ) :
    ∃ r, (alone (length file) size d.offset).claimed = [r] ∧
      read file size d = (file.readAll r.position.toNat r.size.toNat d.disk).map fun result =>
        ((r.size, result.1.2), ⟨(alone (length file) size d.offset).offset, result.2⟩) := by
  refine ⟨claim (length file) size d.offset, by simp [alone, State.turn], ?_⟩
  have hoffset : (alone (length file) size d.offset).offset =
      d.offset + updatedSize (length file) size d.offset := by simp [alone, State.turn]
  rw [hoffset, claim_eq, read_eq]
  unfold updatedSize
  dsimp only
  cases file.readAll d.offset.toNat (kMin (d.offset + size) (length file) - d.offset).toNat d.disk with
  | ok result => rfl
  | error e => rfl

end GheithOS.Files.SharedOffset
