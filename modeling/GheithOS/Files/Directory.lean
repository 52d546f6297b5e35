import GheithOS.Exec.Elf

/-!
# GheithOS.Files.Directory — `Node::find` and `entry_count`

A directory is a file of records: an inode number, the length of the record, the length of the name,
and the name.  `scan` is the nested loop of `Node::find`, one test of a loop's condition at a time;
it has no bound of its own, so it gets rounds and returns `none` when they are used up.  The buffer
is the list of its bytes: a record header or a byte of a name behind its end is a `Fault`.

`WellFormed` says what the blocks of a directory should be: each is tiled by its records.  Then
`find` and `entry_count` are a search and a count over the list of all records (`directory_calls`),
in any order of calls.
-/

namespace GheithOS.Files

open Lib Exec

variable {σ α : Type}

/-- The kernel stops, an access lies outside of its buffer, or the rounds for a loop are used up. -/
inductive Fault where
  | halt (reason : Halt)
  | outside
  | rounds
  deriving DecidableEq

/-- A function of the block devices. -/
def lift (m : Prog Halt σ α) : Prog Fault σ α := fun s => (m s).mapError .halt

/-- The members of a `Node` that its functions read: `block_pointers` as the bytes in memory, and
the node as a `BlockIO`. -/
structure FsNode (σ : Type) where
  number : ℕ
  type : ℕ
  blockPointers : List Byte
  io : BlockIO σ

def FsNode.isDir (node : FsNode σ) : Bool := node.type = 0x4
def FsNode.isSymlink (node : FsNode σ) : Bool := node.type = 0xA

/-! ### The scan -/

structure FolderLLNode where
  inode : ℕ
  nodeLength : ℕ
  nameLength : ℕ
  deriving DecidableEq

def FolderLLNode.size : ℕ := 8

/-- `get_val` of a record's header. -/
def getHeader (buffer : List Byte) (position : ℕ) : Option FolderLLNode :=
  if position + FolderLLNode.size ≤ buffer.length then
    some ⟨field buffer position 4, field buffer (position + 4) 2, field buffer (position + 6) 2⟩
  else none

/-- The loop that compares the bytes from a position on with a name; `none` if it leaves the
buffer. -/
def compareName (buffer : List Byte) : ℕ → List Byte → Option Bool
  | _, [] => some true
  | position, c :: name =>
    match buffer[position]? with
    | none => none
    | some b => if b = c then compareName buffer (position + 1) name else some false

/-- The body of the inner loop: the header of a record, and whether it is the record that is looked
for. -/
def visit (buffer : List Byte) (name : Option (List Byte)) (position : ℕ) : Option (FolderLLNode × Bool) :=
  match getHeader buffer position with
  | none => none
  | some node =>
    match name with
    | none => some (node, false)
    | some name =>
      if node.inode ≠ 0 ∧ node.nameLength = name.length then
        (compareName buffer (position + FolderLLNode.size) name).map fun isSame => (node, isSame)
      else some (node, false)

/-- The heads of the two loops. -/
inductive Point where
  | block (i : ℕ)
  | record (i : ℕ) (buffer : List Byte) (localProcessed : ℕ)

inductive Scanned where
  | found (inode : ℕ)
  | finished (entries : ℕ)
  deriving DecidableEq

/-- The two loops of `find`. -/
def scan (io : BlockIO σ) (name : Option (List Byte)) : ℕ → Point → ℕ → ℕ → Prog Fault σ (Option Scanned)
  | 0, _, _, _ => return none
  | rounds + 1, .block i, processed, entries =>
    if processed < io.sizeInBytes then do
      let buffer ← lift (io.readBlock i)
      scan io name rounds (.record i buffer 0) processed entries
    else return some (.finished entries)
  | rounds + 1, .record i buffer localProcessed, processed, entries =>
    if localProcessed < io.blockSize ∧ processed < io.sizeInBytes then
      match visit buffer name localProcessed with
      | none => throw .outside
      | some (node, true) => return some (.found node.inode)
      | some (node, false) =>
        scan io name rounds (.record i buffer (u32 (localProcessed + node.nodeLength)))
          (u32 (processed + node.nodeLength)) (if node.inode = 0 then entries else u32 (entries + 1))
    else scan io name rounds (.block (u32 (i + 1))) processed entries

/-- `saved_entry_count` of a new node. -/
def noCount : ℕ := 0xFFFFFFFF

/-- `Node::find`: the result, and `saved_entry_count` afterwards. -/
def find (rounds : ℕ) (dir : FsNode σ) (name : Option (List Byte)) (saved : ℕ) :
    Prog Fault σ (Option (ℕ × ℕ)) := do
  lift (assert (dir.isDir = true))
  match ← scan dir.io name rounds (.block 0) 0 0 with
  | none => return none
  | some (.found inode) => return some (inode, saved)
  | some (.finished entries) => return some (if name.isSome then 0 else entries, entries)

/-- `Node::entry_count`: the result, and `saved_entry_count` afterwards. -/
def entryCount (rounds : ℕ) (dir : FsNode σ) (saved : ℕ) : Prog Fault σ (Option (ℕ × ℕ)) :=
  if saved = noCount then do
    match ← find rounds dir none saved with
    | none => return none
    | some (_, saved) => return some (saved, saved)
  else return some (saved, saved)

/-! ### Records -/

/-- A record of a directory. -/
structure Entry where
  inode : ℕ
  length : ℕ
  name : List Byte
  deriving DecidableEq

/-- The record stands at a position of a block. -/
structure Entry.At (buffer : List Byte) (position : ℕ) (e : Entry) : Prop where
  name_le : e.name.length + FolderLLNode.size ≤ e.length
  end_le : position + e.length ≤ buffer.length
  inode : field buffer position 4 = e.inode
  length : field buffer (position + 4) 2 = e.length
  nameLength : field buffer (position + 6) 2 = e.name.length
  name : (buffer.drop (position + FolderLLNode.size)).take e.name.length = e.name

/-- From a position on, the block is tiled by the records. -/
def Tiled (buffer : List Byte) : ℕ → List Entry → Prop
  | position, [] => position = buffer.length
  | position, e :: es => e.At buffer position ∧ Tiled buffer (position + e.length) es

/-- The record is in use and has the name. -/
def Entry.IsNamed (name : Option (List Byte)) (e : Entry) : Bool := e.inode ≠ 0 ∧ name = some e.name

theorem compareName_eq {buffer name : List Byte} {position : ℕ}
    (h : position + name.length ≤ buffer.length) :
    compareName buffer position name = some (decide ((buffer.drop position).take name.length = name)) := by
  induction name generalizing position with
  | nil => simp [compareName]
  | cons c name ih =>
    rw [List.length_cons] at h
    have hlt : position < buffer.length := by omega
    unfold compareName
    rw [List.getElem?_eq_getElem hlt]
    dsimp only
    rw [List.drop_eq_getElem_cons hlt, List.length_cons, List.take_succ_cons]
    split_ifs with hc
    · rw [ih (by omega)]
      simp [hc]
    · simp [hc]

theorem Entry.At.visit_eq {buffer : List Byte} {position : ℕ} {e : Entry} (h : e.At buffer position)
    (name : Option (List Byte)) :
    visit buffer name position = some (⟨e.inode, e.length, e.name.length⟩, e.IsNamed name) := by
  have hname := h.name_le
  have hend := h.end_le
  have hheader : getHeader buffer position = some ⟨e.inode, e.length, e.name.length⟩ := by
    unfold getHeader
    rw [if_pos (by omega), h.inode, h.length, h.nameLength]
  unfold visit IsNamed
  rw [hheader]
  cases name with
  | none => simp
  | some name =>
    dsimp only
    split_ifs with hc
    · have hbytes := h.name
      rw [hc.2] at hbytes hname
      rw [compareName_eq (by omega), hbytes, Option.map_some]
      simp [hc.1, eq_comm]
    · have hne : ¬ (e.inode ≠ 0 ∧ some name = some e.name) := by
        rintro ⟨h0, heq⟩
        exact hc ⟨h0, by rw [Option.some.inj heq]⟩
      rw [decide_eq_false hne]

/-! ### The scan of a well-formed directory -/

/-- The number of records in use. -/
def countUsed (es : List Entry) : ℕ := es.countP fun e => e.inode ≠ 0

/-- The blocks of a directory are tiled by records. -/
structure WellFormed (io : BlockIO σ) (content : ℕ → Byte) (records : ℕ → List Entry) : Prop where
  size_mod : io.sizeInBytes % io.blockSize = 0
  tiled : ∀ b, b * io.blockSize < io.sizeInBytes →
      Tiled (window content (b * io.blockSize) io.blockSize) 0 (records b)

section Scan

variable {io : BlockIO σ} {I : σ → Prop} {content : ℕ → Byte} {records : ℕ → List Entry} {s : σ}
  {name : Option (List Byte)}

variable {es : List Entry}

theorem Tiled.le {buffer : List Byte} {position : ℕ} (h : Tiled buffer position es) :
    position + 8 * es.length ≤ buffer.length := by
  induction es generalizing position with
  | nil => exact Nat.le_of_eq h
  | cons e es ih =>
    have hname : e.name.length + 8 ≤ e.length := h.1.name_le
    have hrest := ih h.2
    rw [List.length_cons]
    omega

/-- **The records of a block**: the scan ends at the first one with the name, or goes on with the
next block. -/
theorem scan_records (name : Option (List Byte)) {buffer : List Byte} (b : ℕ)
    {position first entries : ℕ} (htiled : Tiled buffer position es)
    (hlength : buffer.length = io.blockSize) (hblock : first + io.blockSize ≤ io.sizeInBytes)
    (hentries : 8 * entries ≤ first + position) (rounds : ℕ) :
    scan io name (rounds + 1 + es.length) (.record b buffer position) (first + position) entries =
      (es.find? (·.IsNamed name)).elim
        (scan io name rounds (.block (u32 (b + 1))) (first + io.blockSize) (entries + countUsed es))
        fun e => pure (some (.found e.inode)) := by
  have hsize := io.size_lt
  induction es generalizing position entries with
  | nil =>
    obtain rfl : position = buffer.length := htiled
    rw [hlength, List.length_nil, Nat.add_zero, scan, if_neg (by omega)]
    rfl
  | cons e es ih =>
    have hname : e.name.length + 8 ≤ e.length := htiled.1.name_le
    have hrest := htiled.2.le
    have hround : rounds + 1 + (e :: es).length = rounds + 1 + es.length + 1 := rfl
    rw [hround, scan, if_pos (by omega), htiled.1.visit_eq]
    cases hfound : e.IsNamed name with
    | true =>
      rw [List.find?_cons_of_pos hfound]
      rfl
    | false =>
      rw [List.find?_cons_of_neg (by simp [hfound])]
      dsimp only
      rw [u32_of_lt (by omega), u32_of_lt (by omega), Nat.add_assoc first]
      by_cases h0 : e.inode = 0
      · rw [if_pos h0, ih htiled.2 (by omega)]
        simp [countUsed, h0]
      · rw [if_neg h0, u32_of_lt (by omega), ih htiled.2 (by omega)]
        simp [countUsed, h0, Nat.add_assoc, Nat.add_comm]

theorem ends_lift {m : Prog Halt σ α} {Q : α → σ → Prop} (h : Ends (fun _ => False) m s Q) :
    Ends (fun _ => False) (lift m) s Q := by
  obtain ⟨a, s', hm, hQ⟩ := h.returns fun _ h => h.elim
  refine ends_of_eq ?_ hQ
  unfold lift
  rw [hm]
  rfl

/-- What the scan returns for a list of records. -/
def scanned (name : Option (List Byte)) (entries : ℕ) (es : List Entry) : Scanned :=
  (es.find? (·.IsNamed name)).elim (.finished (entries + countUsed es)) fun e => .found e.inode

theorem scanned_append (entries : ℕ) (es fs : List Entry) :
    scanned name entries (es ++ fs) =
      (es.find? (·.IsNamed name)).elim (scanned name (entries + countUsed es) fs)
      fun e => .found e.inode := by
  unfold scanned countUsed
  rw [List.find?_append, List.countP_append, Nat.add_assoc]
  cases es.find? (·.IsNamed name) with
  | none => rfl
  | some e => rfl

theorem Tiled.eight_le {buffer : List Byte} (h : Tiled buffer 0 es) (hpos : 0 < buffer.length) :
    8 ≤ buffer.length := by
  cases es with
  | nil => exact absurd h (Nat.ne_of_lt hpos)
  | cons e es =>
    have hle := h.le
    rw [List.length_cons] at hle
    omega

/-- **The blocks from `b` on.**  More rounds than bytes are enough. -/
theorem scan_blocks (name : Option (List Byte)) (H : Serves io I content)
    (W : WellFormed io content records) {n b entries rounds : ℕ} (hI : I s)
    (hend : (b + n) * io.blockSize = io.sizeInBytes) (hentries : 8 * entries ≤ b * io.blockSize)
    (hrounds : n * io.blockSize < rounds) :
    Ends (fun _ => False) (scan io name rounds (.block b) (b * io.blockSize) entries) s fun r s' =>
      r = some (scanned name entries ((List.range' b n).flatMap records)) ∧ I s' := by
  have hpos := io.blockSize_pos
  have hsize := io.size_lt
  induction n generalizing b entries rounds s with
  | zero =>
    obtain ⟨rounds, rfl⟩ := Nat.exists_eq_succ_of_ne_zero (Nat.ne_of_gt (Nat.zero_lt_of_lt hrounds))
    rw [scan, if_neg (by rw [← hend]; simp)]
    exact ends_pure ⟨by simp [scanned, countUsed], hI⟩
  | succ n ih =>
    rw [Nat.add_mul, Nat.one_mul] at hrounds
    have hsplit : (b + (n + 1)) * io.blockSize = b * io.blockSize + io.blockSize + n * io.blockSize := by
      rw [Nat.add_mul, Nat.add_mul, Nat.one_mul]
      omega
    have hnext : (b + 1) * io.blockSize =
        b * io.blockSize + io.blockSize := by rw [Nat.add_mul, Nat.one_mul]
    have hlt : b * io.blockSize < io.sizeInBytes := by omega
    have htiled := W.tiled b hlt
    have hlength : (window content (b * io.blockSize) io.blockSize).length = io.blockSize :=
      length_window _ _ _
    have height := htiled.eight_le (by rw [hlength]; exact hpos)
    have hmany := htiled.le
    rw [hlength] at height hmany
    have hb : b + 1 ≤ (b + 1) * io.blockSize := Nat.le_mul_of_pos_right _ hpos
    obtain ⟨rounds, rfl⟩ := Nat.exists_eq_add_of_lt
      (show n * io.blockSize + (records b).length + 2 < rounds by omega)
    have hround : n * io.blockSize + (records b).length + 2 + rounds + 1 =
        n * io.blockSize + 1 + rounds + 1 + (records b).length + 1 := by omega
    rw [hround, scan, if_pos hlt]
    refine ends_bind ((ends_lift (H b s hI hlt)).mono ?_)
    rintro _ s₁ ⟨rfl, hI₁⟩
    have hrecords := scan_records name b htiled hlength (show b * io.blockSize + io.blockSize ≤ _ by omega)
      (show 8 * entries ≤ b * io.blockSize + 0 from hentries) (n * io.blockSize + 1 + rounds)
    rw [Nat.add_zero (b * io.blockSize)] at hrecords
    rw [hrecords, List.range'_succ, List.flatMap_cons, scanned_append, u32_of_lt (by omega), ← hnext]
    cases hfound : (records b).find? (·.IsNamed name) with
    | some e => exact ends_pure ⟨rfl, hI₁⟩
    | none =>
      have hcount : countUsed (records b) ≤ (records b).length := List.countP_le_length
      refine ih hI₁ ?_ (by omega) (by omega)
      rw [← hend]
      congr 1
      omega

end Scan

/-! ### Calls on a directory -/

/-- All records of a directory, in the order of its blocks. -/
def allRecords (io : BlockIO σ) (records : ℕ → List Entry) : List Entry :=
  (List.range (io.sizeInBytes / io.blockSize)).flatMap records

/-- The inode of the first record in use that has the name, or 0. -/
def lookup (es : List Entry) (name : List Byte) : ℕ :=
  ((es.find? (·.IsNamed (some name))).map (·.inode)).getD 0

inductive DirCall where
  | find (name : List Byte)
  | entryCount

/-- What a call should return. -/
def DirCall.result (es : List Entry) : DirCall → ℕ
  | .find name => lookup es name
  | .entryCount => countUsed es

def DirCall.run (rounds : ℕ) (dir : FsNode σ) (saved : ℕ) : DirCall → Prog Fault σ (Option (ℕ × ℕ))
  | .find name => Files.find rounds dir (some name) saved
  | .entryCount => Files.entryCount rounds dir saved

/-- The results of a sequence of calls on a node. -/
def runCalls (rounds : ℕ) (dir : FsNode σ) : List DirCall → ℕ → Prog Fault σ (Option (List ℕ))
  | [], _ => return some []
  | c :: cs, saved => do
    match ← c.run rounds dir saved with
    | none => return none
    | some (result, saved) => return (← runCalls rounds dir cs saved).map (result :: ·)

section Calls

variable {dir : FsNode σ} {I : σ → Prop} {content : ℕ → Byte} {records : ℕ → List Entry} {s : σ}
  {rounds saved : ℕ}

theorem scan_ends (H : Serves dir.io I content) (W : WellFormed dir.io content records) (hI : I s)
    (hrounds : dir.io.sizeInBytes < rounds) (name : Option (List Byte)) :
    Ends (fun _ => False) (scan dir.io name rounds (.block 0) 0 0) s fun r s' =>
      r = some (scanned name 0 (allRecords dir.io records)) ∧ I s' := by
  have hsize : (0 + dir.io.sizeInBytes / dir.io.blockSize) * dir.io.blockSize = dir.io.sizeInBytes := by
    rw [Nat.zero_add]
    exact Nat.div_mul_cancel (Nat.dvd_of_mod_eq_zero W.size_mod)
  have hlt : dir.io.sizeInBytes / dir.io.blockSize * dir.io.blockSize < rounds := by
    rw [Nat.zero_add] at hsize
    omega
  have h := scan_blocks name H W hI hsize (show 8 * 0 ≤ 0 * _ from Nat.zero_le _) hlt
  rw [Nat.zero_mul, ← List.range_eq_range'] at h
  exact h

/-- **`find`** of a name. -/
theorem find_ends (H : Serves dir.io I content) (W : WellFormed dir.io content records)
    (hdir : dir.isDir = true) (hI : I s) (hrounds : dir.io.sizeInBytes < rounds)
    (name : List Byte) :
    Ends (fun _ => False) (find rounds dir (some name) saved) s fun r s' => I s' ∧ ∃ saved',
      r = some (lookup (allRecords dir.io records) name, saved') ∧
        (saved' = saved ∨ saved' = countUsed (allRecords dir.io records)) := by
  refine ends_bind (ends_lift (ends_assert hdir ?_))
  refine ends_bind ((scan_ends H W hI hrounds (some name)).mono ?_)
  rintro _ s₁ ⟨rfl, hI₁⟩
  unfold scanned lookup
  cases (allRecords dir.io records).find? (·.IsNamed (some name)) with
  | none => exact ends_pure ⟨hI₁, _, rfl, .inr (Nat.zero_add _)⟩
  | some e => exact ends_pure ⟨hI₁, _, rfl, .inl rfl⟩

/-- **`find(nullptr)`** counts. -/
theorem find_null_ends (H : Serves dir.io I content) (W : WellFormed dir.io content records)
    (hdir : dir.isDir = true) (hI : I s) (hrounds : dir.io.sizeInBytes < rounds) :
    Ends (fun _ => False) (find rounds dir none saved) s fun r s' => I s' ∧
      r = some (countUsed (allRecords dir.io records), countUsed (allRecords dir.io records)) := by
  refine ends_bind (ends_lift (ends_assert hdir ?_))
  refine ends_bind ((scan_ends H W hI hrounds none).mono ?_)
  rintro _ s₁ ⟨rfl, hI₁⟩
  have hnone : (allRecords dir.io records).find? (·.IsNamed none) = none := by
    rw [List.find?_eq_none]
    intro e _
    simp [Entry.IsNamed]
  unfold scanned
  rw [hnone]
  refine ends_pure ⟨hI₁, ?_⟩
  simp

theorem run_ends (H : Serves dir.io I content) (W : WellFormed dir.io content records)
    (hdir : dir.isDir = true) (hI : I s) (hrounds : dir.io.sizeInBytes < rounds)
    (hsaved : saved = noCount ∨ saved = countUsed (allRecords dir.io records)) (c : DirCall) :
    Ends (fun _ => False) (c.run rounds dir saved) s fun r s' => I s' ∧ ∃ saved',
      r = some (c.result (allRecords dir.io records), saved') ∧
        (saved' = noCount ∨ saved' = countUsed (allRecords dir.io records)) := by
  cases c with
  | find name =>
    unfold DirCall.run
    refine (find_ends H W hdir hI hrounds name).mono ?_
    rintro _ s₁ ⟨hI₁, saved', rfl, h | h⟩
    · exact ⟨hI₁, saved', rfl, h ▸ hsaved⟩
    · exact ⟨hI₁, saved', rfl, .inr h⟩
  | entryCount =>
    unfold DirCall.run entryCount
    dsimp only
    split_ifs with hnew
    · refine ends_bind ((find_null_ends H W hdir hI hrounds).mono ?_)
      rintro _ s₁ ⟨hI₁, rfl⟩
      exact ends_pure ⟨hI₁, _, rfl, .inr rfl⟩
    · obtain rfl := hsaved.resolve_left hnew
      exact ends_pure ⟨hI, _, rfl, .inr rfl⟩

theorem runCalls_ends (H : Serves dir.io I content) (W : WellFormed dir.io content records)
    (hdir : dir.isDir = true) (hrounds : dir.io.sizeInBytes < rounds) (cs : List DirCall) (hI : I s)
    (hsaved : saved = noCount ∨ saved = countUsed (allRecords dir.io records)) :
    Ends (fun _ => False) (runCalls rounds dir cs saved) s fun r s' =>
      r = some (cs.map (·.result (allRecords dir.io records))) ∧ I s' := by
  induction cs generalizing s saved with
  | nil => exact ends_pure ⟨rfl, hI⟩
  | cons c cs ih =>
    unfold runCalls
    refine ends_bind ((run_ends H W hdir hI hrounds hsaved c).mono ?_)
    rintro _ s₁ ⟨hI₁, saved', rfl, hsaved'⟩
    refine ends_bind ((ih hI₁ hsaved').mono ?_)
    rintro _ s₂ ⟨rfl, hI₂⟩
    exact ends_pure ⟨rfl, hI₂⟩

end Calls

/-- **Directory lookup.**  On a new node of a well-formed directory any sequence of calls returns,
and their results are right: a `find` gives the inode of the first record in use with the name, or
0, and `entry_count` gives the number of records in use, whatever was called before. -/
theorem directory_calls {dir : FsNode σ} {I : σ → Prop} {content : ℕ → Byte}
    {records : ℕ → List Entry} (H : Serves dir.io I content) (W : WellFormed dir.io content records)
    (hdir : dir.isDir = true) (s : σ) (hI : I s) (cs : List DirCall) {rounds : ℕ}
    (hrounds : dir.io.sizeInBytes < rounds) :
    ∃ s', I s' ∧ runCalls rounds dir cs noCount s =
      .ok (some (cs.map (·.result (allRecords dir.io records))), s') := by
  obtain ⟨_, s', hrun, rfl, hI'⟩ :=
    (runCalls_ends H W hdir hrounds cs hI (.inl rfl)).returns fun _ h => h.elim
  exact ⟨s', hI', hrun⟩

/-- The bytes of a directory with the names `ab` and `c`. -/
def smallBytes : List Byte :=
  [12#8, 0#8, 0#8, 0#8, 16#8, 0#8, 2#8, 0#8, 97#8, 98#8, 0#8, 0#8, 0#8, 0#8, 0#8, 0#8,
    7#8, 0#8, 0#8, 0#8, 240#8, 3#8, 1#8, 0#8, 99#8]

def smallContent (a : ℕ) : Byte := smallBytes.getD a 0#8

def smallRecords : List Entry := [⟨12, 16, [97#8, 98#8]⟩, ⟨7, 1008, [99#8]⟩]

def smallDirectory : FsNode Unit := ⟨2, 0x4, [], ramFile smallContent 1024 (by decide)⟩

theorem wellFormed_small : WellFormed smallDirectory.io smallContent fun _ => smallRecords := by
  refine ⟨rfl, fun b hb => ?_⟩
  have h0 : b = 0 := by
    change b * 1024 < 1024 at hb
    omega
  subst h0
  have hlength : (window smallContent (0 * 1024) 1024).length = 1024 := length_window _ _ _
  refine ⟨⟨by decide, ?_, rfl, rfl, rfl, rfl⟩, ⟨by decide, ?_, rfl, rfl, rfl, rfl⟩, hlength.symm⟩
  · exact hlength.symm ▸ (by decide : 0 + 16 ≤ 1024)
  · exact hlength.symm ▸ (by decide : 0 + 16 + 1008 ≤ 1024)

/-- A search that fails, one that succeeds, and a count. -/
theorem directory_calls_small :
    ∃ s', runCalls 1025 smallDirectory [.find [97#8], .find [99#8], .entryCount] noCount () =
      .ok (some [0, 7, 2], s') := by
  obtain ⟨s', -, h⟩ :=
    directory_calls (serves_ramFile smallContent 1024 (by decide)) wellFormed_small rfl () trivial
    [.find [97#8], .find [99#8], .entryCount] (Nat.lt_succ_self 1024)
  exact ⟨s', h⟩

end GheithOS.Files
