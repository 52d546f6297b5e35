import GheithOS.Files.Directory
import GheithOS.Lib.Resolve

/-!
# GheithOS.Files.Path — `find_fs_node`

A path is the list of its characters, without the zero at its end.  `findFsNode` goes through the
characters, and at every slash and at the end looks up the name that it has collected; a symbolic
link is replaced by what its text leads to from the directory that contains it, with one less of
`depth`.

The names of a path in a file system with links are the subject of `LinkGraph`; `pathGraph` is the
graph of a file system whose directories are well-formed.  `findFsNode` is the bounded resolution of
that graph (`findFsNode_ends`), hence finds what the unbounded resolution gives if its links are
nested less than `depth` deep (`find_fs_node_resolves`), and two paths can be resolved one after the
other (`find_fs_node_composes`).
-/

namespace GheithOS.Files

open Lib Exec

variable {σ : Type}

def slash : Byte := 0x2f#8
def dot : Byte := 0x2e#8

/-- `Ext2`: its root and `get_node`. -/
structure Fs (σ : Type) where
  root : FsNode σ
  getNode : ℕ → Prog Fault σ (Option (FsNode σ))

/-- `Ext2::find`. -/
def Fs.find (fs : Fs σ) (rounds : ℕ) (dir : FsNode σ) (name : List Byte) :
    Prog Fault σ (Option (FsNode σ)) := do
  match ← Files.find rounds dir (some name) noCount with
  | none => throw .rounds
  | some (inode, _) => fs.getNode inode

def getSymbol (node : FsNode σ) : Prog Fault σ (List Byte) := do
  lift (assert (node.isSymlink = true))
  if node.io.sizeInBytes ≥ 60 then
    let (_, bytes) ← lift (node.io.readAll 0 node.io.sizeInBytes)
    return bytes
  else return node.blockPointers.take node.io.sizeInBytes

/-- The string in a buffer that ends with a zero. -/
def cString (bytes : List Byte) : List Byte := bytes.takeWhile (· ≠ 0#8)

/-- The text of a link, in a buffer of `symbol_size + 1` bytes. -/
def readSymbol (node : FsNode σ) : Prog Fault σ (List Byte) :=
  if u32 (node.io.sizeInBytes + 1) ≤ node.io.sizeInBytes then throw .outside
  else do
    let symbol ← getSymbol node
    return cString symbol

section Walk

variable (fs : Fs σ) (rounds : ℕ) (follow : List Byte → FsNode σ → Prog Fault σ (Option (FsNode σ)))

/-- The loop over links: `next_dir`, found in `current_dir`. -/
def chase (currentDir : FsNode σ) : ℕ → Option (FsNode σ) → Prog Fault σ (Option (FsNode σ))
  | 0, _ => throw .rounds
  | _ + 1, none => return none
  | rounds + 1, some nextDir =>
    if nextDir.isSymlink then do
      let symbol ← readSymbol nextDir
      let nextDir ← follow symbol currentDir
      chase currentDir rounds nextDir
    else return some nextDir

/-- What happens at a slash and at the end of the path. -/
def enter (currentDir : FsNode σ) (name : List Byte) : Prog Fault σ (Option (FsNode σ)) :=
  if currentDir.isDir = false then return none
  else if name.length = 0 then return some currentDir
  else if name.length = 1 ∧ name.head? = some dot then return some currentDir
  else do
    let nextDir ← fs.find rounds currentDir name
    chase follow currentDir rounds nextDir

/-- The loop over the characters, with those since `current_start`. -/
def walkPath : List Byte → List Byte → FsNode σ → Prog Fault σ (Option (FsNode σ))
  | [], name, currentDir => enter fs rounds follow currentDir name
  | c :: rest, name, currentDir =>
    if c = slash then do
      match ← enter fs rounds follow currentDir name with
      | none => return none
      | some currentDir => walkPath rest [] currentDir
    else walkPath rest (name ++ [c]) currentDir

end Walk

def findFsNode (fs : Fs σ) (rounds : ℕ) :
    ℕ → List Byte → Option (FsNode σ) → Prog Fault σ (Option (FsNode σ))
  | 0, _, _ => return none
  | _ + 1, [], _ => return none
  | depth + 1, c :: rest, relativePath =>
    let follow := fun symbol dir => findFsNode fs rounds depth symbol (some dir)
    if c = slash then walkPath fs rounds follow rest [] fs.root
    else match relativePath with
      | none => return none
      | some relativePath => walkPath fs rounds follow (c :: rest) [] relativePath

/-! ### The graph of a file system -/

section Graph

variable (node : ℕ → FsNode σ) (content : ℕ → ℕ → Byte) (records : ℕ → ℕ → List Entry) (root : ℕ)

/-- Where a path starts, and its names. -/
def startOf (base : Option ℕ) : List Byte → Option (ℕ × List (List Byte))
  | [] => none
  | c :: rest => if c = slash then some (root, rest.splitOn slash)
      else base.map fun b => (b, (c :: rest).splitOn slash)

/-- The text of a link: short ones are in the inode. -/
def linkText (x : ℕ) : List Byte :=
  cString (if (node x).io.sizeInBytes ≥ 60 then window (content x) 0 (node x).io.sizeInBytes
    else (node x).blockPointers.take (node x).io.sizeInBytes)

/-- The entry of a directory. -/
def childOf (x : ℕ) (name : List Byte) : Option ℕ :=
  let inode := lookup (allRecords (node x).io (records x)) name
  if inode = 0 then none else some inode

theorem startOf_ne_nil {base : Option ℕ} {path : List Byte} {p : ℕ × List (List Byte)}
    (h : startOf root base path = some p) : p.2 ≠ [] := by
  unfold startOf at h
  cases path with
  | nil => cases h
  | cons c rest =>
    dsimp only at h
    split_ifs at h
    · cases h
      exact List.splitOn_ne_nil _ _
    · obtain ⟨b, -, rfl⟩ := Option.map_eq_some_iff.mp h
      exact List.splitOn_ne_nil _ _

/-- The directories and links of a file system, and the names in them. -/
def pathGraph : LinkGraph ℕ (List Byte) where
  isDir x := (node x).isDir
  isLink x := (node x).isSymlink
  skips name := name = [] ∨ name = [dot]
  child := childOf node records
  target dir x := startOf root (some dir) (linkText node content x)
  isLink_of_isDir x h := by
    unfold FsNode.isDir at h
    unfold FsNode.isSymlink
    rw [of_decide_eq_true h]
    rfl
  target_ne_nil _ _ _ h := startOf_ne_nil root h

/-- **The unbounded resolution** of a path from a base: it leads to a node, through links nested so
deep. -/
def Resolves (base : Option ℕ) (path : List Byte) (x nesting : ℕ) : Prop :=
  ∃ p, startOf root base path = some p ∧ (pathGraph node content records root).Walks p.1 p.2 x nesting

end Graph

/-- A file system of well-formed directories: `get_node` gives the node of each number that a
directory names, the nodes of directories and links serve their bytes, and the text of a link has
room in memory together with a zero. -/
structure Mounted (fs : Fs σ) (I : σ → Prop) (node : ℕ → FsNode σ) (content : ℕ → ℕ → Byte)
    (records : ℕ → ℕ → List Entry) (root : ℕ) : Prop where
  root_eq : fs.root = node root
  number_eq : ∀ x, (node x).number = x
  getNode_zero : ∀ s, fs.getNode 0 s = .ok (none, s)
  getNode : ∀ d name x s, (node d).isDir = true → childOf node records d name = some x → I s →
    Ends (fun _ => False) (fs.getNode x) s fun r s' => r = some (node x) ∧ I s'
  serves : ∀ x, (node x).isDir = true ∨ (node x).isSymlink = true → Serves (node x).io I (content x)
  wellFormed : ∀ x, (node x).isDir = true → WellFormed (node x).io (content x) (records x)
  link_lt : ∀ x, (node x).isSymlink = true → (node x).io.sizeInBytes + 1 < 2 ^ 32

theorem childOf_ne_zero {node : ℕ → FsNode σ} {records : ℕ → ℕ → List Entry} {d x : ℕ}
    {name : List Byte} (h : childOf node records d name = some x) : x ≠ 0 := by
  unfold childOf at h
  dsimp only at h
  split_ifs at h with h0
  rwa [← Option.some.inj h]

/-! ### The code is the bounded resolution -/

theorem modifyHead_nil_append (ls : List (List Byte)) : ls.modifyHead ([] ++ ·) = ls := by
  cases ls with
  | nil => rfl
  | cons l ls => rfl

theorem eq_dot {name : List Byte} (h1 : name.length = 1) (hhead : name.head? = some dot) :
    name = [dot] := by
  obtain ⟨c, rfl⟩ := List.length_eq_one_iff.mp h1
  rw [Option.some.inj hhead]

section Simulation

variable {fs : Fs σ} {I : σ → Prop} {node : ℕ → FsNode σ} {content : ℕ → ℕ → Byte}
  {records : ℕ → ℕ → List Entry}
  {root rounds : ℕ} {s : σ}

theorem Mounted.find_ends (M : Mounted fs I node content records root) (hrounds : 2 ^ 32 ≤ rounds)
    {d : ℕ} (hd : (node d).isDir = true) (hI : I s) (name : List Byte) :
    Ends (fun _ => False) (fs.find rounds (node d) name) s fun r s' =>
      r = (childOf node records d name).map node ∧ I s' := by
  have hsize := (node d).io.size_lt
  refine ends_bind ((Files.find_ends (M.serves d (.inl hd)) (M.wellFormed d hd) hd hI
    (by omega) name).mono ?_)
  rintro _ s₁ ⟨hI₁, saved, rfl, -⟩
  dsimp only
  by_cases h0 : lookup (allRecords (node d).io (records d)) name = 0
  · have hchild : childOf node records d name = none := if_pos h0
    rw [hchild, h0]
    exact ends_of_eq (M.getNode_zero s₁) ⟨rfl, hI₁⟩
  · have hchild : childOf node records d name =
        some (lookup (allRecords (node d).io (records d)) name) := if_neg h0
    rw [hchild]
    exact M.getNode d name _ s₁ hd hchild hI₁

theorem Mounted.readSymbol_ends (M : Mounted fs I node content records root) {x : ℕ}
    (hx : (node x).isSymlink = true) (hI : I s) :
    Ends (fun _ => False) (readSymbol (node x)) s fun r s' => r = linkText node content x ∧ I s' := by
  have hlt := M.link_lt x hx
  unfold readSymbol linkText
  rw [u32_of_lt hlt, if_neg (by omega)]
  refine ends_bind ?_
  unfold getSymbol
  refine ends_bind (ends_lift (ends_assert hx ?_))
  split_ifs with hlong
  · refine ends_bind ((ends_lift ((M.serves x (.inr hx)).readAll hI _ (Nat.zero_le _))).mono ?_)
    rintro _ s₁ ⟨rfl, hI₁⟩
    dsimp only
    rw [Nat.sub_zero, Nat.min_self]
    exact ends_pure (ends_pure ⟨rfl, hI₁⟩)
  · exact ends_pure (ends_pure ⟨rfl, hI⟩)

variable {follow : List Byte → FsNode σ → Prog Fault σ (Option (FsNode σ))}
  {followed : List Byte → ℕ → Option ℕ}

variable (I node follow followed) in
/-- `follow` does as `followed` says, which leads to no link. -/
structure Follows : Prop where
  returns : ∀ symbol d s, I s → Ends (fun _ => False) (follow symbol (node d)) s fun r s' =>
    r = (followed symbol d).map node ∧ I s'
  notLink : ∀ symbol d y, followed symbol d = some y → (node y).isSymlink = false

/-- **The loop over links** ends in its second round, as what a link leads to is no link. -/
theorem Mounted.chase_ends (M : Mounted fs I node content records root)
    (F : Follows I node follow followed) (hI : I s) (d n : ℕ)
    (next : Option ℕ) :
    Ends (fun _ => False) (chase follow (node d) (n + 2) (next.map node)) s fun r s' =>
      r = (next.bind fun x => if (node x).isSymlink then followed (linkText node content x) d
        else some x).map node ∧
        I s' := by
  cases next with
  | none => exact ends_pure ⟨rfl, hI⟩
  | some x =>
    rw [Option.map_some, chase, Option.bind_some]
    split_ifs with hx
    · refine ends_bind ((M.readSymbol_ends hx hI).mono ?_)
      rintro _ s₁ ⟨rfl, hI₁⟩
      refine ends_bind ((F.returns _ d s₁ hI₁).mono ?_)
      rintro _ s₂ ⟨rfl, hI₂⟩
      cases hy : followed (linkText node content x) d with
      | none => exact ends_pure ⟨rfl, hI₂⟩
      | some y =>
        rw [Option.map_some, chase, if_neg (by rw [F.notLink _ _ _ hy]; decide)]
        exact ends_pure ⟨rfl, hI₂⟩
    · exact ends_pure ⟨rfl, hI⟩

/-- **One name.** -/
theorem Mounted.enter_ends (M : Mounted fs I node content records root) (hrounds : 2 ^ 32 ≤ rounds)
    (F : Follows I node follow followed) (hI : I s) (d : ℕ)
    (name : List Byte) :
    Ends (fun _ => False) (enter fs rounds follow (node d) name) s fun r s' =>
      r = ((pathGraph node content records root).step
        (fun d x => followed (linkText node content x) d) d name).map node ∧
        I s' := by
  unfold enter LinkGraph.step
  change Ends _ _ _ fun r s' => r = Option.map node (if (node d).isDir = true then
    if decide (name = [] ∨ name = [dot]) = true then some d else (childOf node records d name).bind
      fun x => if (node x).isSymlink = true then followed (linkText node content x) d else some x
    else none) ∧ I s'
  cases hd : (node d).isDir with
  | false => exact ends_pure ⟨rfl, hI⟩
  | true =>
    rw [if_neg (by decide), if_pos rfl]
    by_cases hname : name = [] ∨ name = [dot]
    · rw [if_pos (decide_eq_true hname)]
      rcases hname with rfl | rfl
      · exact ends_pure ⟨rfl, hI⟩
      · exact ends_pure ⟨rfl, hI⟩
    · obtain ⟨hnil, hdot⟩ := not_or.mp hname
      rw [if_neg (by simpa using hnil), if_neg (fun h => hdot (eq_dot h.1 h.2)),
        if_neg (by simpa using hname)]
      refine ends_bind ((M.find_ends hrounds hd hI name).mono ?_)
      rintro _ s₁ ⟨rfl, hI₁⟩
      obtain ⟨n, rfl⟩ := Nat.exists_eq_add_of_le' (show 2 ≤ rounds by omega)
      exact M.chase_ends F hI₁ d n (childOf node records d name)

/-- **The characters of a path** are walked like its names. -/
theorem Mounted.walkPath_ends (M : Mounted fs I node content records root)
    (hrounds : 2 ^ 32 ≤ rounds) (F : Follows I node follow followed) (hI : I s) (d : ℕ)
    (path name : List Byte) :
    Ends (fun _ => False) (walkPath fs rounds follow path name (node d)) s fun r s' =>
      r = ((pathGraph node content records root).walk (fun d x => followed (linkText node content x) d) d
        ((path.splitOn slash).modifyHead (name ++ ·))).map node ∧ I s' := by
  induction path generalizing name d s with
  | nil =>
    refine (M.enter_ends hrounds F hI d name).mono fun r s' h => ⟨?_, h.2⟩
    rw [h.1, List.splitOn_nil, List.modifyHead_cons, List.append_nil, LinkGraph.walk]
    exact congrArg _ (Option.bind_fun_some _).symm
  | cons c path ih =>
    rw [walkPath, List.splitOn_cons_eq_if_modifyHead]
    by_cases hc : c = slash
    · rw [if_pos hc, if_pos (by simpa using hc), List.modifyHead_cons, List.append_nil, LinkGraph.walk]
      refine ends_bind ((M.enter_ends hrounds F hI d name).mono ?_)
      rintro _ s₁ ⟨rfl, hI₁⟩
      cases (pathGraph node content records root).step
          (fun d x => followed (linkText node content x) d) d name with
      | none => exact ends_pure ⟨rfl, hI₁⟩
      | some x =>
        refine (ih hI₁ x []).mono fun r s' h => ⟨?_, h.2⟩
        rw [h.1, modifyHead_nil_append]
        rfl
    · rw [if_neg hc, if_neg (by simpa using hc), List.modifyHead_modifyHead]
      refine (ih hI d (name ++ [c])).mono fun r s' h => ⟨?_, h.2⟩
      rw [h.1]
      congr 3
      funext l
      simp

variable (node content records root) in
/-- The resolution of a path with links nested less than `depth` deep. -/
def boundedResolve (depth : ℕ) (base : Option ℕ) (path : List Byte) : Option ℕ :=
  (startOf root base path).bind fun p => (pathGraph node content records root).resolve depth p.1 p.2

theorem boundedResolve_not_link {depth x : ℕ} {base : Option ℕ} {path : List Byte}
    (h : boundedResolve node content records root depth base path = some x) :
    (node x).isSymlink = false := by
  obtain ⟨p, hp, hx⟩ := Option.bind_eq_some_iff.mp h
  exact LinkGraph.resolve_not_link (startOf_ne_nil root hp) hx

theorem boundedResolve_eq_some_iff {depth x : ℕ} {base : Option ℕ} {path : List Byte} :
    boundedResolve node content records root depth base path = some x ↔
      ∃ nesting < depth, Resolves node content records root base path x nesting := by
  unfold boundedResolve Resolves
  rw [Option.bind_eq_some_iff]
  constructor
  · rintro ⟨p, hp, hx⟩
    obtain ⟨d, hd, hwalks⟩ := LinkGraph.resolve_eq_some_iff.mp hx
    exact ⟨d, hd, p, hp, hwalks⟩
  · rintro ⟨d, hd, p, hp, hwalks⟩
    exact ⟨p, hp, LinkGraph.resolve_eq_some_iff.mpr ⟨d, hd, hwalks⟩⟩

/-- **`find_fs_node` is the bounded resolution.** -/
theorem Mounted.findFsNode_ends (M : Mounted fs I node content records root)
    (hrounds : 2 ^ 32 ≤ rounds) (hI : I s) (depth : ℕ) (path : List Byte) (base : Option ℕ) :
    Ends (fun _ => False) (findFsNode fs rounds depth path (base.map node)) s fun r s' =>
      r = (boundedResolve node content records root depth base path).map node ∧ I s' := by
  induction depth generalizing path base s with
  | zero =>
    refine ends_pure ⟨?_, hI⟩
    unfold boundedResolve
    cases startOf root base path with
    | none => rfl
    | some p => rfl
  | succ depth ih =>
    -- from any directory the walk is the resolution of the graph, as its links are followed at the
    -- lower depth
    have hwalk : ∀ d path, Ends (fun _ => False)
        (walkPath fs rounds (fun symbol dir => findFsNode fs rounds depth symbol (some dir)) path
          [] (node d)) s
        fun r s' => r = ((pathGraph node content records root).resolve (depth + 1) d
          (path.splitOn slash)).map node ∧
          I s' := by
      intro d path
      have F : Follows I node (fun symbol dir => findFsNode fs rounds depth symbol (some dir))
          fun symbol d => boundedResolve node content records root depth (some d) symbol :=
        ⟨fun symbol d s hI => ih hI symbol (some d), fun _ _ _ h => boundedResolve_not_link h⟩
      refine (M.walkPath_ends hrounds F hI d path []).mono fun r s' h => ⟨?_, h.2⟩
      rw [h.1, modifyHead_nil_append]
      rfl
    cases path with
    | nil => exact ends_pure ⟨rfl, hI⟩
    | cons c rest =>
      unfold findFsNode boundedResolve startOf
      dsimp only
      split_ifs with hc
      · rw [M.root_eq]
        exact hwalk root rest
      · cases base with
        | none => exact ends_pure ⟨rfl, hI⟩
        | some b => exact hwalk b (c :: rest)

theorem startOf_append {base : Option ℕ} {path : List Byte} (hp : path ≠ []) (q : List Byte) :
    startOf root base (path ++ slash :: q) =
      (startOf root base path).map fun p => (p.1, p.2 ++ q.splitOn slash) := by
  have hsplit : ∀ l : List Byte,
      (l ++ slash :: q).splitOn slash = l.splitOn slash ++ q.splitOn slash := fun l =>
    List.splitOnP_append_cons l q (beq_self_eq_true slash)
  cases path with
  | nil => exact absurd rfl hp
  | cons c rest =>
    unfold startOf
    rw [List.cons_append]
    dsimp only
    split_ifs
    · rw [hsplit, Option.map_some]
    · rw [← List.cons_append, hsplit]
      cases base with
      | none => rfl
      | some b => rfl

theorem boundedResolve_append (depth : ℕ) (base : Option ℕ) {path q : List Byte} (hp : path ≠ [])
    (hq : q ≠ []) (hslash : q.head? ≠ some slash) :
    boundedResolve node content records root depth base (path ++ slash :: q) =
      boundedResolve node content records root depth
        (boundedResolve node content records root depth base path) q := by
  have hstart : ∀ b, startOf root b q = b.map fun b => (b, q.splitOn slash) := by
    intro b
    cases q with
    | nil => exact absurd rfl hq
    | cons c rest => exact if_neg fun hc => hslash (congrArg some hc)
  unfold boundedResolve
  rw [startOf_append hp, hstart]
  cases startOf root base path with
  | none => rfl
  | some p =>
    rw [Option.map_some, Option.bind_some, Option.bind_some, LinkGraph.resolve_append]
    cases (pathGraph node content records root).resolve depth p.1 p.2 with
    | none => rfl
    | some x => rfl

end Simulation

/-! ### A small file system -/

def smallType (x : ℕ) : ℕ := if x = 7 then 0xA else 0x8

/-- The root is the small directory; inode 7 is a link to `ab`, and inode 12 and all others are
files. -/
def smallNode (x : ℕ) : FsNode Unit :=
  if x = 2 then smallDirectory
  else ⟨x, smallType x, [97#8, 98#8], ramFile smallContent 2 (by decide)⟩

def smallFs : Fs Unit where
  root := smallDirectory
  getNode x := return if x = 0 then none else some (smallNode x)

theorem mounted_small :
    Mounted smallFs (fun _ => True) smallNode (fun _ => smallContent) (fun _ _ => smallRecords) 2 where
  root_eq := rfl
  number_eq x := by
    unfold smallNode
    split_ifs with h
    · exact h.symm
    · rfl
  getNode_zero _ := rfl
  getNode d name x s _ hx _ := by
    have h0 : x ≠ 0 := childOf_ne_zero hx
    exact ends_pure ⟨if_neg h0, trivial⟩
  serves x _ := by
    unfold smallNode
    split_ifs
    · exact serves_ramFile smallContent 1024 (by decide)
    · exact serves_ramFile smallContent 2 (by decide)
  wellFormed x hx := by
    unfold smallNode at hx ⊢
    split_ifs at hx ⊢ with h2
    · exact wellFormed_small
    · have htype : smallType x = 0x4 := of_decide_eq_true hx
      unfold smallType at htype
      split_ifs at htype
      · cases htype
      · cases htype
  link_lt x hx := by
    unfold smallNode at hx ⊢
    split_ifs at hx ⊢ with h2
    · cases hx
    · exact (by decide : 2 + 1 < 2 ^ 32)

/-- **Path resolution.**  In every file system of well-formed directories, with any links,
`find_fs_node` returns for every path, base and depth; it never returns a symbolic link; and it
returns the node that the unbounded resolution gives if that exists and nests links less than
`depth` deep, and null otherwise. -/
theorem find_fs_node_resolves {fs : Fs σ} {I : σ → Prop} {node : ℕ → FsNode σ}
    {content : ℕ → ℕ → Byte} {records : ℕ → ℕ → List Entry} {root : ℕ}
    (M : Mounted fs I node content records root) (path : List Byte) (base : Option ℕ) (depth : ℕ)
    {rounds : ℕ} (hrounds : 2 ^ 32 ≤ rounds) {s : σ} (hI : I s) :
    ∃ r s', findFsNode fs rounds depth path (base.map node) s = .ok (r.map node, s') ∧ I s' ∧
      (∀ x, r = some x → (node x).isSymlink = false) ∧
      ∀ x, r = some x ↔ ∃ nesting < depth, Resolves node content records root base path x nesting := by
  obtain ⟨_, s', hrun, rfl, hI'⟩ := (M.findFsNode_ends hrounds hI depth path base).returns fun _ h => h.elim
  exact ⟨_, s', hrun, hI', fun _ => boundedResolve_not_link, fun _ => boundedResolve_eq_some_iff⟩

/-- The path `/c` leads through the link to inode 12, if one link may be followed. -/
theorem find_fs_node_small :
    ∃ s', findFsNode smallFs (2 ^ 32) 2 [slash, 99#8] none () = .ok (some (smallNode 12), s') := by
  obtain ⟨r, s', hrun, -, -, hiff⟩ :=
    find_fs_node_resolves mounted_small [slash, 99#8] none 2 (Nat.le_refl (2 ^ 32))
    (s := ()) trivial
  have hwalks : (pathGraph smallNode (fun _ => smallContent) (fun _ _ => smallRecords) 2).Walks
      2 [[99#8]] 12
      (max (0 + 1) 0) :=
    .follow (x := 7) (y := 12) (p := (2, [[97#8, 98#8]])) rfl rfl rfl rfl rfl
      (.enter rfl rfl rfl rfl (.done 12)) (.done 12)
  obtain rfl := (hiff 12).mpr ⟨1, by decide, (2, [[99#8]]), rfl, hwalks⟩
  exact ⟨s', hrun⟩

/-- **Path resolution composes.**  The path `p/q` leads where `q` leads from where `p` leads. -/
theorem find_fs_node_composes {fs : Fs σ} {I : σ → Prop} {node : ℕ → FsNode σ} {content : ℕ → ℕ → Byte}
    {records : ℕ → ℕ → List Entry} {root : ℕ} (M : Mounted fs I node content records root) {p q : List Byte}
    (hp : p ≠ []) (hq : q ≠ []) (hslash : q.head? ≠ some slash) (base : Option ℕ) (depth : ℕ) {rounds : ℕ}
    (hrounds : 2 ^ 32 ≤ rounds) {s : σ} (hI : I s) :
    ∃ first s₁ second s₂ whole s₃, findFsNode fs rounds depth p (base.map node) s = .ok (first, s₁) ∧
      findFsNode fs rounds depth q first s₁ = .ok (second, s₂) ∧
      findFsNode fs rounds depth (p ++ slash :: q) (base.map node) s = .ok (whole, s₃) ∧
      whole.map FsNode.number = second.map FsNode.number := by
  obtain ⟨_, s₁, hfirst, rfl, hI₁⟩ := (M.findFsNode_ends hrounds hI depth p base).returns fun _ h => h.elim
  obtain ⟨_, s₂, hsecond, rfl, -⟩ := (M.findFsNode_ends hrounds hI₁ depth q _).returns fun _ h => h.elim
  obtain ⟨_, s₃, hwhole, rfl, -⟩ :=
    (M.findFsNode_ends hrounds hI depth (p ++ slash :: q) base).returns fun _ h => h.elim
  refine ⟨_, s₁, _, s₂, _, s₃, hfirst, hsecond, hwhole, ?_⟩
  rw [boundedResolve_append depth base hp hq hslash]

/-- The root and then `c`. -/
theorem find_fs_node_composes_small : ∃ first s₁ second s₂ whole s₃,
    findFsNode smallFs (2 ^ 32) 2 [slash] none () = .ok (first, s₁) ∧
      findFsNode smallFs (2 ^ 32) 2 [99#8] first s₁ = .ok (second, s₂) ∧
      findFsNode smallFs (2 ^ 32) 2 [slash, slash, 99#8] none () = .ok (whole, s₃) ∧
      whole.map FsNode.number = second.map FsNode.number :=
  find_fs_node_composes (p := [slash]) (q := [99#8]) mounted_small (by decide) (by decide)
    (by decide) none 2
    (Nat.le_refl (2 ^ 32)) trivial

end GheithOS.Files
