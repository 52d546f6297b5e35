import Mathlib.Data.BitVec

/-!
# GheithOS.BitTree.Model — the tree of `bit_tree.h`

A 32-way radix tree from 32-bit indices to items.  Copies of a tree share nodes: a node counts the
slots that point to it and is copied when an edit meets it shared.

Nodes and items are objects at addresses of one store; a `void*` slot holds an address or null.
Addresses are handed out once and a deleted object keeps its contents, as `remove` still reads the
slot of a node that it has deleted.  The lists of the store record every `new` and `delete`.  A root
is a node inside its `BitTree` object, so its address is the tree's own and it is in none of these
lists.  `ref_count` is a natural number: every reference occupies memory, so there are fewer than
`2^32` of them.  Operations run one at a time, and the spin locks are left out.
-/

namespace GheithOS.BitTree

open Function

universe u

/-! ### Nodes and the store -/

structure BitTreeNode where
  refCount : ℕ
  presentBits : BitVec 32
  pointers : Fin 32 → Option ℕ

/-- `BitTreeNode()`. -/
def BitTreeNode.empty : BitTreeNode := ⟨1, 0, fun _ => none⟩

structure Store (T : Type u) where
  node : ℕ → BitTreeNode
  item : ℕ → T
  next : ℕ
  newNodes : List ℕ
  deletedNodes : List ℕ
  newItems : List ℕ
  deletedItems : List ℕ

namespace Store

variable {T : Type u}

def setNode (S : Store T) (n : ℕ) (v : BitTreeNode) : Store T := { S with node := update S.node n v }

/-- `node->ref_count++`. -/
def addRef (S : Store T) (n : ℕ) :
    Store T := S.setNode n { S.node n with refCount := (S.node n).refCount + 1 }

/-- `node->ref_count--`. -/
def decRef (S : Store T) (n : ℕ) :
    Store T := S.setNode n { S.node n with refCount := (S.node n).refCount - 1 }

/-- `node->pointers[i] = x`. -/
def setPtr (S : Store T) (n : ℕ) (i : Fin 32) (x : Option ℕ) : Store T :=
  S.setNode n { S.node n with pointers := update (S.node n).pointers i x }

/-- `node->present_bits |= 1 << i`. -/
def setBit (S : Store T) (n : ℕ) (i : Fin 32) : Store T :=
  S.setNode n { S.node n with presentBits := (S.node n).presentBits ||| 1#32 <<< i.val }

/-- `node->present_bits &= ~(1 << i)`. -/
def clearBit (S : Store T) (n : ℕ) (i : Fin 32) : Store T :=
  S.setNode n { S.node n with presentBits := (S.node n).presentBits &&& ~~~(1#32 <<< i.val) }

/-- `new BitTreeNode`, holding `v`. -/
def newNode (S : Store T) (v : BitTreeNode) : Store T × ℕ :=
  ({ S.setNode S.next v with next := S.next + 1, newNodes := S.next :: S.newNodes }, S.next)

/-- `new T(v)`. -/
def newItem (S : Store T) (v : T) : Store T × ℕ :=
  ({ S with item := update S.item S.next v, next := S.next + 1, newItems := S.next :: S.newItems }, S.next)

def deleteNode (S : Store T) (n : ℕ) : Store T := { S with deletedNodes := n :: S.deletedNodes }

def deleteItem (S : Store T) (x : ℕ) : Store T := { S with deletedItems := x :: S.deletedItems }

/-- `BitTreeNode(other, is_last_level)`: the pointers are copied, and each child gains a
reference. -/
def copyNode (S : Store T) (other : ℕ) (isLastLevel : Bool) : Store T × BitTreeNode :=
  let node := { S.node other with refCount := 1 }
  ((List.finRange 32).foldl (fun S i =>
    match node.pointers i with
    | some child => if isLastLevel then S else S.addRef child
    | none => S) S, node)

/-- `BitTreeNode::free`: drop one reference; the last one releases the children.  True if it was the
last. -/
def free (freeData : Bool) : ℕ → ℕ → Store T → Bool × Store T
  | 0, _, S => (false, S)
  | level + 1, n, S =>
    let S := S.decRef n
    if 0 < (S.node n).refCount then (false, S)
    else (true, (List.finRange 32).foldl (fun S i =>
      match (S.node n).pointers i with
      | none => S
      | some c =>
        if level = 0 then if freeData then S.deleteItem c else S
        else
          let (last, S) := free freeData level c S
          if last then S.deleteNode c else S) S)

/-- `free_node`, called by the tree at `root`. -/
def freeNode (root : ℕ) (freeData : Bool) (level n : ℕ) (S : Store T) : Store T :=
  let S := (S.free freeData level n).2
  if n ≠ root then S.deleteNode n else S

end Store

/-! ### Descending to an entry -/

/-- The template arguments. -/
structure Params where
  levels : ℕ
  offset : ℕ
  divisor : ℕ

/-- `size`: `size *= 32` for every level, in 32 bits. -/
def Params.size (p : Params) : ℕ := if p.levels = 0 then 0 else 32 ^ p.levels % 2 ^ 32

def Params.adjustIndex (p : Params) (index : ℕ) : Option ℕ :=
  if index < p.offset then none
  else
    let index := (index - p.offset) / p.divisor
    if index < p.size then some index else none

inductive GetEntryAction
  | insert
  | lookup
  | delete
  deriving DecidableEq

/-- A `BitTreeNode**`: the local variable `root_node`, or a slot of a node. -/
inductive NodeRef
  | rootNode
  | slot (node : ℕ) (i : Fin 32)

def getLevelIndex (index level : ℕ) : Fin 32 :=
  ⟨(index >>> (5 * (level - 1))) &&& 31, Nat.lt_of_le_of_lt Nat.and_le_right (by decide)⟩

namespace Store

variable {T : Type u}

/-- `*node_ref`. -/
def deref (S : Store T) (root : ℕ) : NodeRef → Option ℕ
  | .rootNode => some root
  | .slot n i => (S.node n).pointers i

/-- `*node_ref = node`; the local variable is not read again. -/
def writeRef (S : Store T) (nodeRef : NodeRef) (node : ℕ) : Store T :=
  match nodeRef with
  | .rootNode => S
  | .slot n i => S.setPtr n i (some node)

/-- `node->pointers[i] = new T(*(T*)node->pointers[i])` for every item of a leaf. -/
def copyItems (S : Store T) (n : ℕ) : Store T :=
  (List.finRange 32).foldl (fun S i =>
    match (S.node n).pointers i with
    | some x =>
      let (S, y) := S.newItem (S.item x)
      S.setPtr n i (some y)
    | none => S) S

/-- The "copy on write" of `get_entry_ref`: a shared node is replaced by a copy of its own. -/
def copyOnWrite (S : Store T) (level : ℕ) (nodeRef : NodeRef) (node : ℕ) : Store T × ℕ :=
  if 1 < (S.node node).refCount then
    let S := S.decRef node
    let (S, v) := S.copyNode node (level == 1)
    let (S, node) := S.newNode v
    let S := if level = 1 then S.copyItems node else S
    (S.writeRef nodeRef node, node)
  else (S, node)

/-- A missing child is added. -/
def addChild (S : Store T) (node : ℕ) (i : Fin 32) : Store T :=
  let (S, child) := S.newNode .empty
  (S.setBit node i).setPtr node i (some child)

/-- After a removal below: a child that has become empty is released. -/
def prune (S : Store T) (root level node : ℕ) (i : Fin 32) : Store T :=
  match (S.node node).pointers i with
  | none => S
  | some child =>
    if (S.node child).presentBits = 0 then
      ((S.clearBit node i).freeNode root false level child).setPtr node i none
    else S

/-- `get_entry_ref`: the slot of `index`, as its leaf and position in it. -/
def getEntryRef (root index : ℕ) (action : GetEntryAction) :
    ℕ → NodeRef → Store T → Store T × Option (ℕ × Fin 32)
  | 0, _, S => (S, none)
  | level + 1, nodeRef, S =>
    match S.deref root nodeRef with
    | none => (S, none)
    | some node =>
      let (S, node) := if action ≠ .lookup then S.copyOnWrite (level + 1) nodeRef node else (S, node)
      let i := getLevelIndex index (level + 1)
      if level = 0 then
        match action with
        | .insert => (S.setBit node i, some (node, i))
        | .delete => (S.clearBit node i, some (node, i))
        | .lookup => (S, some (node, i))
      else if (S.node node).pointers i = none ∧ action ≠ .insert then (S, none)
      else
        let S := if (S.node node).pointers i = none then S.addChild node i else S
        let (S, result) := getEntryRef root index action level (.slot node i) S
        (if action = .delete then S.prune root level node i else S, result)

/-! ### Queries -/

def maskBits (bits : BitVec 32) (index : ℕ) (isFloor : Bool) : BitVec 32 :=
  if isFloor then bits <<< (31 - index) >>> (31 - index) else bits >>> index <<< index

/-- The present position nearest to `index`, from below or from above; `32` if there is none. -/
def computeIndex (bits : BitVec 32) (index : ℕ) (isFloor : Bool) : ℕ :=
  if index > 31 then 32
  else
    let masked := maskBits bits index isFloor
    if masked = 0 then 32
    else if isFloor then 31 - masked.clz.toNat else masked.ctz.toNat

def runQuery (S : Store T) (isFloor : Bool) : ℕ → ℕ → Option ℕ → Option ℕ
  | 0, _, _ => none
  | _, _, none => none
  | level + 1, index, some node =>
    let bits := (S.node node).presentBits
    let levelIndex := getLevelIndex index (level + 1)
    let queryIndex := computeIndex bits levelIndex isFloor
    if queryIndex = 32 then none
    else if level = 0 then (S.node node).pointers (Fin.ofNat 32 queryIndex)
    else
      let moveIndex := if isFloor then 0xFFFFFFFF else 0
      let newIndex := if levelIndex = queryIndex then index else moveIndex
      match runQuery S isFloor level newIndex ((S.node node).pointers (Fin.ofNat 32 queryIndex)) with
      | some result => some result
      | none =>
        let retryIndex := computeIndex bits
            ((queryIndex + if isFloor then 0xFFFFFFFF else 1) % 2 ^ 32) isFloor
        if retryIndex = 32 then none
        else runQuery S isFloor level moveIndex ((S.node node).pointers (Fin.ofNat 32 retryIndex))

/-! ### The operations of a tree -/

/-- `BitTree()`: the address of the new tree's root. -/
def newTree (S : Store T) : Store T × ℕ :=
  ({ S.setNode S.next .empty with next := S.next + 1 }, S.next)

/-- `BitTree(BitTree& other)`. -/
def copyTree (S : Store T) (other : ℕ) : Store T × ℕ :=
  let (S, v) := S.copyNode other false
  ({ S.setNode S.next v with next := S.next + 1 }, S.next)

/-- `~BitTree()`. -/
def destroyTree (S : Store T) (p : Params) (root : ℕ) : Store T := S.freeNode root true p.levels root

def clear (S : Store T) (p : Params) (root : ℕ) : Store T :=
  (S.freeNode root true p.levels root).setNode root .empty

/-- `insert`, of any pointer, null or not: the previous item. -/
def insertPointer (S : Store T) (p : Params) (root index : ℕ) (item : Option ℕ) : Store T × Option ℕ :=
  match p.adjustIndex index with
  | none => (S, none)
  | some index =>
    match S.getEntryRef root index .insert p.levels .rootNode with
    | (S, none) => (S, none)
    | (S, some (n, i)) => (S.setPtr n i item, (S.node n).pointers i)

/-- `insert` of an item. -/
def insert (S : Store T) (p : Params) (root index item : ℕ) : Store T × Option ℕ :=
  S.insertPointer p root index (some item)

def lookupExact (S : Store T) (p : Params) (root index : ℕ) : Option ℕ :=
  match p.adjustIndex index with
  | none => none
  | some index =>
    match S.getEntryRef root index .lookup p.levels .rootNode with
    | (_, none) => none
    | (S, some (n, i)) => (S.node n).pointers i

def lookupFloor (S : Store T) (p : Params) (root index : ℕ) : Option ℕ :=
  match p.adjustIndex index with
  | none => none
  | some index => S.runQuery true p.levels index (some root)

def lookupCeil (S : Store T) (p : Params) (root index : ℕ) : Option ℕ :=
  match p.adjustIndex index with
  | none => none
  | some index => S.runQuery false p.levels index (some root)

/-- `remove`: the item removed. -/
def remove (S : Store T) (p : Params) (root index : ℕ) : Store T × Option ℕ :=
  match p.adjustIndex index with
  | none => (S, none)
  | some index =>
    match S.getEntryRef root index .delete p.levels .rootNode with
    | (S, none) => (S, none)
    | (S, some (n, i)) => (S.setPtr n i none, (S.node n).pointers i)

end Store

end GheithOS.BitTree
