import GheithOS.Lib.Prog
import GheithOS.BitTree.Model

/-!
# GheithOS.BitTree.Checked — the tree over a store that forgets what is deleted

The functions of `bit_tree.h` as programs that look a node up whenever the source reads or writes
one of its fields.  `delete` takes the node out of the store, and a program that comes to a node
that is no longer there stops (`Gone`).  A `delete` is itself an access.  A program that returns has
touched nodes only while they existed.

The programs follow the definitions of `Model` line by line; these go on with the old contents of a
deleted node.
-/

namespace GheithOS.BitTree

open Lib

variable {T : Type}

namespace Store

/-- The node store: what was deleted is not in it. -/
def nodes (S : Store T) (n : ℕ) : Option BitTreeNode := if n ∈ S.deletedNodes then none else some (S.node n)

end Store

/-- A program has come to a node that is not in the store. -/
structure Gone where
  node : ℕ
  deriving DecidableEq, Repr

namespace Checked

open Store

/-- The fields of a node. -/
def node (n : ℕ) : Prog Gone (Store T) BitTreeNode := do
  match (← get).nodes n with
  | some v => return v
  | none => throw ⟨n⟩

/-- A node is written, or deleted. -/
def update (n : ℕ) (f : Store T → Store T) : Prog Gone (Store T) Unit := do
  let _ ← node n
  modify f

def newNode (v : BitTreeNode) : Prog Gone (Store T) ℕ :=
  modifyGet fun S => ((S.newNode v).2, (S.newNode v).1)

/-- The child in a slot gains a reference, unless the slots hold items. -/
def addSlotRef (v : BitTreeNode) (isLastLevel : Bool) (i : Fin 32) : Prog Gone (Store T) Unit :=
  match v.pointers i with
  | some child => if isLastLevel then return () else update child (addRef · child)
  | none => return ()

/-- `BitTreeNode(other, is_last_level)`. -/
def copyNode (other : ℕ) (isLastLevel : Bool) : Prog Gone (Store T) BitTreeNode := do
  let v ← node other
  (List.finRange 32).forM (addSlotRef v isLastLevel)
  return { v with refCount := 1 }

/-- `BitTreeNode::free`. -/
def free (freeData : Bool) : ℕ → ℕ → Prog Gone (Store T) Bool
  | 0, _ => return false
  | level + 1, n => do
    update n (decRef · n)
    if 0 < (← node n).refCount then return false
    else
      (List.finRange 32).forM fun i => do
        match (← node n).pointers i with
        | none => return ()
        | some c =>
          if level = 0 then modify fun S => if freeData then S.deleteItem c else S
          else if ← free freeData level c then update c (deleteNode · c)
          else return ()
      return true

def freeNode (root : ℕ) (freeData : Bool) (level n : ℕ) : Prog Gone (Store T) Unit := do
  let _ ← free freeData level n
  if n ≠ root then update n (deleteNode · n) else return ()

/-- `*node_ref`. -/
def deref (root : ℕ) : NodeRef → Prog Gone (Store T) (Option ℕ)
  | .rootNode => return some root
  | .slot n i => return (← node n).pointers i

/-- `*node_ref = node`. -/
def writeRef (nodeRef : NodeRef) (n : ℕ) : Prog Gone (Store T) Unit :=
  match nodeRef with
  | .rootNode => return ()
  | .slot m i => update m (setPtr · m i (some n))

def newItemFrom (x : ℕ) : Prog Gone (Store T) ℕ :=
  modifyGet fun S => ((S.newItem (S.item x)).2, (S.newItem (S.item x)).1)

def copyItem (n : ℕ) (i : Fin 32) : Prog Gone (Store T) Unit := do
  match (← node n).pointers i with
  | some x =>
    let y ← newItemFrom x
    update n (setPtr · n i (some y))
  | none => return ()

/-- A leaf copies its items. -/
def copyItems (level n : ℕ) : Prog Gone (Store T) Unit :=
  if level = 1 then (List.finRange 32).forM (copyItem n) else return ()

def copyOnWrite (level : ℕ) (nodeRef : NodeRef) (n : ℕ) : Prog Gone (Store T) ℕ := do
  if 1 < (← node n).refCount then
    update n (decRef · n)
    let v ← copyNode n (level == 1)
    let m ← newNode v
    copyItems level m
    writeRef nodeRef m
    return m
  else return n

/-- An edit makes the node its own. -/
def own (action : GetEntryAction) (level : ℕ) (nodeRef : NodeRef) (n : ℕ) : Prog Gone (Store T) ℕ :=
  if action ≠ .lookup then copyOnWrite level nodeRef n else return n

def addChild (n : ℕ) (i : Fin 32) : Prog Gone (Store T) Unit := do
  let child ← newNode .empty
  update n (setBit · n i)
  update n (setPtr · n i (some child))

def ensureChild (n : ℕ) (i : Fin 32) : Prog Gone (Store T) Unit := do
  if (← node n).pointers i = none then addChild n i else return ()

/-- The bit of the entry is set or cleared. -/
def markEntry (action : GetEntryAction) (n : ℕ) (i : Fin 32) : Prog Gone (Store T) Unit :=
  match action with
  | .insert => update n (setBit · n i)
  | .delete => update n (clearBit · n i)
  | .lookup => return ()

def prune (root level n : ℕ) (i : Fin 32) : Prog Gone (Store T) Unit := do
  match (← node n).pointers i with
  | none => return ()
  | some child =>
    if (← node child).presentBits = 0 then
      update n (clearBit · n i)
      freeNode root false level child
      update n (setPtr · n i none)
    else return ()

def getEntryRef (root index : ℕ) (action : GetEntryAction) :
    ℕ → NodeRef → Prog Gone (Store T) (Option (ℕ × Fin 32))
  | 0, _ => return none
  | level + 1, nodeRef => do
    match ← deref root nodeRef with
    | none => return none
    | some n =>
      let n ← own action (level + 1) nodeRef n
      let i := getLevelIndex index (level + 1)
      if level = 0 then
        markEntry action n i
        return some (n, i)
      else if (← node n).pointers i = none ∧ action ≠ .insert then return none
      else
        ensureChild n i
        let result ← getEntryRef root index action level (.slot n i)
        if action = .delete then
          prune root level n i
          return result
        else return result

theorem slots_neZero : NeZero 32 := ⟨by decide⟩

/-- `pointers[k]`. -/
def slot (v : BitTreeNode) (k : ℕ) : Option ℕ := v.pointers (@Fin.ofNat 32 slots_neZero k)

def runQuery (isFloor : Bool) : ℕ → ℕ → Option ℕ → Prog Gone (Store T) (Option ℕ)
  | 0, _, _ => return none
  | _, _, none => return none
  | level + 1, index, some n => do
    let v ← node n
    let levelIndex := getLevelIndex index (level + 1)
    let queryIndex := computeIndex v.presentBits levelIndex isFloor
    if queryIndex = 32 then return none
    else if level = 0 then return slot v queryIndex
    else
      let moveIndex := if isFloor then 0xFFFFFFFF else 0
      let newIndex := if levelIndex = queryIndex then index else moveIndex
      match ← runQuery isFloor level newIndex (slot v queryIndex) with
      | some result => return some result
      | none =>
        let v ← node n
        let retryIndex :=
          computeIndex v.presentBits ((queryIndex + if isFloor then 0xFFFFFFFF else 1) % 2 ^ 32) isFloor
        if retryIndex = 32 then return none
        else runQuery isFloor level moveIndex (slot v retryIndex)

/-! ### The operations of a tree -/

/-- `BitTree(BitTree& other)`. -/
def copyTree (other : ℕ) : Prog Gone (Store T) ℕ := do
  let v ← copyNode other false
  modifyGet fun S => (S.next, { S.setNode S.next v with next := S.next + 1 })

/-- `~BitTree()`. -/
def destroyTree (p : Params) (root : ℕ) : Prog Gone (Store T) Unit := freeNode root true p.levels root

def clear (p : Params) (root : ℕ) : Prog Gone (Store T) Unit := do
  freeNode root true p.levels root
  update root (setNode · root .empty)

/-- `previous = *ref; *ref = item`. -/
def exchange (item : Option ℕ) : Option (ℕ × Fin 32) → Prog Gone (Store T) (Option ℕ)
  | none => return none
  | some (n, i) => do
    let previous := (← node n).pointers i
    update n (setPtr · n i item)
    return previous

/-- `*ref`. -/
def load : Option (ℕ × Fin 32) → Prog Gone (Store T) (Option ℕ)
  | none => return none
  | some (n, i) => return (← node n).pointers i

/-- `get_entry_ref` for an index in range, and the access through the slot that it returns. -/
def entry (p : Params) (root index : ℕ) (action : GetEntryAction)
    (access : Option (ℕ × Fin 32) → Prog Gone (Store T) (Option ℕ)) : Prog Gone (Store T) (Option ℕ) :=
  match p.adjustIndex index with
  | none => return none
  | some index => do
    let ref ← getEntryRef root index action p.levels .rootNode
    access ref

def insert (p : Params) (root index : ℕ) (item : Option ℕ) : Prog Gone (Store T) (Option ℕ) :=
  entry p root index .insert (exchange item)

def remove (p : Params) (root index : ℕ) : Prog Gone (Store T) (Option ℕ) :=
  entry p root index .delete (exchange none)

def lookupExact (p : Params) (root index : ℕ) : Prog Gone (Store T) (Option ℕ) :=
  entry p root index .lookup load

def query (isFloor : Bool) (p : Params) (root index : ℕ) : Prog Gone (Store T) (Option ℕ) :=
  match p.adjustIndex index with
  | none => return none
  | some index => runQuery isFloor p.levels index (some root)

end Checked

end GheithOS.BitTree
