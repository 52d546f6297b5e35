import GheithOS.Vmm.Model

/-!
# GheithOS.Vmm.StackItems — what `set_up_stack` writes, and where

`set_up_stack` moves two cursors: one writes words, the other characters.  The list of what they
write, in order, is a function of the arguments alone (`stackItems`), and `set_up_stack` is the
program that writes it (`setUpStack_eq`), in every state and for arguments of any length.
`itemAddresses` are the addresses of the bytes it writes.
-/

namespace GheithOS.Vmm

open Cow Lib
open MemoryMapping (userMemStart sharedAddress)

/-- A word for the cursor of the pointers, or a character for that of the strings. -/
inductive Item
  | pointer (w : Word)
  | char (b : BitVec 8)

/-- The items, written with the two cursors. -/
def writeItems (d : ℕ) : List Item → Cursor × Cursor → Code (Cursor × Cursor)
  | [], cursors => pure cursors
  | .pointer w :: is, (p, q) => do
    let p ← writeStackData d (.word w) p
    writeItems d is (p, q)
  | .char b :: is, (p, q) => do
    let q ← writeStackData d (.char b) q
    writeItems d is (p, q)

/-- The addresses of the bytes that are written, from the two addresses on. -/
def itemAddresses : List Item → ℕ → ℕ → List ℕ
  | [], _, _ => []
  | .pointer _ :: is, p, q => p :: (p + 1) :: (p + 2) :: (p + 3) :: itemAddresses is ((p + 4) % 2 ^ 32) q
  | .char _ :: is, p, q => q :: itemAddresses is p ((q + 1) % 2 ^ 32)

/-- The words among the items. -/
def itemWords : List Item → List Word
  | [] => []
  | .pointer w :: is => w :: itemWords is
  | .char _ :: is => itemWords is

/-- The characters among the items. -/
def itemChars : List Item → List (BitVec 8)
  | [] => []
  | .pointer _ :: is => itemChars is
  | .char b :: is => b :: itemChars is

/-- The bytes of the strings, each with its terminator. -/
def stringBytes (strs : List (List (BitVec 8))) : List (BitVec 8) := strs.flatMap fun str => str ++ [0#8]

/-- The items of a vector of strings, whose strings are written from `data` on. -/
def vectorItems : ℕ → List (List (BitVec 8)) → List Item
  | _, [] => [.pointer 0#32]
  | data, str :: strs =>
    .pointer (BitVec.ofNat 32 data) ::
      ((str ++ [0#8]).map Item.char ++ vectorItems ((data + (str.length + 1)) % 2 ^ 32) strs)

def stackPointer (totalLength : ℕ) (argv envp : List (List (BitVec 8))) : ℕ :=
  (userStackStart + 2 ^ 32 - (pointerStackSpace argv envp + totalLength) % 2 ^ 32) % 2 ^ 32 / 16 * 16

/-- Where the strings start. -/
def dataAddress (totalLength : ℕ) (argv envp : List (List (BitVec 8))) : ℕ :=
  (stackPointer totalLength argv envp + pointerStackSpace argv envp) % 2 ^ 32

/-- The items of the initial stack. -/
def stackItems (totalLength : ℕ) (argv envp : List (List (BitVec 8))) : List Item :=
  let sp := stackPointer totalLength argv envp
  let data := dataAddress totalLength argv envp
  .pointer (BitVec.ofNat 32 argv.length) :: .pointer (BitVec.ofNat 32 (sp + 12)) ::
    .pointer (BitVec.ofNat 32 (sp + 12 + 4 * (argv.length + 1))) ::
      (vectorItems data argv ++ vectorItems ((data + (stringBytes argv).length) % 2 ^ 32) envp)

/-! ### The items -/

variable {d : ℕ} {x : Datum} {cur cur' p q : Cursor} {s s' : Vm} {is : List Item}

@[simp] theorem itemWords_append (is js : List Item) :
    itemWords (is ++ js) = itemWords is ++ itemWords js := by
  induction is with
  | nil => rfl
  | cons i is ih => cases i <;> simp [itemWords, ih]

@[simp] theorem itemChars_append (is js : List Item) :
    itemChars (is ++ js) = itemChars is ++ itemChars js := by
  induction is with
  | nil => rfl
  | cons i is ih => cases i <;> simp [itemChars, ih]

@[simp] theorem itemWords_chars (bs : List (BitVec 8)) : itemWords (bs.map Item.char) = [] := by
  induction bs with
  | nil => rfl
  | cons b bs ih => exact ih

@[simp] theorem itemChars_chars (bs : List (BitVec 8)) : itemChars (bs.map Item.char) = bs := by
  induction bs with
  | nil => rfl
  | cons b bs ih => rw [List.map_cons, itemChars, ih]

theorem stringBytes_cons (str : List (BitVec 8)) (strs : List (List (BitVec 8))) :
    stringBytes (str :: strs) = str ++ [0#8] ++ stringBytes strs := List.flatMap_cons

theorem itemChars_vector (data : ℕ) (strs : List (List (BitVec 8))) :
    itemChars (vectorItems data strs) = stringBytes strs := by
  induction strs generalizing data with
  | nil => rfl
  | cons str strs ih => rw [vectorItems, itemChars, itemChars_append, itemChars_chars, ih, stringBytes_cons]

theorem length_itemWords_vector (data : ℕ) (strs : List (List (BitVec 8))) :
    (itemWords (vectorItems data strs)).length = strs.length + 1 := by
  induction strs generalizing data with
  | nil => rfl
  | cons str strs ih =>
    rw [vectorItems, itemWords, itemWords_append, itemWords_chars, List.nil_append,
      List.length_cons, ih, List.length_cons]

theorem itemChars_stack (totalLength : ℕ) (argv envp : List (List (BitVec 8))) :
    itemChars (stackItems totalLength argv envp) = stringBytes argv ++ stringBytes envp := by
  rw [stackItems, itemChars, itemChars, itemChars, itemChars_append, itemChars_vector, itemChars_vector]

theorem length_itemWords_stack (totalLength : ℕ) (argv envp : List (List (BitVec 8))) :
    (itemWords (stackItems totalLength argv envp)).length = 3 + (argv.length + 1) + (envp.length + 1) := by
  rw [stackItems, itemWords, itemWords, itemWords, itemWords_append]
  simp only [List.length_cons, List.length_append, length_itemWords_vector]
  omega

/-! ### The program -/

/-- The frame that a cursor writes to. -/
def cursorBlock (d : ℕ) (cur : Cursor) : Code ℕ :=
  if cur.currentBlock = 0 ∨ cur.address % frameSize = 0 then stackBlock cur.address d
  else pure cur.currentBlock

theorem writeStackData_eq (d : ℕ) (x : Datum) (cur : Cursor) :
    writeStackData d x cur = cursorBlock d cur >>= fun block s =>
      .ok (⟨(cur.address + x.size) % 2 ^ 32, block⟩,
        s.setRow block (x.put (s.mem block) (cur.address % frameSize))) := by
  unfold writeStackData cursorBlock
  split_ifs <;> rfl

/-- A cursor moves by the size of what is written. -/
theorem writeStackData_address (h : writeStackData d x cur s = .ok (cur', s')) :
    cur'.address = (cur.address + x.size) % 2 ^ 32 := by
  rw [writeStackData_eq] at h
  cases hm : cursorBlock d cur s with
  | error e =>
    rw [bind_of_error hm] at h
    cases h
  | ok r =>
    rw [bind_of_eq hm] at h
    obtain ⟨rfl, -⟩ := Prod.mk.inj (Except.ok.inj h)
    rfl

theorem writeItems_append (is js : List Item) (cursors : Cursor × Cursor) :
    writeItems d (is ++ js) cursors = writeItems d is cursors >>= writeItems d js := by
  induction is generalizing cursors with
  | nil => rfl
  | cons i is ih =>
    obtain ⟨p, q⟩ := cursors
    cases i <;> simp only [List.cons_append, writeItems, bind_assoc, ih]

theorem writeItems_data {cursors : Cursor × Cursor} (hq : q.address < 2 ^ 32)
    (h : writeItems d is (p, q) s = .ok (cursors, s')) :
    cursors.2.address = (q.address + (itemChars is).length) % 2 ^ 32 := by
  induction is generalizing p q s with
  | nil =>
    obtain ⟨rfl, -⟩ := Prod.mk.inj (Except.ok.inj h)
    exact (Nat.mod_eq_of_lt hq).symm
  | cons i is ih =>
    cases i with
    | pointer w =>
      cases hw : writeStackData d (.word w) p s with
      | error e =>
        rw [writeItems, bind_of_error hw] at h
        cases h
      | ok r =>
        rw [writeItems, bind_of_eq hw] at h
        exact ih hq h
    | char b =>
      cases hw : writeStackData d (.char b) q s with
      | error e =>
        rw [writeItems, bind_of_error hw] at h
        cases h
      | ok r =>
        rw [writeItems, bind_of_eq hw] at h
        have haddr : r.1.address = (q.address + 1) % 2 ^ 32 := writeStackData_address hw
        rw [ih (by omega) h, haddr, itemChars, List.length_cons, Nat.mod_add_mod]
        congr 1
        omega

theorem writeString_eq (d : ℕ) (str : List (BitVec 8)) (p q : Cursor) :
    (do let q ← writeString d str q; pure (p, q)) = writeItems d ((str ++ [0#8]).map Item.char) (p, q) := by
  induction str generalizing q with
  | nil => rfl
  | cons b str ih => simp only [List.cons_append, List.map_cons, writeItems, writeString, bind_assoc, ih]

/-- **A vector of strings** is written as its items. -/
theorem writeStrings_eq (d : ℕ) (strs : List (List (BitVec 8))) (p : Cursor) (hq : q.address < 2 ^ 32) :
    writeStrings d strs (p, q) = writeItems d (vectorItems q.address strs) (p, q) := by
  induction strs generalizing p q with
  | nil => rfl
  | cons str strs ih =>
    rw [writeStrings, vectorItems, writeItems]
    congr 1
    funext p
    rw [writeItems_append, ← writeString_eq, bind_assoc]
    funext s
    -- the next pointer is where the cursor stands behind the string
    cases hw : writeString d str q s with
    | error e => rw [bind_of_error hw, bind_of_error hw]
    | ok r =>
      have hitems := congrFun (writeString_eq d str p q) s
      rw [bind_of_eq hw] at hitems
      have haddr := writeItems_data hq hitems.symm
      rw [itemChars_chars, List.length_append] at haddr
      rw [bind_of_eq hw, bind_of_eq hw, pure_bind, ih _ (by rw [haddr]; omega)]
      exact congrArg (fun data => writeItems d (vectorItems data strs) (p, r.1) r.2) haddr

/-- **`set_up_stack` writes the items** of its arguments, from the stack pointer and from the
address of the strings on. -/
theorem setUpStack_eq (d totalLength : ℕ) (argv envp : List (List (BitVec 8))) :
    setUpStack d totalLength argv envp = (do
      let _ ← writeItems d (stackItems totalLength argv envp)
        (⟨stackPointer totalLength argv envp, 0⟩, ⟨dataAddress totalLength argv envp, 0⟩)
      return stackPointer totalLength argv envp) := by
  have hdata : dataAddress totalLength argv envp < 2 ^ 32 := Nat.mod_lt _ (Nat.two_pow_pos 32)
  show (do
    let p ← writeStackData d (.word (BitVec.ofNat 32 argv.length)) ⟨stackPointer totalLength argv envp, 0⟩
    let p ← writeStackData d (.word (BitVec.ofNat 32 (stackPointer totalLength argv envp + 12))) p
    let p ← writeStackData d
      (.word (BitVec.ofNat 32 (stackPointer totalLength argv envp + 12 + 4 * (argv.length + 1)))) p
    let cursors ← writeStrings d argv (p, ⟨dataAddress totalLength argv envp, 0⟩)
    let _ ← writeStrings d envp cursors
    return stackPointer totalLength argv envp) = _
  simp only [stackItems, writeItems, writeItems_append, bind_assoc]
  congr 1
  funext p
  congr 1
  funext p
  congr 1
  funext p
  rw [writeStrings_eq d argv p hdata]
  funext s
  cases hw : writeItems d (vectorItems (dataAddress totalLength argv envp) argv)
      (p, ⟨dataAddress totalLength argv envp, 0⟩) s with
  | error e => rw [bind_of_error hw, bind_of_error hw]
  | ok r =>
    obtain ⟨⟨p', q'⟩, s'⟩ := r
    have haddr : q'.address = _ := writeItems_data hdata hw
    rw [itemChars_vector] at haddr
    rw [bind_of_eq hw, bind_of_eq hw, writeStrings_eq d envp p' (by rw [haddr]; omega), haddr]

/-! ### The addresses -/

section Addresses

variable {argv envp : List (List (BitVec 8))}

/-- Items that do not run over the end of the address space are written behind the two addresses. -/
theorem mem_itemAddresses {p q a : ℕ} (hp : p + 4 * (itemWords is).length < 2 ^ 32)
    (hq : q + (itemChars is).length < 2 ^ 32) (h : a ∈ itemAddresses is p q) :
    p ≤ a ∧ a < p + 4 * (itemWords is).length ∨ q ≤ a ∧ a < q + (itemChars is).length := by
  induction is generalizing p q with
  | nil => cases h
  | cons i is ih =>
    cases i with
    | pointer w =>
      rw [itemWords, List.length_cons] at hp ⊢
      rw [itemChars] at hq ⊢
      rw [itemAddresses, Nat.mod_eq_of_lt (by omega)] at h
      simp only [List.mem_cons] at h
      rcases h with rfl | rfl | rfl | rfl | h
      · omega
      · omega
      · omega
      · omega
      · have := ih (by omega) hq h
        omega
    | char b =>
      rw [itemChars, List.length_cons] at hq ⊢
      rw [itemWords] at hp ⊢
      rw [itemAddresses, Nat.mod_eq_of_lt (by omega)] at h
      rcases List.mem_cons.mp h with rfl | h
      · omega
      · have := ih hp (by omega) h
        omega

/-- `total_length`, as `SYS::execve` adds it up. -/
def totalLength (argv envp : List (List (BitVec 8))) : ℕ :=
  ((stringBytes envp).length + (stringBytes argv).length) % 2 ^ 32

def stackSpaceNeeded (argv envp : List (List (BitVec 8))) : ℕ :=
  (pointerStackSpace argv envp + totalLength argv envp) % 2 ^ 32

/-- The bytes that the pointers and the strings take. -/
def bytesRequired (argv envp : List (List (BitVec 8))) : ℕ :=
  4 * (3 + (argv.length + 1) + (envp.length + 1)) + ((stringBytes argv).length + (stringBytes envp).length)

/-- What `set_up_stack` writes stays in the region of the stack, and the room for it is computed
exactly. -/
structure InStack (argv envp : List (List (BitVec 8))) : Prop where
  inside : ∀ a ∈ itemAddresses (stackItems (totalLength argv envp) argv envp)
      (stackPointer (totalLength argv envp) argv envp) (dataAddress (totalLength argv envp) argv envp),
    userStackEnd ≤ a ∧ a < userStackStart
  exact : stackSpaceNeeded argv envp = bytesRequired argv envp

theorem stackSpaceNeeded_eq (argv envp : List (List (BitVec 8))) :
    stackSpaceNeeded argv envp = bytesRequired argv envp % 2 ^ 32 := by
  rw [stackSpaceNeeded, totalLength, pointerStackSpace, ← Nat.add_mod, bytesRequired]
  congr 1
  omega

theorem stackPointer_eq (argv envp : List (List (BitVec 8))) :
    stackPointer (totalLength argv envp) argv envp =
    (userStackStart + 2 ^ 32 - bytesRequired argv envp % 2 ^ 32) % 2 ^ 32 / 16 * 16 := by
  rw [← stackSpaceNeeded_eq]
  rfl

theorem stackPointer_written (total : ℕ) (argv envp : List (List (BitVec 8))) (data : ℕ) :
    stackPointer total argv envp ∈ itemAddresses (stackItems total argv envp)
      (stackPointer total argv envp) data :=
  List.mem_cons_self

/-- When the arguments fit into user memory, the strings start behind the pointers. -/
theorem stack_layout {room : ℕ} (hroom : room ≤ sharedAddress - userMemStart)
    (halign : room % 16 = 0) (h : bytesRequired argv envp ≤ room) :
    userStackStart - room ≤ stackPointer (totalLength argv envp) argv envp ∧
    dataAddress (totalLength argv envp) argv envp =
      stackPointer (totalLength argv envp) argv envp + 4 * (3 + (argv.length + 1) + (envp.length + 1)) ∧
    stackPointer (totalLength argv envp) argv envp + bytesRequired argv envp ≤ userStackStart := by
  have hstart : userStackStart = 0xF0000000 := rfl
  have hmem : sharedAddress - userMemStart = 0x70000000 := rfl
  have hmod : bytesRequired argv envp % 2 ^ 32 = bytesRequired argv envp := Nat.mod_eq_of_lt (by omega)
  have hsp := stackPointer_eq argv envp
  rw [hmod] at hsp
  have hpointers : 4 * (3 + (argv.length + 1) + (envp.length + 1)) ≤ bytesRequired argv envp :=
    Nat.le_add_right _ _
  have hspace : pointerStackSpace argv envp = 4 * (3 + (argv.length + 1) + (envp.length + 1)) := by
    rw [pointerStackSpace, Nat.mod_eq_of_lt (by omega)]
    omega
  refine ⟨by omega, ?_, by omega⟩
  rw [dataAddress, hspace, Nat.mod_eq_of_lt (by omega)]

theorem itemAddresses_bounds {room a : ℕ} (hroom : room ≤ sharedAddress - userMemStart)
    (halign : room % 16 = 0)
    (h : bytesRequired argv envp ≤ room)
    (ha : a ∈ itemAddresses (stackItems (totalLength argv envp) argv envp)
      (stackPointer (totalLength argv envp) argv envp) (dataAddress (totalLength argv envp) argv envp)) :
    userStackStart - room ≤ a ∧ a < userStackStart := by
  have hstart : userStackStart = 0xF0000000 := rfl
  obtain ⟨hlow, hdata, hhigh⟩ := stack_layout hroom halign h
  have hwords := length_itemWords_stack (totalLength argv envp) argv envp
  have hchars : (itemChars (stackItems (totalLength argv envp) argv envp)).length =
      (stringBytes argv).length + (stringBytes envp).length := by
    rw [itemChars_stack, List.length_append]
  rw [bytesRequired] at hhigh
  have hmem := mem_itemAddresses (by omega) (by omega) ha
  omega

/-- **The arguments stay in the stack** exactly if they fit there. -/
theorem inStack_iff (argv envp : List (List (BitVec 8))) :
    InStack argv envp ↔ bytesRequired argv envp ≤ userStackSize := by
  have hend : userStackEnd = 0xEFF00000 := rfl
  have hstart : userStackStart = 0xF0000000 := rfl
  have hsize : userStackSize = 0x100000 := rfl
  constructor
  · intro h
    have hexact := h.exact
    rw [stackSpaceNeeded_eq] at hexact
    -- a larger block starts below the stack or, when the difference wraps, above it
    have hfirst := h.inside _ (stackPointer_written _ argv envp _)
    rw [stackPointer_eq] at hfirst
    omega
  · intro h
    refine ⟨fun a ha => itemAddresses_bounds (by decide) (by decide) h ha, ?_⟩
    rw [stackSpaceNeeded_eq, Nat.mod_eq_of_lt (by omega)]

end Addresses

end GheithOS.Vmm
