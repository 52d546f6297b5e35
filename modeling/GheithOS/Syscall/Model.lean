import GheithOS.Files.Cursor
import GheithOS.Files.Ext2
import GheithOS.Lib.Abort
import GheithOS.MemoryMapping.Disjoint
import GheithOS.Syscall.DescriptorList

/-!
# GheithOS.Syscall.Model — `wrapped_sys_handler`

A handler runs in the kernel, on behalf of a process, and reads and writes the memory of the process
through pointers that the process chose.  Every such access is in the model (`touch`): inside user
memory it succeeds or, if a page is not mapped, the handler is abandoned where it stands and the
caller gets `-EFAULT`; outside user memory the page fault handler panics, or kernel memory is read.
A process that a handler suspends or restarts is run again by `Process::run`, which may write the
frame of a signal handler to its memory; that is in the model too.  What a handler learns from
elsewhere in the kernel (the file system, the other processes, the input devices) is a field of
`Env`.

The state is what the calls on descriptors change: the two tables, the open files, the mapping, and
the memory.  The counts of semaphores, the contents of pipes and the children of a process are not
part of it; nor is the new image that `execve` gives to the process, of which only the addresses are
in the model.
-/

namespace GheithOS.Syscall

open Lib MemoryMapping Files Function

def userMemEnd : ℕ := sharedAddress + frameSize

/-- Why a handler is abandoned. -/
inductive Stop where
  /-- A page of user memory is not mapped. -/
  | fault
  /-- An access outside user memory. -/
  | outside
  /-- A store of `set_up_stack` beside the memory of the new program: it hits the shared page, or
  the kernel. -/
  | spilled
  /-- `Debug::panic`, `ASSERT` or `MISSING`. -/
  | panic
  deriving DecidableEq

inductive Errno where
  | ENOENT
  | ENOEXEC
  | EBADF
  | ECHILD
  | ENOMEM
  | EACCES
  | EFAULT
  | EINVAL
  | EMFILE
  | ECANCELED
  deriving DecidableEq

/-- What a handler comes to. -/
inductive Reply where
  | ok (value : ℕ)
  | error (e : Errno)
  /-- The handler does not return: the process ended, was suspended and run again, or was started
  anew. -/
  | away
  deriving DecidableEq

/-! ### Descriptors -/

inductive Kind where
  | file (length : Word)
  | folder
  | stdIn
  | stdOut
  | stdErr
  | pipeRead
  | pipeWrite
  deriving DecidableEq

namespace Kind

def isReadable : Kind → Bool
  | file _ | pipeRead | stdIn => true
  | _ => false

def isWritable : Kind → Bool
  | stdOut | stdErr | pipeWrite => true
  | _ => false

def isTty : Kind → Bool
  | stdIn | stdOut | stdErr => true
  | _ => false

end Kind

/-- A `FileDescriptor`. -/
structure Open where
  kind : Kind
  offset : Word
  deriving DecidableEq

/-- The tables of a process; their entries are the numbers of the objects they share. -/
abbrev Table := DescriptorList ℕ 100

/-! ### The state -/

structure World where
  mem : ℕ → Byte
  files : Table
  sems : Table
  opened : ℕ → Open
  openedCount : ℕ
  semCount : ℕ
  mappings : Mappings
  cwd : Option ℕ
  signalHandler : ℕ

inductive NodeKind where
  | file (length : Word)
  | dir
  | other
  deriving DecidableEq

structure Node where
  number : ℕ
  kind : NodeKind

/-- What the handler learns from elsewhere. -/
structure Env where
  /-- The pages of user memory that are mapped. -/
  mapped : ℕ → Bool
  /-- The tree of the process among the mappings. -/
  tree : ℕ
  lookup : Option ℕ → List Byte → Option Node
  isElf : Node → Bool
  readByte : ℕ → Word → Byte
  getchar : Byte
  newPid : ℕ
  readyQueueIsEmpty : Bool
  /-- The exit code of the child that `join` waits for, if there is a child and it has ended. -/
  join : Option (Option ℕ)
  permit : Bool
  inSignalHandler : Bool
  /-- `after_signal_context.esp`. -/
  savedEsp : ℕ
  /-- `kill_argument`, if `is_killed` when the process is run again. -/
  killed : Option ℕ
  /-- The same of the child of `fork`, when it is run first. -/
  childKilled : Option ℕ
  /-- What comes through a pipe; none is the end. -/
  received : Option Byte
  /-- The first child, and whether it has been killed. -/
  child : Option Bool
  isPressed : ℕ → ℕ
  isHeld : ℕ → ℕ
  keyEvent : ℕ
  mouseEvent : ℕ

/-- A new process, with the terminal at the descriptors 0, 1 and 2 and the root as its directory. -/
def newProcess (mem : ℕ → Byte) : World where
  mem := mem
  files := ((DescriptorList.empty.set 0 (some 0)).set 1 (some 1)).set 2 (some 2)
  sems := DescriptorList.empty
  opened := fun id => ⟨if id = 0 then .stdIn else if id = 1 then .stdOut else .stdErr, 0#32⟩
  openedCount := 3
  semCount := 0
  mappings := emptyMapping
  cwd := some 2
  signalHandler := 0

/-- Surroundings in which nothing happens. -/
def idle (mapped : ℕ → Bool) : Env where
  mapped := mapped
  tree := 0
  lookup := fun _ _ => none
  isElf := fun _ => false
  readByte := fun _ _ => 0#8
  getchar := 0#8
  newPid := 0
  readyQueueIsEmpty := true
  join := none
  permit := true
  inSignalHandler := false
  savedEsp := 0
  killed := none
  childKilled := none
  received := none
  child := none
  isPressed := fun _ => 0
  isHeld := fun _ => 0
  keyEvent := 0
  mouseEvent := 0

abbrev Sys := EStateM Stop World

/-! ### User memory -/

/-- The bytes `[a, a + n)` lie in user memory. -/
def InUser (a n : ℕ) : Prop := userMemStart ≤ a ∧ a + n ≤ userMemEnd

instance (a n : ℕ) : Decidable (InUser a n) := inferInstanceAs (Decidable (_ ∧ _))

/-- The pages of these bytes are mapped. -/
def Mapped (env : Env) (a n : ℕ) : Prop :=
  env.mapped (a / frameSize) = true ∧ env.mapped ((a + n - 1) / frameSize) = true

instance (env : Env) (a n : ℕ) : Decidable (Mapped env a n) := inferInstanceAs (Decidable (_ ∧ _))

/-- An access of the kernel to `n` bytes at a user pointer. -/
def touch (env : Env) (a n : ℕ) : Sys Unit :=
  if InUser a n then if Mapped env a n then pure () else throw .fault else throw .outside

/-- The `uint32_t` at an address. -/
def word (mem : ℕ → Byte) (a : ℕ) : ℕ := littleEndian (window mem a 4)

def putWord (mem : ℕ → Byte) (a v : ℕ) : ℕ → Byte := fun b =>
  if a ≤ b ∧ b < a + 4 then BitVec.ofNat 8 (v / 256 ^ (b - a)) else mem b

/-- A load of one byte or of a word. -/
def load (env : Env) (size a : ℕ) : Sys ℕ := do
  touch env a size
  let w ← get
  return littleEndian (window w.mem a size)

def store8 (env : Env) (a : ℕ) (b : Byte) : Sys Unit := do
  touch env a 1
  modify fun w => { w with mem := update w.mem a b }

def store32 (env : Env) (a v : ℕ) : Sys Unit := do
  touch env a 4
  modify fun w => { w with mem := putWord w.mem a v }

def argAddress (sysArgs k : ℕ) : ℕ := (sysArgs + 4 * k) % 2 ^ 32

def arg (env : Env) (sysArgs k : ℕ) : Sys ℕ := load env 4 (argAddress sysArgs k)

/-- `validate_address` of an address. -/
def validateAddress (address offset scale : ℕ) : Bool :=
  if 0 < offset ∧ checkBounds address 0 1 userMemStart userMemEnd = false then false
  else checkBounds address offset scale userMemStart userMemEnd

/-- `validate_address` of a pointer to values of the given size. -/
def validatePointer (size pointer offset : ℕ) : Bool :=
  validateAddress pointer 0 1 &&
    (offset == 0 || validateAddress ((pointer + size - 1) % 2 ^ 32) (offset - 1) size)

/-- The loop of `validate_and_count`.  The addresses grow inside user memory, so that 2^31 rounds
are enough. -/
def countLoop (env : Env) (size arr : ℕ) : ℕ → ℕ → Sys (Option ℕ)
  | 0, _ => return none
  | fuel + 1, count => do
    let x ← load env size ((arr + count * size) % 2 ^ 32)
    if x = 0 then return some count
    else if validatePointer size ((arr + (count + 1) * size) % 2 ^ 32) 1
        then countLoop env size arr fuel (count + 1)
    else return none

def rounds : ℕ := 2 ^ 31

/-- `Utils::validate_and_count`; none is -1. -/
def validateAndCount (env : Env) (size arr : ℕ) : Sys (Option ℕ) :=
  if validatePointer size arr 1 then countLoop env size arr rounds 0 else return none

/-- A string that is read again, without checks. -/
def scanLoop (env : Env) (p : ℕ) : ℕ → ℕ → Sys (List Byte)
  | 0, _ => return []
  | fuel + 1, j => do
    let x ← load env 1 ((p + j) % 2 ^ 32)
    if x = 0 then return []
    else
      let rest ← scanLoop env p fuel (j + 1)
      return BitVec.ofNat 8 x :: rest

def scan (env : Env) (p : ℕ) : Sys (List Byte) := scanLoop env p rounds 0

/-! ### The tables -/

/-- `file_descriptors.alloc`. -/
def allocFile (id : ℕ) : Sys ℕ := do
  let w ← get
  match w.files.alloc id with
  | some (i, files) =>
    set { w with files := files }
    return i
  | none => throw .panic

/-- A new `FileDescriptor`. -/
def makeFile (kind : Kind) : Sys ℕ := do
  let w ← get
  set { w with opened := update w.opened w.openedCount ⟨kind, 0#32⟩, openedCount := w.openedCount + 1 }
  return w.openedCount

/-- The descriptor that a number stands for, if there is one. -/
def descriptor (index : ℕ) : Sys (Option (ℕ × Open)) := do
  let w ← get
  match w.files.get index with
  | some (some id) => return some (id, w.opened id)
  | _ => return none

/-! ### The handlers -/

section Handlers

variable (env : Env) (sysArgs esp : ℕ)

/-- `memcpy` to user memory. -/
def storeBytes (a : ℕ) : List Byte → Sys Unit
  | [] => return ()
  | b :: bs => do
    store8 env a b
    storeBytes (a + 1) bs

def sigreturnBytecode : List Byte := [0xb8#8, 0xee#8, 0x03#8, 0x00#8, 0x00#8, 0xcd#8, 0x30#8]

/-- The stack of a signal handler, below the interrupted one. -/
def signalStack (esp : ℕ) : ℕ :=
  (esp + 2 ^ 32 - (128 + 4 * 3 + sigreturnBytecode.length)) % 2 ^ 32 / 16 * 16

/-- The frame of a signal handler: where it returns to, its arguments, and the code it returns
to. -/
def writeFrame (userStack code argument : ℕ) : Sys Unit := do
  store32 env userStack (userStack + 12)
  store32 env (userStack + 4) code
  store32 env (userStack + 8) argument
  storeBytes env (userStack + 12) sigreturnBytecode

def runSignalHandler (inSignalHandler : Bool) (code argument : ℕ) : Sys Unit := do
  let w ← get
  if w.signalHandler = 0 ∨ inSignalHandler = true then return ()
  else
    let userStack := signalStack esp
    if validatePointer 4 userStack 3 then writeFrame env userStack code argument else return ()

/-- `Process::run`: a signal is delivered first.  (While the kernel is interrupted the call is only
put off.) -/
def run (killed : Option ℕ) (inSignalHandler : Bool) : Sys Reply :=
  match killed with
  | some killArgument => do
    runSignalHandler env esp inSignalHandler 2 killArgument
    return .away
  | none => return .away

/-- `process->run()` for the caller, with its stack pointer. -/
def resume : Sys Reply := run env esp env.killed env.inSignalHandler

/-- The child of `fork` runs on a copy of the memory: what it does there is its own affair, unless
it leaves user memory. -/
def inChild (m : Sys Reply) : Sys Unit := fun w =>
  match m w with
  | .error .outside _ => .error .outside w
  | _ => .ok () w

/-! #### The calls -/

def sysExit : Sys Reply := do
  if validatePointer 4 sysArgs 1 then
    let _ ← arg env sysArgs 0
    return .away
  else return .away

def sysFork : Sys Reply := do
  inChild (run env esp env.childKilled env.inSignalHandler)
  return .ok env.newPid

def sysYield : Sys Reply := if env.readyQueueIsEmpty then return .ok 0 else resume env esp

def sysJoin : Sys Reply :=
  match env.join with
  | none => return .error .ECHILD
  | some (some code) => return .ok code
  | some none => resume env esp

/-- The strings of `argv` or `envp`, checked, and added to `total_length`. -/
def checkStrings (arr : ℕ) : List ℕ → ℕ → Sys (Option ℕ)
  | [], total => return some total
  | i :: is, total => do
    let p ← load env 4 ((arr + i * 4) % 2 ^ 32)
    match ← validateAndCount env 1 p with
    | none => return none
    | some length => checkStrings arr is ((total + length + 1) % 2 ^ 32)

/-- The number of strings in `argv` or `envp`. -/
def countStrings (arr : ℕ) : Sys (Option ℕ) :=
  if arr = 0 then return some 0 else validateAndCount env 4 arr

/-- The checks of `SYS::execve`: `n_args`, `n_envs` and `total_length`, or the error it returns. -/
def checkArguments (path argv envp : ℕ) : Sys (Except Errno (ℕ × ℕ × ℕ)) := do
  match ← validateAndCount env 1 path with
  | none => return .error .EFAULT
  | some _ => do
    match ← countStrings env argv with
    | none => return .error .EFAULT
    | some nArgs => do
      match ← countStrings env envp with
      | none => return .error .EFAULT
      | some nEnvs => do
        match ← checkStrings env envp (List.range nEnvs) 0 with
        | none => return .error .EFAULT
        | some total => do
          match ← checkStrings env argv (List.range nArgs) total with
          | none => return .error .EFAULT
          | some total => do
            let name ← scan env path
            let w ← get
            match env.lookup w.cwd name with
            | none => return .error .ENOENT
            | some node =>
              match node.kind with
              | .file _ => return if env.isElf node then .ok (nArgs, nEnvs, total) else .error .ENOEXEC
              | _ => return .error .EACCES

/-- `write_stack_data`: the next address.  In the memory of the new program the store goes to a
frame that only the new program has. -/
def writeStackData (size address : ℕ) : Sys ℕ :=
  if userMemStart ≤ address ∧ address + size ≤ sharedAddress then return (address + size) % 2 ^ 32
  else throw .spilled

/-- `argv[i][j]`. -/
def stringByte (arr i j : ℕ) : Sys ℕ := do
  let p ← load env 4 ((arr + i * 4) % 2 ^ 32)
  load env 1 ((p + j) % 2 ^ 32)

/-- The loop of `set_up_stack` over the bytes of a string; a string ends inside user memory. -/
def copyString (arr i : ℕ) : ℕ → ℕ → ℕ → Sys ℕ
  | 0, _, data => return data
  | fuel + 1, j, data => do
    let x ← stringByte env arr i j
    if x = 0 then return data
    else
      let _ ← stringByte env arr i j
      let data ← writeStackData 1 data
      copyString arr i fuel (j + 1) data

/-- The loop of `set_up_stack` over the strings, with its addresses for pointers and for data. -/
def copyStrings (arr : ℕ) : List ℕ → ℕ → ℕ → Sys (ℕ × ℕ)
  | [], pointer, data => return (pointer, data)
  | i :: is, pointer, data => do
    let pointer ← writeStackData 4 pointer
    let data ← copyString env arr i rounds 0 data
    let data ← writeStackData 1 data
    copyStrings arr is pointer data

/-- The stores of `set_up_stack`, from its two addresses on. -/
def fillStack (argv nArgs envp nEnvs pointer data : ℕ) : Sys Unit := do
  let pointer ← writeStackData 4 pointer
  let pointer ← writeStackData 4 pointer
  let pointer ← writeStackData 4 pointer
  let (pointer, data) ← copyStrings env argv (List.range nArgs) pointer data
  let pointer ← writeStackData 4 pointer
  let (pointer, _) ← copyStrings env envp (List.range nEnvs) pointer data
  let _ ← writeStackData 4 pointer

/-- `VMM::set_up_stack`. -/
def setUpStack (totalLength argv nArgs envp nEnvs : ℕ) : Sys Unit :=
  let pointerStackSpace := (4 + 4 + 4 + 4 * (nArgs + 1) + 4 * (nEnvs + 1)) % 2 ^ 32
  let stackSpaceNeeded := (pointerStackSpace + totalLength) % 2 ^ 32
  let stackPointer := (sharedAddress + 2 ^ 32 - stackSpaceNeeded) % 2 ^ 32 / 16 * 16
  fillStack env argv nArgs envp nEnvs stackPointer ((stackPointer + pointerStackSpace) % 2 ^ 32)

/-- `SYS::execve`.  The process is started anew without a signal handler, so that `run` stores
nothing. -/
def execve (path argv envp : ℕ) : Sys Reply := do
  match ← checkArguments env path argv envp with
  | .error e => return .error e
  | .ok (nArgs, nEnvs, totalLength) => do
    setUpStack env totalLength argv nArgs envp nEnvs
    return .away

def sysExecve : Sys Reply := do
  if validatePointer 4 sysArgs 1 then
    let path ← arg env sysArgs 0
    let argv ← arg env sysArgs 1
    let envp ← arg env sysArgs 2
    execve env path argv envp
  else return .error .EFAULT

def sysSem : Sys Reply := do
  if validatePointer 4 sysArgs 1 then
    let w ← get
    if w.sems.canAlloc 1 then
      let _ ← arg env sysArgs 0
      let w ← get
      match w.sems.alloc w.semCount with
      | some (i, sems) =>
        set { w with sems := sems, semCount := w.semCount + 1 }
        return .ok i
      | none => throw .panic
    else return .error .EMFILE
  else return .error .EFAULT

/-- `up` and `down`: the semaphore has to be there. -/
def sysUpDown (next : Sys Reply) : Sys Reply := do
  if validatePointer 4 sysArgs 1 then
    let index ← arg env sysArgs 0
    let w ← get
    match w.sems.get index with
    | some (some _) => next
    | _ => return .error .EBADF
  else return .error .EFAULT

def sysSemClose : Sys Reply := do
  if validatePointer 4 sysArgs 1 then
    let index ← arg env sysArgs 0
    let w ← get
    let (removed, sems) := w.sems.remove index
    if removed then
      set { w with sems := sems }
      return .ok 0
    else return .error .EBADF
  else return .error .EFAULT

def sysSignal : Sys Reply := do
  if validatePointer 4 sysArgs 1 then
    let handler ← arg env sysArgs 0
    if validateAddress handler 0 1 then
      let handler ← arg env sysArgs 0
      modify fun w => { w with signalHandler := handler }
      return .ok 0
    else return .error .EFAULT
  else return .error .EFAULT

/-- `sigreturn`, which ends the signal handler before it runs the process. -/
def sysSigreturn : Sys Reply :=
  if env.inSignalHandler then run env env.savedEsp env.killed false else return .error .ECANCELED

/-- `memory_mapping.map`. -/
def mapMemory (start size : ℕ) (file : Option ℕ) (fileOffset fileSize : ℕ) : Sys Reply := do
  let w ← get
  match map w.mappings env.tree start size file fileOffset fileSize with
  | (mappings, .ok start) =>
    set { w with mappings := mappings }
    return .ok start
  | (mappings, .error .EINVAL) =>
    set { w with mappings := mappings }
    return .error .EINVAL
  | (mappings, .error .ENOMEM) =>
    set { w with mappings := mappings }
    return .error .ENOMEM

def sysMmap : Sys Reply := do
  if validatePointer 4 sysArgs 4 then
    let start ← arg env sysArgs 0
    let size ← arg env sysArgs 1
    let file ← arg env sysArgs 2
    if file = 2 ^ 32 - 1 then mapMemory env start size none 0 0
    else
      let offset ← arg env sysArgs 3
      if offset % frameSize ≠ 0 then return .error .EINVAL
      else
        match ← descriptor file with
        | some (id, ⟨.file length, _⟩) =>
          if length.toNat ≤ offset then mapMemory env start size none 0 0
          else mapMemory env start size (some id) offset length.toNat
        | _ => return .error .EBADF
  else return .error .EFAULT

def sysMunmap : Sys Reply := do
  if validatePointer 4 sysArgs 1 then
    let address ← arg env sysArgs 0
    let w ← get
    let (mappings, result) := unmap w.mappings env.tree address
    set { w with mappings := mappings }
    if result.size = 0 then return .error .EINVAL else return .ok 0
  else return .error .EFAULT

/-- `Process::change_cwd`. -/
def changeCwd (path : ℕ) : Sys Unit := do
  let name ← scan env path
  modify fun w => { w with cwd := match env.lookup w.cwd name with
    | some ⟨number, .dir⟩ => some number
    | _ => none }

/-- `chdir`; while the path is checked there is no current directory. -/
def sysChdir : Sys Reply := do
  let w ← get
  let previousCwdInode := w.cwd.getD 0
  set { w with cwd := none }
  if validatePointer 4 sysArgs 1 then
    let path ← arg env sysArgs 0
    match ← validateAndCount env 1 path with
    | none => return .error .EFAULT
    | some _ => do
      if previousCwdInode ≠ 0 then modify fun w => { w with cwd := some previousCwdInode }
      changeCwd env path
      return .ok 0
  else return .error .EFAULT

def sysOpen : Sys Reply := do
  if validatePointer 4 sysArgs 1 then
    let path ← arg env sysArgs 0
    match ← validateAndCount env 1 path with
    | none => return .error .EFAULT
    | some _ => do
      let w ← get
      if w.files.canAlloc 1 then
        let name ← scan env path
        match env.lookup w.cwd name with
        | none => return .error .ENOENT
        | some node =>
          match node.kind with
          | .file length =>
            let id ← makeFile (.file length)
            let i ← allocFile id
            return .ok i
          | .dir =>
            let id ← makeFile .folder
            let i ← allocFile id
            return .ok i
          | .other => throw .panic
      else return .error .EMFILE
  else return .error .EFAULT

def sysClose : Sys Reply := do
  if validatePointer 4 sysArgs 1 then
    let index ← arg env sysArgs 0
    let w ← get
    let (removed, files) := w.files.remove index
    if removed then
      set { w with files := files }
      return .ok 0
    else return .error .EBADF
  else return .error .EFAULT

def sysLen : Sys Reply := do
  if validatePointer 4 sysArgs 1 then
    let index ← arg env sysArgs 0
    match ← descriptor index with
    | some (_, ⟨.file length, _⟩) => return .ok length.toNat
    | _ => return .error .EBADF
  else return .error .EFAULT

/-- `FileDescriptor::read` of one byte. -/
def readOne (buffer id : ℕ) (file : Open) : Sys Reply :=
  match file.kind with
  | .file length => do
    let updated := kMin (file.offset + 1#32) length - file.offset
    modify fun w => { w with opened := update w.opened id { file with offset := file.offset + updated } }
    -- behind the end `read_all` stores nothing
    if file.offset < length then store8 env buffer (env.readByte id file.offset)
    return .ok updated.toNat
  | .pipeRead =>
    match env.received with
    | some b => do
      store8 env buffer b
      resume env esp
    | none => resume env esp
  | .stdIn => do
    store8 env buffer env.getchar
    return .ok 1
  | _ => throw .panic

def sysRead : Sys Reply := do
  if validatePointer 4 sysArgs 3 then
    let n ← arg env sysArgs 2
    if n = 0 then return .ok 0
    else
      let buffer ← arg env sysArgs 1
      if validatePointer 1 buffer 1 then
        let b ← load env 1 buffer
        store8 env buffer (BitVec.ofNat 8 b)
        let index ← arg env sysArgs 0
        match ← descriptor index with
        | some (id, file) =>
          if file.kind.isReadable then readOne env esp buffer id file else return .error .EBADF
        | none => return .error .EBADF
      else return .error .EFAULT
  else return .error .EFAULT

/-- `FileDescriptor::write` of one byte. -/
def writeOne (buffer : ℕ) (file : Open) : Sys Reply :=
  match file.kind with
  | .stdOut | .stdErr => do
    let _ ← load env 1 buffer
    return .ok 1
  | .pipeWrite => do
    let _ ← load env 1 buffer
    resume env esp
  | _ => throw .panic

def sysWrite : Sys Reply := do
  if validatePointer 4 sysArgs 3 then
    let n ← arg env sysArgs 2
    if n = 0 then return .ok 0
    else
      let buffer ← arg env sysArgs 1
      if validatePointer 1 buffer 1 then
        -- `(void)buffer[0]` is no access
        let index ← arg env sysArgs 0
        match ← descriptor index with
        | some (_, file) =>
          if file.kind.isWritable then writeOne env esp buffer file else return .error .EBADF
        | none => return .error .EBADF
      else return .error .EFAULT
  else return .error .EFAULT

/-- `*descriptors[k] = alloc(from_bounded_buffer(..))`.  The right side is evaluated first, so the
descriptor is in the table before its number is stored, and the pointer is read after that. -/
def assignDescriptor (k : ℕ) (kind : Kind) : Sys Unit := do
  let id ← makeFile kind
  let i ← allocFile id
  let target ← arg env sysArgs k
  store32 env target i

def rewriteArg (k : ℕ) : Sys Unit := do
  let x ← arg env sysArgs k
  store32 env (argAddress sysArgs k) x

def sysPipe : Sys Reply := do
  if validatePointer 4 sysArgs 2 then
    let first ← arg env sysArgs 0
    if validatePointer 4 first 1 then
      let second ← arg env sysArgs 1
      if validatePointer 4 second 1 then
        rewriteArg env sysArgs 0
        rewriteArg env sysArgs 1
        let w ← get
        if w.files.canAlloc 2 then
          assignDescriptor env sysArgs 0 .pipeWrite
          assignDescriptor env sysArgs 1 .pipeRead
          return .ok 0
        else return .error .EMFILE
      else return .error .EFAULT
    else return .error .EFAULT
  else return .error .EFAULT

def sysDup : Sys Reply := do
  if validatePointer 4 sysArgs 1 then
    let w ← get
    if w.files.canAlloc 1 then
      let index ← arg env sysArgs 0
      match ← descriptor index with
      | some (id, _) => do
        let i ← allocFile id
        return .ok i
      | none => return .error .EBADF
    else return .error .EMFILE
  else return .error .EFAULT

def sysKill : Sys Reply := do
  if validatePointer 4 sysArgs 1 then
    let _ ← arg env sysArgs 0
    match env.child with
    | some false => return .ok 0
    | _ => return .error .ECHILD
  else return .error .EFAULT

/-- `lseek` of `syscall.cc`. -/
def lseek (index offset whence : ℕ) : Sys Reply := do
  match ← descriptor index with
  | some (id, ⟨.file length, current⟩) =>
    match seekTarget current length (BitVec.ofNat 32 offset) (BitVec.ofNat 32 whence) with
    | none => return .error .EINVAL
    | some newOffset =>
      if newOffset.toInt < 0 then return .error .EINVAL
      else
        modify fun w => { w with opened := update w.opened id ⟨.file length, newOffset⟩ }
        return .ok newOffset.toNat
  | _ => return .error .EBADF

def sysLseek : Sys Reply := do
  if validatePointer 4 sysArgs 3 then
    let index ← arg env sysArgs 0
    let offset ← arg env sysArgs 1
    let whence ← arg env sysArgs 2
    lseek index offset whence
  else return .error .EFAULT

def sysIsatty : Sys Reply := do
  if validatePointer 4 sysArgs 1 then
    let index ← arg env sysArgs 0
    match ← descriptor index with
    | some (_, file) => return .ok (if file.kind.isTty then 1 else 0)
    | none => return .error .EBADF
  else return .error .EFAULT

/-- `is_pressed` and `is_held`. -/
def sysKey (state : ℕ → ℕ) : Sys Reply := do
  if validatePointer 4 sysArgs 1 then
    let key ← arg env sysArgs 0
    if key < 1 ∨ 125 < key then return .error .EINVAL else return .ok (state key)
  else return .error .EFAULT

end Handlers

/-- `wrapped_sys_handler`, for the stack pointer of the user. -/
def wrappedSysHandler (env : Env) (esp syscallType : ℕ) : Sys Reply :=
  let sysArgs := (esp + 4) % 2 ^ 32
  match syscallType with
  | 0 => sysExit env sysArgs
  | 2 => sysFork env esp
  | 7 => return .away
  | 998 => sysYield env esp
  | 999 => sysJoin env esp
  | 1000 => sysExecve env sysArgs
  | 1001 => sysSem env sysArgs
  | 1002 => sysUpDown env sysArgs (return .ok 0)
  | 1003 => sysUpDown env sysArgs (if env.permit then return .ok 0 else resume env esp)
  | 1004 => sysSignal env sysArgs
  | 1005 => sysMmap env sysArgs
  | 1006 => sysSigreturn env
  | 1007 => sysSemClose env sysArgs
  | 1008 => sysMunmap env sysArgs
  | 1020 => sysChdir env sysArgs
  | 1021 => sysOpen env sysArgs
  | 1022 => sysClose env sysArgs
  | 1023 => sysLen env sysArgs
  | 1024 => sysRead env sysArgs esp
  | 1 | 1025 => sysWrite env sysArgs esp
  | 1026 => sysPipe env sysArgs
  | 1027 => sysKill env sysArgs
  | 1028 => sysDup env sysArgs
  | 1029 => sysLseek env sysArgs
  | 1050 => sysIsatty env sysArgs
  | 2000 => sysKey env sysArgs env.isPressed
  | 2001 => return .ok env.keyEvent
  | 2003 => return .ok env.mouseEvent
  | 2004 => sysKey env sysArgs env.isHeld
  | _ => throw .panic

end GheithOS.Syscall
