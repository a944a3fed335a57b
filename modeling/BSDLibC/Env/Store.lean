import Mathlib.Algebra.Order.Ring.Nat
import Mathlib.Data.List.Basic
import Mathlib.Logic.Function.Basic
import Mathlib.Tactic.Common

/-! The environment of `libc/stdlib/_env.c`, `setenv.c`, `putenv.c`, `unsetenv.c` and `getenv.c`.
Memory consists of blocks of characters and blocks of pointers. An access to a block that is not
allocated, outside of its bounds or through `NULL` has no result, and neither has a string
function on memory without a terminator. The locks are always granted.
-/

namespace BSDLibC.Env

/-- A `char *`. -/
structure Str where
  block : Nat
  offset : Nat
deriving DecidableEq, Repr

/-- A `char **`. -/
structure Vec where
  block : Nat
  offset : Nat
deriving DecidableEq, Repr

/-- An `env_node_t`; `block` is its `data`. -/
structure EnvNode where
  block : Nat
  length : Nat
  marker : UInt8
deriving DecidableEq, Repr

/-- The memory and the variables of the five files. `env_tree` holds its nodes in the order of
their addresses, as the tree operations keep them.
-/
structure State where
  chars : Nat → Option (List UInt8)
  vectors : Nat → Option (List (Option Str))
  environ : Option Vec
  allocatedEnviron : Option Vec
  allocatedEnvironSize : Nat
  envTree : List EnvNode
  marker : UInt8

inductive Errno
  | EINVAL
  | ENOMEM
deriving DecidableEq, Repr

def envArraySizeMin : Nat := 16

/-- `=` -/
def equalSign : UInt8 := 0x3d

-----------------------------------------------------------------------------------------
-- Memory
-----------------------------------------------------------------------------------------

def Str.add (p : Str) (n : Nat) : Str := { p with offset := p.offset + n }

/-- The characters of the string behind a pointer. -/
def State.cstr (s : State) (p : Str) : Option (List UInt8) := do
  let bytes ← s.chars p.block
  let text := bytes.drop p.offset
  if 0 ∈ text then some (text.takeWhile (· ≠ 0)) else none

/-- The entries from `environ` to the end of its block. -/
def State.slots (s : State) : Option (List (Option Str)) := do
  let v ← s.environ
  let slots ← s.vectors v.block
  return slots.drop v.offset

/-- `environ[i]` -/
def State.slot (s : State) (i : Nat) : Option (Option Str) := do
  let slots ← s.slots
  slots[i]?

/-- `environ[i] = x` -/
def State.setSlot (s : State) (i : Nat) (x : Option Str) : Option State := do
  let v ← s.environ
  let slots ← s.vectors v.block
  if v.offset + i < slots.length then
    some { s with
      vectors := Function.update s.vectors v.block (some (slots.set (v.offset + i) x)) }
  else
    none

/-- Writes `data` to the memory at `p`. -/
def State.write (s : State) (p : Str) (data : List UInt8) : Option State := do
  let bytes ← s.chars p.block
  if p.offset + data.length ≤ bytes.length then
    some { s with
      chars := Function.update s.chars p.block
        (some (bytes.take p.offset ++ data ++ bytes.drop (p.offset + data.length))) }
  else
    none

/-- `memcpy`. The portable version in `bcopy.c` handles overlap. -/
def State.memcpy (s : State) (dst src : Str) (n : Nat) : Option State := do
  let bytes ← s.chars src.block
  if src.offset + n ≤ bytes.length then
    s.write dst ((bytes.drop src.offset).take n)
  else
    none

/-- What `malloc` would return: a block with its contents, or `NULL`. Memory in use is not
returned.
-/
abbrev Supply := Option (Nat × (Nat → UInt8))

def State.malloc (s : State) (size : Nat) (supply : Supply) : Option (State × Str) := do
  let (block, junk) ← supply
  if (s.chars block).isSome then
    none
  else
    some ({ s with
        chars := Function.update s.chars block (some ((List.range size).map junk)) }, ⟨block, 0⟩)

/-- `free` of a block of pointers; `NULL` is ignored. -/
def State.freeVector (s : State) (v : Option Vec) : Option State :=
  match v with
  | none => some s
  | some v =>
      if v.offset = 0 ∧ (s.vectors v.block).isSome then
        some { s with vectors := Function.update s.vectors v.block none }
      else
        none

/-- `reallocarr` for pointers, which keeps what fits; the rest is `NULL` here and is cleared by
the caller. `supply` is the block that `realloc` would return, and the inner result is missing
when it fails.
-/
def State.reallocarr (s : State) (old : Option Vec) (number : Nat) (supply : Option Nat)
    : Option (Option (State × Vec)) := do
  let kept ← match old with
    | none => some []
    | some v => if v.offset = 0 then s.vectors v.block else none
  match supply with
  | none => return none
  | some block =>
      if old = some ⟨block, 0⟩ ∨ s.vectors block = none then
        let vectors := match old with
          | none => s.vectors
          | some v => Function.update s.vectors v.block none
        return some ({ s with
          vectors := Function.update vectors block
            (some (kept.take number ++ List.replicate (number - kept.length) none)) }, ⟨block, 0⟩)
      else
        return none

-----------------------------------------------------------------------------------------
-- _env.c
-----------------------------------------------------------------------------------------

/-- `__envvarnamelen` -/
def envvarnamelen (str : List UInt8) (withequal : Bool) : Nat :=
  let lName := (str.takeWhile (· ≠ equalSign)).length
  if lName = 0 then 0
  else if withequal then
    if str[lName]? ≠ some equalSign then 0 else lName
  else
    if str[lName]? = some equalSign then 0 else lName

/-- `rb_tree_find_node`, whose key is the `data` of a node. -/
def State.findNode (s : State) (envvar : Str) : Option EnvNode :=
  s.envTree.find? (fun node => node.block = envvar.block && envvar.offset = 0)

/-- `rb_tree_insert_node` -/
def insertNode (node : EnvNode) (tree : List EnvNode) : List EnvNode :=
  tree.takeWhile (fun other => other.block < node.block)
    ++ node :: tree.dropWhile (fun other => other.block < node.block)

/-- `rb_tree_remove_node` and `free` -/
def State.removeNode (s : State) (node : EnvNode) : State :=
  { s with
    envTree := s.envTree.filter (fun other => other.block ≠ node.block)
    chars := Function.update s.chars node.block none }

/-- `__freeenvvar` -/
def freeenvvar (s : State) (envvar : Str) : State :=
  match s.findNode envvar with
  | some node => s.removeNode node
  | none => s

/-- `__allocenvvar` -/
def allocenvvar (s : State) (length : Nat) (supply : Supply) : Option (State × Str) := do
  let (s, data) ← s.malloc length supply
  return ({ s with envTree := insertNode ⟨data.block, length, 0⟩ s.envTree }, data)

/-- `__canoverwriteenvvar` -/
def canoverwriteenvvar (s : State) (envvar : Str) (length : Nat) : Bool :=
  match s.findNode envvar with
  | some node => length ≤ node.length
  | none => false

/-- `while (++marker == 0);` -/
def nextMarker (marker : UInt8) : UInt8 := if marker + 1 = 0 then 1 else marker + 1

/-- The marking loop of `__scrubenv`: the nodes afterwards and `num_entries`. -/
def scrubenv.mark (marker : UInt8) : List EnvNode → List (Option Str) → Option (List EnvNode × Nat)
  | _, [] => none
  | tree, none :: _ => some (tree, 0)
  | tree, some envvar :: rest => do
      let tree := tree.map (fun node =>
        if node.block = envvar.block ∧ envvar.offset = 0 then { node with marker := marker } else node)
      let (tree, numEntries) ← scrubenv.mark marker tree rest
      return (tree, numEntries + 1)

/-- `free(allocated_environ); allocated_environ = NULL; allocated_environ_size = 0;` -/
def State.dropAllocated (s : State) : Option State := do
  let s ← s.freeVector s.allocatedEnviron
  return { s with allocatedEnviron := none, allocatedEnvironSize := 0 }

/-- The part of `__scrubenv` that deals with the array itself. -/
def scrubenv.array (s : State) (numEntries : Nat) : Option State :=
  if s.environ = s.allocatedEnviron then do
    let v ← s.environ
    let vector ← s.vectors v.block
    -- `memset` from the entry after the terminator to the end of the array.
    if numEntries + 1 ≤ s.allocatedEnvironSize
        ∧ v.offset + s.allocatedEnvironSize ≤ vector.length then
      return { s with
        vectors := Function.update s.vectors v.block
          (some (vector.take (v.offset + numEntries + 1)
            ++ List.replicate (s.allocatedEnvironSize - numEntries - 1) none
            ++ vector.drop (v.offset + s.allocatedEnvironSize))) }
    else
      none
  else
    s.dropAllocated

/-- `__scrubenv` -/
def scrubenv (s : State) : Option State := do
  let marker := nextMarker s.marker
  let slots ← s.slots
  let (tree, numEntries) ← scrubenv.mark marker s.envTree slots
  let unused := tree.filter (fun node => node.marker ≠ marker)
  scrubenv.array (unused.foldl State.removeNode { s with marker := marker, envTree := tree }) numEntries

/-- `strncmp(text, name, l_name) == 0 && text[l_name] == '='` -/
def isVariable (text name : List UInt8) (lName : Nat) : Bool :=
  text.take lName = name.take lName && text[lName]? = some equalSign

/-- The search loop of `__getenvslot`: `num_entries`, and whether there is a match. -/
def getenvslot.search (s : State) (name : List UInt8) (lName : Nat)
    : List (Option Str) → Option (Nat × Bool)
  | [] => none
  | none :: _ => some (0, false)
  | some envvar :: rest => do
      let text ← s.cstr envvar
      if isVariable text name lName then
        return (0, true)
      else
        let (numEntries, found) ← getenvslot.search s name lName rest
        return (numEntries + 1, found)

/-- `while (new_size <= required_size) new_size <<= 1;` -/
def getenvslot.newSize (requiredSize : Nat) : Nat → Nat → Nat
  | 0, newSize => newSize
  | fuel + 1, newSize =>
      if newSize ≤ requiredSize then getenvslot.newSize requiredSize fuel (newSize <<< 1) else newSize

/-- The last statements of `__getenvslot`: the entries are in the new array, the rest of it is
cleared, and it takes the place of the old one.
-/
def getenvslot.install (s : State) (newEnviron : Vec) (entries : List (Option Str))
    (numEntries newSize : Nat)
    : State :=
  { s with
    vectors := Function.update s.vectors newEnviron.block
      (some (entries.take numEntries ++ List.replicate (newSize - numEntries) none))
    environ := some newEnviron
    allocatedEnviron := some newEnviron
    allocatedEnvironSize := newSize }

/-- The new array at the end of `__getenvslot`. -/
def getenvslot.grow (s : State) (numEntries : Nat) (supply : Option Nat)
    : Option (State × Option Nat) := do
  let requiredSize := numEntries + 1
  let newSize := getenvslot.newSize requiredSize requiredSize envArraySizeMin
  let own : Bool := s.environ = s.allocatedEnviron
  let s ← if own then some s else s.dropAllocated
  match ← s.reallocarr (if own then s.environ else none) newSize supply with
  | none => return (s, none)
  | some (s, newEnviron) =>
      -- `realloc` has kept the entries, or `memcpy` takes them from the old array.
      let entries ← if own || numEntries = 0 then s.vectors newEnviron.block else s.slots
      return (getenvslot.install s newEnviron entries numEntries newSize, some numEntries)

/-- The first part of `__getenvslot`, which finds nothing without an array. -/
def getenvslot.find (s : State) (name : List UInt8) (lName : Nat) : Option (Nat × Bool) :=
  match s.environ with
  | none => some (0, false)
  | some _ => s.slots.bind (getenvslot.search s name lName)

/-- A free slot of the array of libc, which is scrubbed when something lies behind the slot. -/
def getenvslot.reuse (s : State) (numEntries : Nat) : Option (State × Option Nat) := do
  match ← s.slot (numEntries + 1) with
  | some _ => (scrubenv s).map (fun s => (s, some numEntries))
  | none => return (s, some numEntries)

/-- The second part of `__getenvslot`, behind the first scrub. -/
def getenvslot.create (s : State) (numEntries : Nat) (supply : Option Nat)
    : Option (State × Option Nat) :=
  if s.environ = s.allocatedEnviron ∧ numEntries + 1 < s.allocatedEnvironSize then
    getenvslot.reuse s numEntries
  else
    getenvslot.grow s numEntries supply

/-- `__getenvslot`; the slot is missing for -1. -/
def getenvslot (s : State) (name : List UInt8) (lName : Nat) (allocate : Bool) (supply : Option Nat)
    : Option (State × Option Nat) := do
  let (numEntries, found) ← getenvslot.find s name lName
  if found then
    return (s, some numEntries)
  else if !allocate then
    return (s, none)
  else if s.environ ≠ s.allocatedEnviron ∧ s.allocatedEnviron ≠ none then
    (scrubenv s).bind (fun s => getenvslot.create s numEntries supply)
  else
    getenvslot.create s numEntries supply

/-- `__findenvvar` -/
def findenvvar (s : State) (name : List UInt8) (lName : Nat) : Option (Option Str) := do
  match ← getenvslot s name lName false none with
  | (_, none) => return none
  | (s, some offset) => do
      let envvar ← s.slot offset
      let envvar ← envvar
      return some (envvar.add (lName + 1))

-----------------------------------------------------------------------------------------
-- setenv.c, putenv.c, unsetenv.c and getenv.c
-----------------------------------------------------------------------------------------

/-- `__envvarnamelen` on a pointer. -/
def State.namelen (s : State) (str : Option Str) (withequal : Bool) : Option Nat :=
  match str with
  | none => some 0
  | some str => (s.cstr str).map (fun text => envvarnamelen text withequal)

/-- `if (environ[offset] != NULL) __freeenvvar(environ[offset]);` -/
def State.releaseSlot (s : State) (offset : Nat) : Option State := do
  match ← s.slot offset with
  | some old => return freeenvvar s old
  | none => return s

/-- What `setenv` does with a slot that needs a new buffer. -/
def setenv.replace (s : State) (offset : Nat) (name value : Str) (lName lValue : Nat)
    (supply : Supply)
    : Option (State × Option Errno) :=
  match allocenvvar s (lName + lValue + 2) supply with
  | none => some (s, some .ENOMEM)
  | some (s, envvar) => do
      let s ← s.releaseSlot offset
      let s ← s.setSlot offset (some envvar)
      let s ← s.memcpy envvar name lName
      let s ← s.write (envvar.add lName) [equalSign]
      let s ← s.memcpy (envvar.add (lName + 1)) value (lValue + 1)
      return (s, none)

/-- What `setenv` does with the slot that it got. -/
def setenv.atSlot (s : State) (offset : Nat) (name value : Str) (lName : Nat) (rewrite : Bool)
    (buffer : Supply)
    : Option (State × Option Errno) := do
  let lValue := (← s.cstr value).length
  match ← s.slot offset with
  | none => setenv.replace s offset name value lName lValue buffer
  | some envvar =>
      if !rewrite then
        return (s, none)
      else if canoverwriteenvvar s envvar (lName + lValue + 2) then
        (s.memcpy (envvar.add (lName + 1)) value (lValue + 1)).map (fun s => (s, none))
      else
        setenv.replace s offset name value lName lValue buffer

/-- `setenv`. `vector` and `buffer` are what the allocator has for the two requests. -/
def setenv (s : State) (name value : Option Str) (rewrite : Bool) (vector : Option Nat)
    (buffer : Supply)
    : Option (State × Option Errno) := do
  let lName ← s.namelen name false
  if lName = 0 ∨ value = none then
    return (s, some .EINVAL)
  else
    let name ← name
    let value ← value
    match ← getenvslot s (← s.cstr name) lName true vector with
    | (s, none) => return (s, some .ENOMEM)
    | (s, some offset) => setenv.atSlot s offset name value lName rewrite buffer

/-- `putenv` -/
def putenv (s : State) (str : Option Str) (vector : Option Nat)
    : Option (State × Option Errno) := do
  let lName ← s.namelen str true
  if lName = 0 then
    return (s, some .EINVAL)
  else
    let str ← str
    match ← getenvslot s (← s.cstr str) lName true vector with
    | (s, none) => return (s, some .ENOMEM)
    | (s, some offset) =>
        ((s.releaseSlot offset).bind (fun s => s.setSlot offset (some str))).map (fun s => (s, none))

/-- The loop of `unsetenv`: the state, `r_offset` at the terminator and `w_offset`. -/
def unsetenv.remove (name : Str) (lName : Nat) : Nat → State → Nat → Nat → Option (State × Nat × Nat)
  | 0, _, _, _ => none
  | fuel + 1, s, rOffset, wOffset => do
      match ← s.slot (rOffset + 1) with
      | none => return (s, rOffset + 1, wOffset)
      | some envvar =>
          if isVariable (← s.cstr envvar) (← s.cstr name) lName then
            unsetenv.remove name lName fuel (freeenvvar s envvar) (rOffset + 1) wOffset
          else do
            let s ← s.setSlot wOffset (some envvar)
            unsetenv.remove name lName fuel s (rOffset + 1) (wOffset + 1)

/-- `do environ[w_offset++] = NULL; while (w_offset < r_offset);` -/
def unsetenv.clear (rOffset : Nat) : Nat → State → Nat → Option State
  | 0, _, _ => none
  | fuel + 1, s, wOffset => do
      let s ← s.setSlot wOffset none
      if wOffset + 1 < rOffset then unsetenv.clear rOffset fuel s (wOffset + 1) else return s

/-- `unsetenv`. Both loops stay inside of the array, so its length is enough fuel. -/
def unsetenv (s : State) (name : Option Str) : Option (State × Option Errno) := do
  let lName ← s.namelen name false
  if lName = 0 then
    return (s, some .EINVAL)
  else
    let name ← name
    match ← getenvslot s (← s.cstr name) lName false none with
    | (s, none) => return (s, none)
    | (s, some rOffset) => do
        let fuel := (← s.slots).length
        let envvar ← s.slot rOffset
        let s := freeenvvar s (← envvar)
        let (s, last, wOffset) ← unsetenv.remove name lName fuel s rOffset rOffset
        let s ← unsetenv.clear last fuel s wOffset
        return (s, none)

/-- `getenv` -/
def getenv (s : State) (name : Option Str) : Option (Option Str) := do
  let lName ← s.namelen name false
  if lName = 0 then
    return none
  else
    let name ← name
    findenvvar s (← s.cstr name) lName

end BSDLibC.Env
