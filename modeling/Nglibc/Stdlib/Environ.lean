import Mathlib.Tactic

/-! The environment functions of `stdlib/setenv.c`, `stdlib/getenv.c` and `stdlib/putenv.c`.
Strings are the bytes before their null terminator. A computation that is `none` reads or writes
outside an array or behind the end of a string.
-/

namespace Nglibc.Stdlib

/-- The bytes of a C string, without the null byte. -/
abbrev CString := List UInt8

/-- `'='`. -/
def equalSign : UInt8 := 61

/-- A cell of an environment array; `none` is `NULL`. -/
abbrev Cell := Option CString

/-- The environment variables of the C library: the pointers `environ` and `last_environ`, the
arrays there are, and the strings of the tree `known_values`. The pointers from `next` on have
not been handed out; an array that was freed has no cells.
-/
structure EnvState where
  environ : Option Nat
  lastEnviron : Option Nat
  arrays : Nat → List Cell
  next : Nat
  knownValues : List CString

/-- What the system does for one call: the contents of the block that `realloc` returns, if it
returns one, whether the stack is used for temporary strings, and which of the other
allocations succeed.
-/
structure EnvMemory where
  realloc : Option (Nat → Cell)
  useAlloca : Bool
  mallocNewValue : Bool
  mallocNp : Bool
  tsearchNode : Bool
  strndup : Bool

/-- The byte at index `i`, which may be the null terminator. -/
def charAt (s : CString) (i : Nat) : Option UInt8 :=
  if i < s.length then s[i]? else if i = s.length then some 0 else none

/-- `strncmp (s, t, n) == 0`. -/
def strncmpEqual : CString → CString → Nat → Bool
  | _, _, 0 => true
  | [], [], _ + 1 => true
  | a :: s, b :: t, n + 1 => a == b && strncmpEqual s t n
  | _, _, _ + 1 => false

/-- The test of `__add_to_environ` and `unsetenv`:
`!strncmp (*ep, name, namelen) && (*ep)[namelen] == '='`.
-/
def entryMatches (entry name : CString) : Option Bool :=
  if strncmpEqual entry name name.length then
    (charAt entry name.length).map (· == equalSign)
  else some false

/-- The loop of `__add_to_environ`: the index of the cell where it stops. -/
def findEntry (name : CString) : List Cell → Option Nat
  | [] => none
  | none :: _ => some 0
  | some entry :: cells => do
    let found ← entryMatches entry name
    if found then return 0
    else
      let size ← findEntry name cells
      return size + 1

namespace EnvState

def cells (s : EnvState) (pointer : Option Nat) : List Cell :=
  match pointer with
  | none => []
  | some p => s.arrays p

/-- The array behind the pointer with new contents. -/
def setCells (s : EnvState) (p : Nat) (cells : List Cell) : EnvState :=
  { s with arrays := fun q => if q = p then cells else s.arrays q }

end EnvState

/-- `n` cells that start with `kept`; the others have the contents `fresh`. -/
def freshCells (fresh : Nat → Cell) (kept : List Cell) (n : Nat) : List Cell :=
  (List.range n).map fun i => (kept[i]?).getD (fresh i)

/-- The new array of `__add_to_environ`, `none` when there is no memory: the array of
`last_environ` reallocated, with the `size` entries of the environment and two null pointers.
-/
def extendEnviron (s : EnvState) (size : Nat) (memory : EnvMemory) : Option EnvState :=
  match memory.realloc with
  | none => none
  | some fresh =>
    let reallocated := freshCells fresh (s.cells s.lastEnviron) (size + 2)
    let copied :=
      if s.environ ≠ s.lastEnviron then
        freshCells (fun i => (reallocated[i]?).getD none) ((s.cells s.environ).take size) (size + 2)
      else reallocated
    let freed :=
      match s.lastEnviron with
      | none => s
      | some last => s.setCells last []
    some
      { freed.setCells s.next ((copied.set size none).set (size + 1) none) with
        environ := some s.next,
        lastEnviron := some s.next,
        next := s.next + 1 }

/-- The string that `__add_to_environ` stores for a name and a value, with the known values
afterwards; `none` when there is no memory.
-/
def newValue (s : EnvState) (name value : CString) (memory : EnvMemory)
    : Option (CString × List CString) :=
  let newValue := name ++ [equalSign] ++ value
  if !memory.useAlloca && !memory.mallocNewValue then none
  else
    match s.knownValues.find? (· == newValue) with
    | some np => some (np, s.knownValues)
    | none =>
      if memory.useAlloca && !memory.mallocNp then none
      else
        some (newValue,
          if memory.tsearchNode then newValue :: s.knownValues else s.knownValues)

/-- `*ep = np` for the cell at `index` of the environment. -/
def storeEntry (s : EnvState) (index : Nat) (np : CString) : Option EnvState := do
  let p ← s.environ
  if index < (s.arrays p).length then return s.setCells p ((s.arrays p).set index (some np))
  else none

/-- `__add_to_environ` from the test of `*ep` on. -/
def replaceEntry (s : EnvState) (index : Nat) (name : CString) (value combined : Option CString)
    (replace : Bool) (memory : EnvMemory) : Option (Int × EnvState) := do
  let entry ← (s.cells s.environ)[index]?
  if entry.isNone || replace then
    match combined with
    | some np => return (0, ← storeEntry s index np)
    | none =>
      let value ← value
      match newValue s name value memory with
      | none => return (-1, s)
      | some (np, knownValues) =>
        return (0, ← storeEntry { s with knownValues } index np)
  else return (0, s)

def addToEnviron (s : EnvState) (name : CString) (value combined : Option CString)
    (replace : Bool) (memory : EnvMemory) : Option (Int × EnvState) := do
  let size ←
    match s.environ with
    | none => some 0
    | some p => findEntry name (s.arrays p)
  let absent ←
    match s.environ with
    | none => some true
    | some p => (s.arrays p)[size]?.map Option.isNone
  if absent then
    match extendEnviron s size memory with
    | none => return (-1, s)
    | some extended => replaceEntry extended size name value combined replace memory
  else replaceEntry s size name value combined replace memory

/-- `*name == '\0' || strchr (name, '=') != NULL`. -/
def invalidName (name : CString) : Bool := name.isEmpty || name.contains equalSign

def setenv (s : EnvState) (name value : CString) (replace : Bool) (memory : EnvMemory)
    : Option (Int × EnvState) :=
  if invalidName name then some (-1, s)
  else addToEnviron s name (some value) none replace memory

/-- The inner loop of `unsetenv`, from the cell of the entry it removes on. -/
def moveBack : List Cell → Option (List Cell)
  | _ :: none :: cells => some (none :: none :: cells)
  | _ :: some entry :: cells => do
    let moved ← moveBack (some entry :: cells)
    return some entry :: moved
  | _ => none

/-- The outer loop of `unsetenv`, from the cell at `ep` on. -/
def unsetLoop (name : CString) : Nat → List Cell → Option (List Cell)
  | _, none :: cells => some (none :: cells)
  | fuel + 1, some entry :: cells => do
    let found ← entryMatches entry name
    if found then
      let moved ← moveBack (some entry :: cells)
      unsetLoop name fuel moved
    else
      let rest ← unsetLoop name fuel cells
      return some entry :: rest
  | _, _ => none

/-- `unsetenv`. Each round of its loop removes a cell from the search. -/
def unsetenv (s : EnvState) (name : CString) : Option (Int × EnvState) :=
  if invalidName name then some (-1, s)
  else
    match s.environ with
    | none => some (0, s)
    | some p => do
      let cells ← unsetLoop name (s.arrays p).length (s.arrays p)
      return (0, s.setCells p cells)

def clearenv (s : EnvState) : Int × EnvState :=
  match s.environ with
  | none => (0, s)
  | some p =>
    if s.environ = s.lastEnviron then
      (0, { s.setCells p [] with environ := none, lastEnviron := none })
    else (0, { s with environ := none })

def putenv (s : EnvState) (string : CString) (memory : EnvMemory) : Option (Int × EnvState) :=
  if string.contains equalSign then
    if !memory.useAlloca && !memory.strndup then some (-1, s)
    else addToEnviron s (string.takeWhile (· != equalSign)) none (some string) true memory
  else do
    let (_, after) ← unsetenv s string
    return (0, after)

/-- Two bytes read as a `uint16_t`, the first one lowest. -/
def start16 (s : CString) : Option Nat := do
  let low ← charAt s 0
  let high ← charAt s 1
  return low.toNat ||| high.toNat <<< 8

/-- The loop of `getenv` for a name of one character. -/
def getenvOne (c : UInt8) : List Cell → Option (Option CString)
  | [] => none
  | none :: _ => some none
  | some entry :: cells => do
    let epStart ← start16 entry
    if equalSign.toNat <<< 8 ||| c.toNat = epStart then return some (entry.drop 2)
    else getenvOne c cells

/-- The test of `getenv` for a name of `len + 2` characters, of which the first two are in
`nameStart` and the others in `name`.
-/
def moreMatches (nameStart : Nat) (name : CString) (len : Nat) (entry : CString)
    : Option Bool := do
  let epStart ← start16 entry
  if nameStart = epStart ∧ strncmpEqual (entry.drop 2) name len then
    (charAt entry (len + 2)).map (· == equalSign)
  else some false

/-- The loop of `getenv` for a name of `len + 2` characters. -/
def getenvMore (nameStart : Nat) (name : CString) (len : Nat)
    : List Cell → Option (Option CString)
  | [] => none
  | none :: _ => some none
  | some entry :: cells => do
    let found ← moreMatches nameStart name len entry
    if found then return some (entry.drop (len + 3))
    else getenvMore nameStart name len cells

def getenv (s : EnvState) (name : CString) : Option (Option CString) :=
  match s.environ, name with
  | none, _ => some none
  | _, [] => some none
  | some p, [c] => getenvOne c (s.arrays p)
  | some p, name => do
    let nameStart ← start16 name
    getenvMore nameStart (name.drop 2) (name.length - 2) (s.arrays p)

end Nglibc.Stdlib
