import Mathlib.Tactic

/-! Dynamic arrays of `malloc/dynarray-skeleton.c`, `malloc/dynarray_resize.c`,
`malloc/dynarray_resize_clear.c`, `malloc/dynarray_emplace_enlarge.c` and
`malloc/dynarray_finalize.c`, with a 64-bit `size_t`. A computation that is `none` reads or
writes a cell that the array's storage does not have.
-/

namespace Nglibc.Malloc

/-- `PTRDIFF_MAX`; `malloc` and `realloc` refuse larger requests. -/
def ptrdiffMax : Nat := 2 ^ 63 - 1

structure DynarrayType (α : Type) where
  /-- `sizeof (DYNARRAY_ELEMENT)` -/
  elementSize : Nat
  elementSize_pos : 0 < elementSize
  /-- `DYNARRAY_INITIAL_SIZE`, the number of elements of the scratch space -/
  initialSize : Nat
  scratch_fits : initialSize * elementSize ≤ ptrdiffMax
  /-- `DYNARRAY_ELEMENT_INIT`, when it is defined, on what its place held -/
  elementInit : Option (α → α)
  /-- Whether `DYNARRAY_ELEMENT_FREE` is defined -/
  elementFree : Bool
  /-- The element whose bytes are all zero -/
  zero : α

/-- What the system does in a call of `malloc` or `realloc`: it refuses, or it gives cells with
some contents.
-/
abbrev Allocation (α : Type) := Option (Nat → α)

/-- `struct DYNARRAY_STRUCT`. The pointer `array` is the scratch space when `heapArray` is
`none`. The elements given to `DYNARRAY_ELEMENT_FREE` so far are in `freed`.
-/
structure Dynarray (α : Type) where
  used : Nat
  allocated : Nat
  heapArray : Option (List α)
  scratch : List α
  freed : List α
deriving DecidableEq

/-- `__dynarray_error_marker`. -/
def errorMarker : Nat := 2 ^ 64 - 1

variable {α : Type}

namespace Dynarray

/-- The cells that `array` points to. -/
def cells (list : Dynarray α) : List α := list.heapArray.getD list.scratch

/-- The storage of `array` with new contents. -/
def setCells (list : Dynarray α) (cells : List α) : Dynarray α :=
  match list.heapArray with
  | none => { list with scratch := cells }
  | some _ => { list with heapArray := some cells }

/-- The assignment `array[i] = x`. -/
def write (list : Dynarray α) (i : Nat) (x : α) : Option (Dynarray α) :=
  if i < list.cells.length then some (list.setCells (list.cells.set i x)) else none

/-- `free__elements__` on `count` elements from index `first` on. -/
def freeElements (T : DynarrayType α) (list : Dynarray α) (first count : Nat)
    : Option (Dynarray α) :=
  if T.elementFree then
    if first + count ≤ list.cells.length then
      some { list with freed := list.freed ++ (list.cells.drop first).take count }
    else none
  else some list

def init (T : DynarrayType α) (list : Dynarray α) : Dynarray α :=
  { list with used := 0, allocated := T.initialSize, heapArray := none }

/-- `DYNARRAY_FREE`. -/
def free (T : DynarrayType α) (list : Dynarray α) : Option (Dynarray α) := do
  let list ← list.freeElements T 0 list.used
  return list.init T

def hasFailed (list : Dynarray α) : Bool := list.allocated = errorMarker

def markFailed (T : DynarrayType α) (list : Dynarray α) : Option (Dynarray α) := do
  let list ← list.freeElements T 0 list.used
  return { list with heapArray := none, used := 0, allocated := errorMarker }

/-- The cells of a block of `n` elements that starts with `kept`. -/
def fill (fresh : Nat → α) (kept : List α) (n : Nat) : List α :=
  (List.range n).map fun i => (kept[i]?).getD (fresh i)

/-- The block for `n` elements, with the elements of the old one: what
`__libc_dynarray_resize` and `__libc_dynarray_emplace_enlarge` do alike. `some none` is a
product that overflows or memory that is not there.
-/
def newArray (T : DynarrayType α) (list : Dynarray α) (n : Nat) (allocation : Allocation α)
    : Option (Option (List α)) :=
  if 2 ^ 64 ≤ n * T.elementSize then some none
  else if ptrdiffMax < n * T.elementSize then some none
  else
    match allocation with
    | none => some none
    | some fresh =>
      match list.heapArray with
      | none =>
        if list.used ≤ list.scratch.length then
          some (some (fill fresh (list.scratch.take list.used) n))
        else none
      | some cells => some (some (fill fresh cells n))

/-- `__libc_dynarray_emplace_enlarge`. -/
def emplaceEnlarge (T : DynarrayType α) (list : Dynarray α) (allocation : Allocation α)
    : Option (Bool × Dynarray α) := do
  let newAllocated :=
    if list.allocated = 0 then
      if T.elementSize < 4 then 16 else if T.elementSize < 8 then 8 else 4
    else (list.allocated + list.allocated / 2 + 1) % 2 ^ 64
  if newAllocated ≤ list.allocated then return (false, list)
  match ← list.newArray T newAllocated allocation with
  | none => return (false, list)
  | some cells => return (true, { list with heapArray := some cells, allocated := newAllocated })

/-- `__libc_dynarray_resize`. -/
def libcResize (T : DynarrayType α) (list : Dynarray α) (size : Nat) (allocation : Allocation α)
    : Option (Bool × Dynarray α) := do
  if size ≤ list.allocated then return (true, { list with used := size })
  match ← list.newArray T size allocation with
  | none => return (false, list)
  | some cells =>
    return (true, { list with heapArray := some cells, allocated := size, used := size })

/-- `add` with its slow path `add__`. -/
def add (T : DynarrayType α) (list : Dynarray α) (item : α) (allocation : Allocation α)
    : Option (Dynarray α) := do
  if list.hasFailed then return list
  if list.used = list.allocated then
    let (ok, list) ← list.emplaceEnlarge T allocation
    if !ok then list.markFailed T
    else
      let written ← list.write list.used item
      return { written with used := list.used + 1 }
  else
    let written ← list.write list.used item
    return { written with used := list.used + 1 }

/-- What `emplace__tail__` makes of the cell it returns. -/
def initialised (T : DynarrayType α) (x : α) : α :=
  match T.elementInit with
  | some init => init x
  | none => if T.elementFree then T.zero else x

/-- `emplace__tail__`, with the index of the returned place. -/
def emplaceTail (T : DynarrayType α) (list : Dynarray α) : Option (Nat × Dynarray α) := do
  let x ← list.cells[list.used]?
  let written ← list.write list.used (initialised T x)
  return (list.used, { written with used := list.used + 1 })

/-- `emplace` with its slow path `emplace__`; the place `none` is `NULL`. -/
def emplace (T : DynarrayType α) (list : Dynarray α) (allocation : Allocation α)
    : Option (Option Nat × Dynarray α) := do
  if list.hasFailed then return (none, list)
  if list.used = list.allocated then
    let (ok, list) ← list.emplaceEnlarge T allocation
    if !ok then
      let list ← list.markFailed T
      return (none, list)
    else
      let (place, list) ← list.emplaceTail T
      return (some place, list)
  else
    let (place, list) ← list.emplaceTail T
    return (some place, list)

/-- The cells from `first` up to `last` made ready for use: the loop of `resize` over
`DYNARRAY_ELEMENT_INIT`, or the `memset` of `__libc_dynarray_resize_clear`, or nothing.
-/
def initialiseFrom (T : DynarrayType α) (list : Dynarray α) (first last : Nat)
    : Option (Dynarray α) :=
  if T.elementInit.isSome || T.elementFree then
    if last ≤ list.cells.length then
      some (list.setCells
        (list.cells.mapIdx fun i x => if first ≤ i ∧ i < last then initialised T x else x))
    else none
  else some list

def resize (T : DynarrayType α) (list : Dynarray α) (size : Nat) (allocation : Allocation α)
    : Option (Bool × Dynarray α) := do
  if size > list.used then
    let oldSize := list.used
    let (ok, list) ← list.libcResize T size allocation
    if ok then
      let list ← list.initialiseFrom T oldSize size
      return (true, list)
    else
      let list ← list.markFailed T
      return (false, list)
  else
    let list ← list.freeElements T size (list.used - size)
    return (true, { list with used := size })

def removeLast (T : DynarrayType α) (list : Dynarray α) : Option (Dynarray α) := do
  if list.used > 0 then
    let newLength := list.used - 1
    let list ← list.freeElements T newLength 1
    return { list with used := newLength }
  else return list

def clear (T : DynarrayType α) (list : Dynarray α) : Option (Dynarray α) := do
  let list ← list.freeElements T 0 list.used
  return { list with used := 0 }

/-- `__libc_dynarray_finalize`: the elements of the result. -/
def libcFinalize (list : Dynarray α) (allocation : Allocation α) : Option (Option (List α)) :=
  if list.hasFailed then some none
  else if list.used = 0 then some (some [])
  else
    match allocation with
    | none => some none
    | some _ =>
      if list.used ≤ list.cells.length then some (some (list.cells.take list.used)) else none

def finalize (T : DynarrayType α) (list : Dynarray α) (allocation : Allocation α)
    : Option (Option (List α) × Dynarray α) := do
  match ← list.libcFinalize allocation with
  | some result => return (some result, list.init T)
  | none =>
    let list ← list.free T
    return (none, list)

/-- `at`, with a store through the returned pointer when there is one; `none` inside is the end of
the process in `__libc_dynarray_at_failure`.
-/
def atIndex (list : Dynarray α) (index : Nat) (store : Option α)
    : Option (Option α × Dynarray α) := do
  if index ≥ list.used then return (none, list)
  let x ← list.cells[index]?
  match store with
  | none => return (some x, list)
  | some y =>
    let list ← list.write index y
    return (some x, list)

end Dynarray

inductive DynarrayOp (α : Type) where
  | add (item : α)
  | emplace
  | resize (size : UInt64)
  | atIndex (index : UInt64) (store : Option α)
  | removeLast
  | clear
  | finalize
  | free

/-- What a call returns; the place `none` is `NULL`, the final array `none` the failure of
`finalize`.
-/
inductive DynarrayReply (α : Type) where
  | done
  | place (index : Option Nat)
  | flag (ok : Bool)
  | element (x : α)
  | terminated
  | final (result : Option (List α))
deriving DecidableEq

open Dynarray DynarrayOp DynarrayReply

/-- One call, with what the system does when the call asks for memory. -/
def dynarrayStep (T : DynarrayType α) (list : Dynarray α) (allocation : Allocation α)
    : DynarrayOp α → Option (DynarrayReply α × Dynarray α)
  | .add item => do
    let list ← list.add T item allocation
    return (.done, list)
  | .emplace => do
    let (index, list) ← list.emplace T allocation
    return (.place index, list)
  | .resize size => do
    let (ok, list) ← list.resize T size.toNat allocation
    return (.flag ok, list)
  | .atIndex index store => do
    match ← list.atIndex index.toNat store with
    | (some x, list) => return (.element x, list)
    | (none, list) => return (.terminated, list)
  | .removeLast => do
    let list ← list.removeLast T
    return (.done, list)
  | .clear => do
    let list ← list.clear T
    return (.done, list)
  | .finalize => do
    let (result, list) ← list.finalize T allocation
    return (.final result, list)
  | .free => do
    let list ← list.free T
    return (.done, list)

/-- An element that `emplace` and `resize` may add. -/
def Fresh (T : DynarrayType α) (x : α) : Prop := ∃ y, x = initialised T y

/-- The number of elements that a full array of `n` elements asks for. -/
def enlarged (T : DynarrayType α) (n : Nat) : Nat :=
  if n = 0 then if T.elementSize < 4 then 16 else if T.elementSize < 8 then 8 else 4
  else n + n / 2 + 1

/-- A request for `n` elements that is not met. -/
def Refused (T : DynarrayType α) (allocation : Allocation α) (n : Nat) : Prop :=
  allocation = none ∨ ptrdiffMax < n * T.elementSize

/-- The operations on a list that may fail; `none` is the failed state. -/
inductive ListStep (T : DynarrayType α) (allocation : Allocation α)
    : Option (List α) → DynarrayOp α → DynarrayReply α → Option (List α) → Prop where
  | add {l : List α} (x : α) : ListStep T allocation (some l) (.add x) .done (some (l ++ [x]))
  | addFails {l : List α} (x : α) (refused : Refused T allocation (enlarged T l.length))
      : ListStep T allocation (some l) (.add x) .done none
  | addFailed (x : α) : ListStep T allocation none (.add x) .done none
  | emplace {l : List α} {x : α} (fresh : Fresh T x)
      : ListStep T allocation (some l) .emplace (.place (some l.length)) (some (l ++ [x]))
  | emplaceFails {l : List α} (refused : Refused T allocation (enlarged T l.length))
      : ListStep T allocation (some l) .emplace (.place none) none
  | emplaceFailed : ListStep T allocation none .emplace (.place none) none
  | truncate {l : List α} (size : UInt64) (le : size.toNat ≤ l.length)
      : ListStep T allocation (some l) (.resize size) (.flag true) (some (l.take size.toNat))
  | extend {l more : List α} (size : UInt64) (length : l.length + more.length = size.toNat)
      (fresh : ∀ x ∈ more, Fresh T x)
      : ListStep T allocation (some l) (.resize size) (.flag true) (some (l ++ more))
  | resizeFails {l : List α} (size : UInt64) (refused : Refused T allocation size.toNat)
      : ListStep T allocation (some l) (.resize size) (.flag false) none
  | resizeFailed (size : UInt64) : ListStep T allocation none (.resize size) (.flag false) none
  | atIndex {l : List α} (index : UInt64) (store : Option α) {x : α}
      (found : l[index.toNat]? = some x)
      : ListStep T allocation (some l) (.atIndex index store) (.element x) (some (match store with
            | none => l
            | some y => l.set index.toNat y))
  | atTerminates {l : List α} (index : UInt64) (store : Option α)
      (outside : l.length ≤ index.toNat)
      : ListStep T allocation (some l) (.atIndex index store) .terminated (some l)
  | atFailed (index : UInt64) (store : Option α)
      : ListStep T allocation none (.atIndex index store) .terminated none
  | removeLast {l : List α} : ListStep T allocation (some l) .removeLast .done (some l.dropLast)
  | removeLastFailed : ListStep T allocation none .removeLast .done none
  | clear {l : List α} : ListStep T allocation (some l) .clear .done (some [])
  | clearFailed : ListStep T allocation none .clear .done none
  | finalize {l : List α}
      : ListStep T allocation (some l) .finalize (.final (some l)) (some [])
  | finalizeFails {l : List α} (refused : allocation = none)
      : ListStep T allocation (some l) .finalize (.final none) (some [])
  | finalizeFailed : ListStep T allocation none .finalize (.final none) (some [])
  | free {l : List α} : ListStep T allocation (some l) .free .done (some [])
  | freeFailed : ListStep T allocation none .free .done (some [])

/-- The array holds the list `l` in its storage. -/
structure Dynarray.Holds (T : DynarrayType α) (list : Dynarray α) (l : List α) : Prop where
  used_eq : list.used = l.length
  backed : list.used ≤ list.cells.length
  elements : list.cells.take list.used = l
  allocated_eq : list.allocated = list.cells.length
  allocated_fits : list.allocated * T.elementSize ≤ ptrdiffMax
  scratch_length : list.scratch.length = T.initialSize

structure Dynarray.IsFailed (T : DynarrayType α) (list : Dynarray α) : Prop where
  failed : list.hasFailed = true
  used_eq : list.used = 0
  heapArray_eq : list.heapArray = none
  scratch_length : list.scratch.length = T.initialSize

def Represents (T : DynarrayType α) (list : Dynarray α) : Option (List α) → Prop
  | some l => list.Holds T l ∧ list.hasFailed = false
  | none => list.IsFailed T

def Reinitialises : DynarrayOp α → Prop
  | .finalize => True
  | .free => True
  | _ => False

/-- The run of `calls` from `list` is one of the list `l`: no call leaves the storage, each does
what it does to the list, and no call but a reinitialising one changes anything in the failed
state. The run ends when the process does.
-/
def RunsAs (T : DynarrayType α) (list : Dynarray α) (l : Option (List α))
    : List (DynarrayOp α × Allocation α) → Prop
  | [] => Represents T list l
  | (op, allocation) :: calls =>
    Represents T list l
    ∧ ∃ reply after l', dynarrayStep T list allocation op = some (reply, after)
      ∧ ListStep T allocation l op reply l'
      ∧ (l = none → ¬Reinitialises op → after = list)
      ∧ (reply ≠ .terminated → RunsAs T after l' calls)

/-- No call of the run is a `resize` of an array that has failed. -/
def ResizesLive (T : DynarrayType α) (list : Dynarray α)
    : List (DynarrayOp α × Allocation α) → Prop
  | [] => True
  | (op, allocation) :: calls =>
    (∀ size, op = .resize size → list.hasFailed = false)
    ∧ ∀ reply after, dynarrayStep T list allocation op = some (reply, after)
      → reply ≠ .terminated → ResizesLive T after calls

end Nglibc.Malloc
