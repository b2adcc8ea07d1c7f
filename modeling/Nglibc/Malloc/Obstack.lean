import Mathlib.Tactic
import Nglibc.Lib.Memory

/-! Obstacks of `malloc/obstack.c` and `malloc/obstack.h` on a 64-bit machine. Addresses are
natural numbers and do not wrap; the linked chunks are a list, the current one first.
-/

namespace Nglibc.Malloc

/-- `struct _obstack_chunk`: its address and its `limit`. The header takes 16 bytes. -/
structure Chunk where
  start : Nat
  limit : Nat
deriving DecidableEq

/-- `struct obstack`, with the memory and the chunks given to `freefun` so far. -/
structure Obstack where
  chunkSize : Nat
  chunks : List Chunk
  objectBase : Nat
  nextFree : Nat
  chunkLimit : Nat
  alignmentMask : Nat
  maybeEmptyObject : Bool
  memory : Memory UInt8
  released : List Chunk

/-- `DEFAULT_ALIGNMENT` and `DEFAULT_ROUNDING`. -/
def defaultAlignment : Nat := 16

/-- The offset of `contents` in a chunk. -/
def headerSize : Nat := 16

/-- `__PTR_ALIGN`: `(p + mask) & ~mask`. -/
def ptrAlign (p mask : Nat) : Nat := (p + mask) - ((p + mask) &&& mask)

def Chunk.first (mask : Nat) (c : Chunk) : Nat := ptrAlign (c.start + headerSize) mask

namespace Obstack

/-- `_obstack_begin`, where `chunkfun` gives the address of a chunk of some size. -/
def begin (size alignment : Nat) (chunkfun : Nat → Nat) (memory : Memory UInt8) : Obstack :=
  let alignment := if alignment = 0 then defaultAlignment else alignment
  -- `extra` is 32
  let size := if size = 0 then 4096 - 32 else size
  let chunk : Chunk := { start := chunkfun size, limit := chunkfun size + size }
  {
    chunkSize := size,
    chunks := [chunk],
    objectBase := chunk.first (alignment - 1),
    nextFree := chunk.first (alignment - 1),
    chunkLimit := chunk.limit,
    alignmentMask := alignment - 1,
    maybeEmptyObject := false,
    memory,
    released := []
  }

/-- The copy of an object by `COPYING_UNIT`, from the last unit to the first. -/
def copyUnits (memory : Memory UInt8) (dst src : Nat) : Nat → Memory UInt8
  | 0 => memory
  | i + 1 => copyUnits (memory.store (dst + 4 * i) (memory.slice (src + 4 * i) 4)) dst src i

/-- The copy of the bytes from index `i` on. -/
def copyRest (memory : Memory UInt8) (dst src i : Nat) : Nat → Memory UInt8
  | 0 => memory
  | n + 1 => copyRest (memory.store (dst + i) [memory (src + i)]) dst src (i + 1) n

/-- The move of an object in `_obstack_newchunk`. -/
def moveObject (mask : Nat) (memory : Memory UInt8) (dst src size : Nat) : Memory UInt8 :=
  let units := if mask + 1 ≥ defaultAlignment then size / 4 else 0
  copyRest (copyUnits memory dst src units) dst src (4 * units) (size - 4 * units)

/-- `_obstack_newchunk`. -/
def newchunk (h : Obstack) (length : Nat) (chunkfun : Nat → Nat) : Obstack :=
  let objSize := h.nextFree - h.objectBase
  let newSize := (objSize + length) + objSize / 8 + h.alignmentMask + 100
  let newSize := if newSize < h.chunkSize then h.chunkSize else newSize
  let chunk : Chunk := { start := chunkfun newSize, limit := chunkfun newSize + newSize }
  let objectBase := chunk.first h.alignmentMask
  let memory := moveObject h.alignmentMask h.memory objectBase h.objectBase objSize
  match h.chunks with
  | [] => h
  | old :: chunks =>
    let alone := !h.maybeEmptyObject && h.objectBase = old.first h.alignmentMask
    { h with
      chunks := if alone then chunk :: chunks else chunk :: old :: chunks,
      released := if alone then old :: h.released else h.released,
      chunkLimit := chunk.limit,
      memory,
      objectBase,
      nextFree := objectBase + objSize,
      maybeEmptyObject := false }

/-- Room for `length` more bytes: the test at the start of the growing macros. -/
def makeRoom (h : Obstack) (length : Nat) (chunkfun : Nat → Nat) : Obstack :=
  if h.nextFree + length > h.chunkLimit then h.newchunk length chunkfun else h

/-- `obstack_grow`. -/
def grow (h : Obstack) (bytes : List UInt8) (chunkfun : Nat → Nat) : Obstack :=
  let h := h.makeRoom bytes.length chunkfun
  { h with
    memory := h.memory.store h.nextFree bytes,
    nextFree := h.nextFree + bytes.length }

/-- `obstack_grow0`. -/
def grow0 (h : Obstack) (bytes : List UInt8) (chunkfun : Nat → Nat) : Obstack :=
  let h := h.makeRoom (bytes.length + 1) chunkfun
  { h with
    memory := (h.memory.store h.nextFree bytes).store (h.nextFree + bytes.length) [0],
    nextFree := h.nextFree + bytes.length + 1 }

/-- `obstack_1grow`. -/
def grow1 (h : Obstack) (datum : UInt8) (chunkfun : Nat → Nat) : Obstack :=
  let h := h.makeRoom 1 chunkfun
  { h with memory := h.memory.store h.nextFree [datum], nextFree := h.nextFree + 1 }

/-- `obstack_blank`. -/
def blank (h : Obstack) (length : Nat) (chunkfun : Nat → Nat) : Obstack :=
  let h := h.makeRoom length chunkfun
  { h with nextFree := h.nextFree + length }

/-- `obstack_finish`. -/
def finish (h : Obstack) : Nat × Obstack :=
  let value := h.objectBase
  let maybeEmptyObject := if h.nextFree = value then true else h.maybeEmptyObject
  let nextFree := ptrAlign h.nextFree h.alignmentMask
  let nextFree := if nextFree > h.chunkLimit then h.chunkLimit else nextFree
  (value, { h with maybeEmptyObject, nextFree, objectBase := nextFree })

/-- The loop of `__obstack_free`: the chunks that are left, and those given to `freefun`. -/
def freeLoop (obj : Nat) : List Chunk → List Chunk × List Chunk
  | [] => ([], [])
  | lp :: chunks =>
    if lp.start ≥ obj ∨ lp.limit < obj then
      let (left, freed) := freeLoop obj chunks
      (left, freed ++ [lp])
    else (lp :: chunks, [])

/-- `__obstack_free` for an object; `none` is the call of `abort`. -/
def freeFunction (h : Obstack) (obj : Nat) : Option Obstack :=
  match freeLoop obj h.chunks with
  | ([], _) => none
  | (lp :: chunks, freed) =>
    some
      { h with
        chunks := lp :: chunks,
        released := freed ++ h.released,
        maybeEmptyObject := if freed.isEmpty then h.maybeEmptyObject else true,
        objectBase := obj,
        nextFree := obj,
        chunkLimit := lp.limit }

/-- `obstack_free`. -/
def free (h : Obstack) (obj : Nat) : Option Obstack :=
  match h.chunks with
  | [] => none
  | chunk :: _ =>
    if obj > chunk.start ∧ obj < h.chunkLimit then
      some { h with nextFree := obj, objectBase := obj }
    else h.freeFunction obj

end Obstack

/-- One call; `free` names the object by its number, counted from the newest one. -/
inductive ObstackOp where
  | grow (bytes : List UInt8)
  | grow0 (bytes : List UInt8)
  | grow1 (datum : UInt8)
  | blank (length : Nat)
  | finish
  | alloc (length : Nat)
  | copy (bytes : List UInt8)
  | free (index : Nat)

end Nglibc.Malloc
