import Nglibc.Lib.MachineWord
import Nglibc.Lib.UnrolledLoop

/-! Copying words in unrolled loops: `string/wordcopy.c` with the macros of
`sysdeps/generic/memcopy.h`, for words of 64 bits and little-endian byte order.

Pointers are numbers that are taken modulo the size of the address space where the memory is accessed. A
register that is not set yet is 0.
-/

namespace Nglibc.Strings.Wordwise

open Memory

def opsiz : Nat := 8

def opTThres : Nat := 16

def address (p : Int) : Nat := (p % 2 ^ 64).toNat

/-- `((op_t *) p)[i]`. -/
def opAt (mem : Memory UInt8) (p i : Int) : BitVec 64 := mem.load (address (p + i * opsiz))

/-- `((op_t *) p)[i] = w`. -/
def setOp (mem : Memory UInt8) (p i : Int) (w : BitVec 64) : Memory UInt8 :=
  mem.storeWord (address (p + i * opsiz)) w

/-- `MERGE` for little-endian byte order. -/
def merge (w0 : BitVec 64) (sh1 : Nat) (w1 : BitVec 64) (sh2 : Nat) : BitVec 64 := w0 >>> sh1 ||| w1 <<< sh2

/-- `8 * (srcp % OPSIZ)`. -/
def shift1 (srcp : Int) : Nat := 8 * (srcp % opsiz).toNat

/-- `8 * OPSIZ - sh_1`. -/
def shift2 (srcp : Int) : Nat := 8 * opsiz - shift1 srcp

/-- `srcp & -OPSIZ`. -/
def alignDown (srcp : Int) : Int := srcp - srcp % opsiz

/-- The memory and the variables of the four functions. -/
structure Wordcopy where
  mem : Memory UInt8
  dstp : Int
  srcp : Int
  len : Nat
  a0 : BitVec 64 := 0
  a1 : BitVec 64 := 0
  a2 : BitVec 64 := 0
  a3 : BitVec 64 := 0

/-- The end of a loop body that copies `width` words. -/
def Wordcopy.advance (words : Int) (width : Nat) (s : Wordcopy) : Wordcopy :=
  { s with srcp := s.srcp + words * opsiz, dstp := s.dstp + words * opsiz, len := s.len - width }

/-- `len != 0`. -/
def Wordcopy.more (s : Wordcopy) : Bool := s.len ≠ 0

/-- The labels `do8` to `do1`: a word is read, and the one before it is written. -/
def alignedLabel (index : Nat → Int) (k : Nat) (s : Wordcopy) : Wordcopy :=
  if k % 2 = 0 then
    { s with a0 := opAt s.mem s.srcp (index k), mem := setOp s.mem s.dstp (index k) s.a1 }
  else { s with a1 := opAt s.mem s.srcp (index k), mem := setOp s.mem s.dstp (index k) s.a0 }

/-- The word that label `k` accesses. -/
def fwdAlignedIndex (k : Nat) : Int := 8 - k

/-- The loop from label `k` on. -/
def fwdAlignedLoop (fuel k : Nat) (s : Wordcopy) : Option Wordcopy :=
  unrolledThrough (alignedLabel fwdAlignedIndex) (.advance 8 8) Wordcopy.more 8 fuel k s

/-- The label `do0`. -/
def fwdAlignedDo0 (s : Wordcopy) : Memory UInt8 := setOp s.mem s.dstp 0 s.a1

def wordcopyFwdAligned (mem : Memory UInt8) (dstp srcp : Int) (len : Nat) : Option (Memory UInt8) :=
  let goto (k : Nat) (s : Wordcopy) : Option (Memory UInt8) :=
    (fwdAlignedLoop (len + 1) k s).map fwdAlignedDo0
  let a := opAt mem srcp 0
  match len % 8 with
  | 2 => goto 1 { mem, a0 := a, srcp := srcp - 6 * opsiz, dstp := dstp - 7 * opsiz, len := len + 6 }
  | 3 => goto 2 { mem, a1 := a, srcp := srcp - 5 * opsiz, dstp := dstp - 6 * opsiz, len := len + 5 }
  | 4 => goto 3 { mem, a0 := a, srcp := srcp - 4 * opsiz, dstp := dstp - 5 * opsiz, len := len + 4 }
  | 5 => goto 4 { mem, a1 := a, srcp := srcp - 3 * opsiz, dstp := dstp - 4 * opsiz, len := len + 3 }
  | 6 => goto 5 { mem, a0 := a, srcp := srcp - 2 * opsiz, dstp := dstp - 3 * opsiz, len := len + 2 }
  | 7 => goto 6 { mem, a1 := a, srcp := srcp - 1 * opsiz, dstp := dstp - 2 * opsiz, len := len + 1 }
  | 0 =>
    if opTThres ≤ 3 * opsiz ∧ len = 0 then some mem
    else goto 7 { mem, a0 := a, srcp := srcp - 0 * opsiz, dstp := dstp - 1 * opsiz, len }
  | _ =>
    let s : Wordcopy :=
      { mem, a1 := a, srcp := srcp - -1 * opsiz, dstp := dstp - 0 * opsiz, len := len - 1 }
    if opTThres ≤ 3 * opsiz ∧ s.len = 0 then some (fwdAlignedDo0 s) else goto 8 s

/-- The word that label `k` accesses. -/
def bwdAlignedIndex (k : Nat) : Int := k - 1

/-- The loop from label `k` on. -/
def bwdAlignedLoop (fuel k : Nat) (s : Wordcopy) : Option Wordcopy :=
  unrolledThrough (alignedLabel bwdAlignedIndex) (.advance (-8) 8) Wordcopy.more 8 fuel k s

/-- The label `do0`. -/
def bwdAlignedDo0 (s : Wordcopy) : Memory UInt8 := setOp s.mem s.dstp 7 s.a1

def wordcopyBwdAligned (mem : Memory UInt8) (dstp srcp : Int) (len : Nat) : Option (Memory UInt8) :=
  let goto (k : Nat) (s : Wordcopy) : Option (Memory UInt8) :=
    (bwdAlignedLoop (len + 1) k s).map bwdAlignedDo0
  let a (words i : Int) := opAt mem (srcp - words * opsiz) i
  match len % 8 with
  | 2 => goto 1 { mem, srcp := srcp - 2 * opsiz, dstp := dstp - 1 * opsiz, a0 := a 2 1, len := len + 6 }
  | 3 => goto 2 { mem, srcp := srcp - 3 * opsiz, dstp := dstp - 2 * opsiz, a1 := a 3 2, len := len + 5 }
  | 4 => goto 3 { mem, srcp := srcp - 4 * opsiz, dstp := dstp - 3 * opsiz, a0 := a 4 3, len := len + 4 }
  | 5 => goto 4 { mem, srcp := srcp - 5 * opsiz, dstp := dstp - 4 * opsiz, a1 := a 5 4, len := len + 3 }
  | 6 => goto 5 { mem, srcp := srcp - 6 * opsiz, dstp := dstp - 5 * opsiz, a0 := a 6 5, len := len + 2 }
  | 7 => goto 6 { mem, srcp := srcp - 7 * opsiz, dstp := dstp - 6 * opsiz, a1 := a 7 6, len := len + 1 }
  | 0 =>
    if opTThres ≤ 3 * opsiz ∧ len = 0 then some mem
    else goto 7 { mem, srcp := srcp - 8 * opsiz, dstp := dstp - 7 * opsiz, a0 := a 8 7, len }
  | _ =>
    let s : Wordcopy :=
      { mem, srcp := srcp - 9 * opsiz, dstp := dstp - 8 * opsiz, a1 := a 9 8, len := len - 1 }
    if opTThres ≤ 3 * opsiz ∧ s.len = 0 then some (bwdAlignedDo0 s) else goto 8 s

/-- The labels `do4` to `do1`: a word is read, and the two before it are merged and written. -/
def fwdDestAlignedLabel (sh1 sh2 : Nat) (k : Nat) (s : Wordcopy) : Wordcopy :=
  match k with
  | 4 => { s with a0 := opAt s.mem s.srcp 0, mem := setOp s.mem s.dstp 0 (merge s.a2 sh1 s.a3 sh2) }
  | 3 => { s with a1 := opAt s.mem s.srcp 1, mem := setOp s.mem s.dstp 1 (merge s.a3 sh1 s.a0 sh2) }
  | 2 => { s with a2 := opAt s.mem s.srcp 2, mem := setOp s.mem s.dstp 2 (merge s.a0 sh1 s.a1 sh2) }
  | _ => { s with a3 := opAt s.mem s.srcp 3, mem := setOp s.mem s.dstp 3 (merge s.a1 sh1 s.a2 sh2) }

/-- The loop from label `k` on. -/
def fwdDestAlignedLoop (sh1 sh2 fuel k : Nat) (s : Wordcopy) : Option Wordcopy :=
  unrolledThrough (fwdDestAlignedLabel sh1 sh2) (.advance 4 4) Wordcopy.more 4 fuel k s

/-- The label `do0`. -/
def fwdDestAlignedDo0 (sh1 sh2 : Nat) (s : Wordcopy) : Memory UInt8 :=
  setOp s.mem s.dstp 0 (merge s.a2 sh1 s.a3 sh2)

def wordcopyFwdDestAligned (mem : Memory UInt8) (dstp srcp : Int) (len : Nat) : Option (Memory UInt8) :=
  let sh1 := shift1 srcp
  let sh2 := shift2 srcp
  let srcp := alignDown srcp
  let goto (k : Nat) (s : Wordcopy) : Option (Memory UInt8) :=
    (fwdDestAlignedLoop sh1 sh2 (len + 1) k s).map (fwdDestAlignedDo0 sh1 sh2)
  let a := opAt mem srcp 0
  let b := opAt mem srcp 1
  match len % 4 with
  | 2 =>
    goto 1 { mem, a1 := a, a2 := b, srcp := srcp - 1 * opsiz, dstp := dstp - 3 * opsiz, len := len + 2 }
  | 3 =>
    goto 2 { mem, a0 := a, a1 := b, srcp := srcp - 0 * opsiz, dstp := dstp - 2 * opsiz, len := len + 1 }
  | 0 =>
    if opTThres ≤ 3 * opsiz ∧ len = 0 then some mem
    else
      goto 3
        { mem, a3 := a, a0 := b, srcp := srcp - -1 * opsiz, dstp := dstp - 1 * opsiz, len := len + 0 }
  | _ =>
    let s : Wordcopy :=
      { mem, a2 := a, a3 := b, srcp := srcp - -2 * opsiz, dstp := dstp - 0 * opsiz, len := len - 1 }
    if opTThres ≤ 3 * opsiz ∧ s.len = 0 then some (fwdDestAlignedDo0 sh1 sh2 s) else goto 4 s

/-- The labels `do4` to `do1`: a word is read, and the two before it are merged and written. -/
def bwdDestAlignedLabel (sh1 sh2 : Nat) (k : Nat) (s : Wordcopy) : Wordcopy :=
  match k with
  | 4 => { s with a3 := opAt s.mem s.srcp 3, mem := setOp s.mem s.dstp 3 (merge s.a0 sh1 s.a1 sh2) }
  | 3 => { s with a2 := opAt s.mem s.srcp 2, mem := setOp s.mem s.dstp 2 (merge s.a3 sh1 s.a0 sh2) }
  | 2 => { s with a1 := opAt s.mem s.srcp 1, mem := setOp s.mem s.dstp 1 (merge s.a2 sh1 s.a3 sh2) }
  | _ => { s with a0 := opAt s.mem s.srcp 0, mem := setOp s.mem s.dstp 0 (merge s.a1 sh1 s.a2 sh2) }

/-- The loop from label `k` on. -/
def bwdDestAlignedLoop (sh1 sh2 fuel k : Nat) (s : Wordcopy) : Option Wordcopy :=
  unrolledThrough (bwdDestAlignedLabel sh1 sh2) (.advance (-4) 4) Wordcopy.more 4 fuel k s

/-- The label `do0`. -/
def bwdDestAlignedDo0 (sh1 sh2 : Nat) (s : Wordcopy) : Memory UInt8 :=
  setOp s.mem s.dstp 3 (merge s.a0 sh1 s.a1 sh2)

def wordcopyBwdDestAligned (mem : Memory UInt8) (dstp srcp : Int) (len : Nat) : Option (Memory UInt8) :=
  let sh1 := shift1 srcp
  let sh2 := shift2 srcp
  let srcp := alignDown srcp + opsiz
  let goto (k : Nat) (s : Wordcopy) : Option (Memory UInt8) :=
    (bwdDestAlignedLoop sh1 sh2 (len + 1) k s).map (bwdDestAlignedDo0 sh1 sh2)
  let a (words i : Int) := opAt mem (srcp - words * opsiz) i
  match len % 4 with
  | 2 =>
    goto 1
      { mem, srcp := srcp - 3 * opsiz, dstp := dstp - 1 * opsiz, a2 := a 3 2, a1 := a 3 1, len := len + 2 }
  | 3 =>
    goto 2
      { mem, srcp := srcp - 4 * opsiz, dstp := dstp - 2 * opsiz, a3 := a 4 3, a2 := a 4 2, len := len + 1 }
  | 0 =>
    if opTThres ≤ 3 * opsiz ∧ len = 0 then some mem
    else
      goto 3
        { mem, srcp := srcp - 5 * opsiz, dstp := dstp - 3 * opsiz, a0 := a 5 4, a3 := a 5 3, len }
  | _ =>
    let s : Wordcopy :=
      { mem, srcp := srcp - 6 * opsiz, dstp := dstp - 4 * opsiz, a1 := a 6 5, a0 := a 6 4, len := len - 1 }
    if opTThres ≤ 3 * opsiz ∧ s.len = 0 then some (bwdDestAlignedDo0 sh1 sh2 s) else goto 4 s

end Nglibc.Strings.Wordwise
