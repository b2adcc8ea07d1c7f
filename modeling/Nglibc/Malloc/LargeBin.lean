import Mathlib.Tactic
import Nglibc.Lib.Iteration
import Nglibc.Lib.LinkedRing

/-! The large bins of `malloc/malloc.c`: how `_int_malloc` puts a chunk of the unsorted list into one and
`unlink_chunk` takes one out. The bin header is a chunk whose `fd_nextsize` is the `fd` of the next bin.
-/

namespace Nglibc.Malloc
open Rings

/-- The fields of the chunks at their addresses, and the bit of the bin in `binmap`; 0 is the null
pointer. `head` is `mchunk_size` with its flags, `foot` is `prev_size (next_chunk (p))`.
-/
structure Heap where
  head : Nat → Nat
  foot : Nat → Nat
  fd : Nat → Nat
  bk : Nat → Nat
  fdNextsize : Nat → Nat
  bkNextsize : Nat → Nat
  marked : Bool

namespace Heap

def setFd (h : Heap) (p value : Nat) : Heap := { h with fd := Function.update h.fd p value }

def setBk (h : Heap) (p value : Nat) : Heap := { h with bk := Function.update h.bk p value }

def setFdNextsize (h : Heap) (p value : Nat) : Heap :=
  { h with fdNextsize := Function.update h.fdNextsize p value }

def setBkNextsize (h : Heap) (p value : Nat) : Heap :=
  { h with bkNextsize := Function.update h.bkNextsize p value }

end Heap

def prevInuse : Nat := 1

def minLargeSize : Nat := 1024

/-- `chunksize`: the size without the three flags. -/
def chunksize (head : Nat) : Nat := head - head % 8

/-- `chunk_main_arena`: the flag `NON_MAIN_ARENA` is not set. -/
def chunkMainArena (head : Nat) : Bool := head / 4 % 2 = 0

def inSmallbinRange (size : Nat) : Bool := size < minLargeSize

/-- The end of a turn of the scan: `victim` gets its place between two chunks. -/
def linkChunk (h : Heap) (victim bck fwd : Nat) : Heap :=
  let h := { h with marked := true }
  let h := h.setBk victim bck
  let h := h.setFd victim fwd
  let h := h.setBk fwd victim
  h.setFd bck victim

/-- The place before `fwd`; none is "largebin double linked list corrupted (bk)". -/
def placeBefore (h : Heap) (victim fwd : Nat) : Option Heap :=
  let bck := h.bk fwd
  if h.fd bck ≠ fwd then none else some (linkChunk h victim bck fwd)

def skipTurn (h : Heap) (size fwd : Nat) : Option (Nat ⊕ Nat) :=
  if size < h.head fwd then
    let fwd := h.fdNextsize fwd
    if chunkMainArena (h.head fwd) then some (.inr fwd) else none
  else some (.inl fwd)

/-- The chunk `victim` of the unsorted list is put into a large bin, with at most `fuel` turns of the loop
over its sizes. None is a failed assertion or a call of `malloc_printerr`.
-/
def insertLargeChunk (fuel : Nat) (h : Heap) (bin victim : Nat) : Option Heap :=
  let size := chunksize (h.head victim)
  let fwd := h.fd bin
  if fwd ≠ bin then
    let size := size ||| prevInuse
    let last := h.bk bin
    if chunkMainArena (h.head last) = false then none
    else if size < h.head last then
      let h := h.setFdNextsize victim fwd
      let h := h.setBkNextsize victim (h.bkNextsize fwd)
      let h := h.setFdNextsize (h.bkNextsize victim) victim
      let h := h.setBkNextsize fwd victim
      some (linkChunk h victim last bin)
    else if chunkMainArena (h.head fwd) = false then none
    else
      match iterate (skipTurn h size) fuel fwd with
      | none => none
      | some fwd =>
        if size = h.head fwd then placeBefore h victim (h.fd fwd)
        else
          let h := h.setFdNextsize victim fwd
          let h := h.setBkNextsize victim (h.bkNextsize fwd)
          if h.fdNextsize (h.bkNextsize fwd) ≠ fwd then none
          else
            let h := h.setBkNextsize fwd victim
            let h := h.setFdNextsize (h.bkNextsize victim) victim
            placeBefore h victim fwd
  else
    let h := h.setBkNextsize victim victim
    let h := h.setFdNextsize victim victim
    some (linkChunk h victim bin fwd)

/-- The end of `unlink_chunk`, for the first chunk `p` of a size with the next chunk `fd`. -/
def unlinkNextsize (h : Heap) (p fd : Nat) : Option Heap :=
  if h.bkNextsize (h.fdNextsize p) ≠ p ∨ h.fdNextsize (h.bkNextsize p) ≠ p then none
  else if h.fdNextsize fd = 0 then
    if h.fdNextsize p = p then
      let h := h.setBkNextsize fd fd
      some (h.setFdNextsize fd fd)
    else
      let h := h.setFdNextsize fd (h.fdNextsize p)
      let h := h.setBkNextsize fd (h.bkNextsize p)
      let h := h.setBkNextsize (h.fdNextsize p) fd
      some (h.setFdNextsize (h.bkNextsize p) fd)
  else
    let h := h.setBkNextsize (h.fdNextsize p) (h.bkNextsize p)
    some (h.setFdNextsize (h.bkNextsize p) (h.fdNextsize p))

/-- `unlink_chunk`; none is a call of `malloc_printerr`. -/
def unlinkChunk (h : Heap) (p : Nat) : Option Heap :=
  if chunksize (h.head p) ≠ h.foot p then none
  else
    let fd := h.fd p
    let bk := h.bk p
    if h.bk fd ≠ p ∨ h.fd bk ≠ p then none
    else
      let h := h.setBk fd bk
      let h := h.setFd bk fd
      if inSmallbinRange (h.head p) = false ∧ h.fdNextsize p ≠ 0 then unlinkNextsize h p fd
      else some h

/-- The elements whose key is not that of the element before, behind one with the key `prev`. -/
def firsts (key : Nat → Nat) : Option Nat → List Nat → List Nat
  | _, [] => []
  | prev, x :: xs =>
    if prev = some (key x) then firsts key prev xs else x :: firsts key (some (key x)) xs

def lastKey (key : Nat → Nat) : Option Nat → List Nat → Option Nat
  | prev, [] => prev
  | _, x :: xs => lastKey key (some (key x)) xs

section Firsts

variable {key : Nat → Nat} {prev prev' : Option Nat} {xs ys cs : List Nat} {c p q v k : Nat}

theorem firsts_append
    : firsts key prev (xs ++ ys) = firsts key prev xs ++ firsts key (lastKey key prev xs) ys := by
  induction xs generalizing prev with
  | nil => rfl
  | cons x xs ih =>
    rw [List.cons_append, firsts, firsts, lastKey]
    by_cases same : prev = some (key x)
    · rw [if_pos same, if_pos same, ih, same]
    · rw [if_neg same, if_neg same, ih, List.cons_append]

theorem firsts_sublist : (firsts key prev cs).Sublist cs := by
  induction cs generalizing prev with
  | nil => exact .refl _
  | cons x xs ih =>
    unfold firsts
    split
    · exact ih.cons x
    · exact ih.cons_cons x

theorem lastKey_mem (last : lastKey key prev xs = some k) : prev = some k ∨ ∃ x ∈ xs, key x = k := by
  induction xs generalizing prev with
  | nil => exact .inl last
  | cons x xs ih =>
    rcases ih last with here | ⟨y, member, here⟩
    · exact .inr ⟨x, List.mem_cons_self, Option.some.inj here⟩
    · exact .inr ⟨y, List.mem_cons_of_mem _ member, here⟩

/-- The key before does not matter if it is not that of any element. -/
theorem firsts_congr (other : ∀ y ∈ ys, prev ≠ some (key y)) (other' : ∀ y ∈ ys, prev' ≠ some (key y))
    : firsts key prev ys = firsts key prev' ys := by
  cases ys with
  | nil => rfl
  | cons y ys =>
    rw [firsts, firsts, if_neg (other y List.mem_cons_self), if_neg (other' y List.mem_cons_self)]

theorem firsts_split (first : c ∈ firsts key prev cs)
    : ∃ xs ys, cs = xs ++ c :: ys ∧ lastKey key prev xs ≠ some (key c) := by
  induction cs generalizing prev with
  | nil => cases first
  | cons x cs ih =>
    unfold firsts at first
    by_cases same : prev = some (key x)
    · rw [if_pos same] at first
      obtain ⟨xs, ys, rfl, new⟩ := ih first
      exact ⟨x :: xs, ys, rfl, same ▸ new⟩
    · rw [if_neg same] at first
      rcases List.mem_cons.mp first with rfl | later
      · exact ⟨[], cs, rfl, same⟩
      · obtain ⟨xs, ys, rfl, new⟩ := ih later
        exact ⟨x :: xs, ys, rfl, new⟩

theorem firsts_append_cons (new : lastKey key prev xs ≠ some (key c))
    : firsts key prev (xs ++ c :: ys) = firsts key prev xs ++ c :: firsts key (some (key c)) ys := by
  rw [firsts_append, firsts, if_neg new]

theorem firsts_covers (member : c ∈ cs)
    : prev = some (key c) ∨ ∃ x ∈ firsts key prev cs, key x = key c := by
  induction cs generalizing prev with
  | nil => cases member
  | cons x cs ih =>
    unfold firsts
    by_cases same : prev = some (key x)
    · rw [if_pos same]
      rcases List.mem_cons.mp member with rfl | later
      · exact .inl same
      · exact ih later
    · rw [if_neg same]
      rcases List.mem_cons.mp member with rfl | later
      · exact .inr ⟨c, List.mem_cons_self, rfl⟩
      · rcases @ih (some (key x)) later with here | ⟨y, first, here⟩
        · exact .inr ⟨x, List.mem_cons_self, Option.some.inj here⟩
        · exact .inr ⟨y, List.mem_cons_of_mem _ first, here⟩

theorem firsts_second (same : key v = key c)
    : firsts key prev (xs ++ c :: v :: ys) = firsts key prev (xs ++ c :: ys) := by
  have skipped : firsts key (some (key c)) (v :: ys) = firsts key (some (key c)) ys := by
    rw [firsts, if_pos (congrArg some same.symm)]
  have cons : ∀ zs, firsts key (lastKey key prev xs) (c :: zs) = if lastKey key prev xs = some (key c)
      then firsts key (lastKey key prev xs) zs else c :: firsts key (some (key c)) zs := fun _ => rfl
  rw [firsts_append, firsts_append, cons, cons]
  by_cases before : lastKey key prev xs = some (key c)
  · rw [if_pos before, if_pos before, before, skipped]
  · rw [if_neg before, if_neg before, skipped]

end Firsts

end Nglibc.Malloc
