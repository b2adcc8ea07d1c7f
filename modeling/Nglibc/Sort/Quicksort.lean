import Nglibc.Lib.Memory
import Nglibc.Lib.StableSort

/-! Arrays in a byte memory: elements of a fixed size one behind the other, and pointers. -/

namespace Nglibc.Sort

open Memory

def Element (s : Nat) := { bytes : List UInt8 // bytes.length = s }

/-- The element of size `s` at address `a`. -/
def elementAt (m : Memory UInt8) (s a : Nat) : Element s := ⟨m.slice a s, length_slice⟩

/-- The `n` elements of size `s` from address `a` on. -/
def elements (m : Memory UInt8) (s a : Nat) : Nat → List (Element s)
  | 0 => []
  | n + 1 => elementAt m s a :: elements m s (a + s) n

variable {m m' : Memory UInt8} {s a b n k : Nat} {cells : List UInt8}

theorem elementAt_congr (same : ∀ x, a ≤ x → x < a + s → m' x = m x)
    : elementAt m' s a = elementAt m s a :=
  Subtype.ext (slice_congr same)

theorem elementAt_store_disjoint (disjoint : a + s ≤ b ∨ b + cells.length ≤ a)
    : elementAt (m.store b cells) s a = elementAt m s a :=
  Subtype.ext (slice_store_disjoint disjoint)

theorem elementAt_store_slice : elementAt (m.store b (m'.slice a s)) s b = elementAt m' s a := by
  apply Subtype.ext
  have copied := @slice_store_self _ m b (m'.slice a s)
  rwa [length_slice] at copied

@[simp] theorem length_elements : (elements m s a n).length = n := by
  induction n generalizing a with
  | zero => rfl
  | succ n ih => rw [elements, List.length_cons, ih]

theorem elements_succ : elements m s a (n + 1) = elementAt m s a :: elements m s (a + s) n := rfl

theorem elements_add : elements m s a (n + k) = elements m s a n ++ elements m s (a + n * s) k := by
  induction n generalizing a with
  | zero => simp [elements]
  | succ n ih =>
    rw [Nat.succ_add_eq_add_succ n k, Nat.add_succ, elements_succ, ih, elements_succ,
      List.cons_append, Nat.succ_mul, Nat.add_comm (n * s), Nat.add_assoc]

theorem getElem_elements {i : Nat} (inside : i < (elements m s a n).length)
    : (elements m s a n)[i] = elementAt m s (a + i * s) := by
  induction n generalizing a i with
  | zero => exact absurd inside (Nat.not_lt_zero i)
  | succ n ih =>
    cases i with
    | zero => simp [elements_succ]
    | succ i =>
      simp only [elements_succ, List.getElem_cons_succ]
      rw [ih, Nat.succ_mul, Nat.add_comm (i * s), Nat.add_assoc]

theorem elements_congr (same : ∀ x, a ≤ x → x < a + n * s → m' x = m x)
    : elements m' s a n = elements m s a n := by
  induction n generalizing a with
  | zero => rfl
  | succ n ih =>
    have size : (n + 1) * s = s + n * s := by rw [Nat.succ_mul, Nat.add_comm]
    rw [elements_succ, elements_succ, elementAt_congr, ih]
    · intro x low high
      exact same x (by omega) (by omega)
    · intro x low high
      exact same x low (by omega)

theorem elements_store_disjoint (disjoint : a + n * s ≤ b ∨ b + cells.length ≤ a)
    : elements (m.store b cells) s a n = elements m s a n := by
  apply elements_congr
  intro x low high
  exact store_outside (by omega)

theorem elements_of_slice (same : m'.slice b (n * s) = m.slice a (n * s))
    : elements m' s b n = elements m s a n := by
  induction n generalizing a b with
  | zero => rfl
  | succ n ih =>
    have size : (n + 1) * s = s + n * s := by rw [Nat.succ_mul, Nat.add_comm]
    rw [size, slice_add, slice_add] at same
    obtain ⟨head, tail⟩ := List.append_inj same (by simp)
    rw [elements_succ, ih tail]
    congr 1
    exact Subtype.ext head

theorem elements_store_slice
    : elements (m.store b (m'.slice a (n * s))) s b n = elements m' s a n := by
  apply elements_of_slice
  have copied := @slice_store_self _ m b (m'.slice a (n * s))
  rwa [length_slice] at copied

def byFirstByte {s : Nat} (a b : Element s) : Int :=
  ((a.1.headD 0).toNat : Int) - (b.1.headD 0).toNat

theorem byFirstByte_order {s : Nat} : TotalPreorder (byFirstByte (s := s)) :=
  .of_key (fun a : Element s => ((a.1.headD 0).toNat : Int))

/-- `sizeof (void *)`. -/
def pointerSize : Nat := 8

def pointerOf (bytes : List UInt8) : Nat := Nat.ofDigits 256 (bytes.map UInt8.toNat)

def pointerBytes (p : Nat) : List UInt8 :=
  (List.range pointerSize).map (fun i => UInt8.ofNat (p / 256 ^ i % 256))

def loadPointer (m : Memory UInt8) (a : Nat) : Nat := pointerOf (m.slice a pointerSize)

def storePointer (m : Memory UInt8) (a p : Nat) : Memory UInt8 := m.store a (pointerBytes p)

@[simp] theorem length_pointerBytes (p : Nat) : (pointerBytes p).length = pointerSize := by
  simp [pointerBytes]

theorem pointerOf_pointerBytes {p : Nat} (fits : p < 2 ^ 64) : pointerOf (pointerBytes p) = p := by
  have digit (i : Nat) : (UInt8.ofNat (p / 256 ^ i % 256)).toNat = p / 256 ^ i % 256 :=
    UInt8.toNat_ofNat_of_lt' (Nat.mod_lt _ (by decide))
  simp only [pointerOf, pointerBytes, pointerSize, List.map_map, Function.comp_def, digit]
  simp only [List.range, List.range.loop, List.map_cons, List.map_nil, Nat.ofDigits_cons,
    Nat.ofDigits_nil]
  omega

@[simp] theorem loadPointer_storePointer {p : Nat} (fits : p < 2 ^ 64)
    : loadPointer (storePointer m a p) a = p := by
  have stored := @slice_store_self _ m a (pointerBytes p)
  rw [length_pointerBytes] at stored
  rw [loadPointer, storePointer, stored, pointerOf_pointerBytes fits]

theorem loadPointer_congr (same : ∀ x, a ≤ x → x < a + pointerSize → m' x = m x)
    : loadPointer m' a = loadPointer m a := by
  rw [loadPointer, loadPointer, slice_congr same]

end Nglibc.Sort

/-! `_quicksort` of `stdlib/qsort.c`. Every access is checked against the array and every push
against the size of the stack: a run that leaves either has no result.
-/

namespace Nglibc.Sort

/-- `pbase`, `total_elems`, `size` and `cmp` with its `arg`. -/
structure QsortCall where
  base : Nat
  total : Nat
  size : Nat
  cmp : Element size → Element size → Int

/-- `p + n` for a pointer. -/
@[irreducible] def ptrAdd (p n : Nat) : Nat := (p + n) % 2 ^ 64

/-- `p - n` for a pointer or another pointer, as a `size_t`. -/
@[irreducible] def ptrSub (p n : Nat) : Nat := (p + 2 ^ 64 - n) % 2 ^ 64

/-- A `size_t` read as a `ptrdiff_t`. -/
@[irreducible] def toPtrdiff (n : Nat) : Int := if n < 2 ^ 63 then n else (n : Int) - 2 ^ 64

/-- `MAX_THRESH`. -/
def maxThreshElems : Nat := 4

def stackSize : Nat := 64

namespace QsortCall

variable (q : QsortCall)

def maxThresh : Nat := maxThreshElems * q.size % 2 ^ 64

/-- The `len` bytes at `p` belong to the array. -/
def inside (p len : Nat) : Bool :=
  decide (q.base ≤ p ∧ p + len ≤ q.base + q.total * q.size)

def loadByte (m : Memory UInt8) (p : Nat) : Option UInt8 :=
  if q.inside p 1 then some (m p) else none

def storeByte (m : Memory UInt8) (p : Nat) (c : UInt8) : Option (Memory UInt8) :=
  if q.inside p 1 then some (m.store p [c]) else none

/-- `(*cmp) (a, b, arg)`, which reads both elements. -/
def compar (m : Memory UInt8) (a b : Nat) : Option Int :=
  if q.inside a q.size && q.inside b q.size then
    some (q.cmp (elementAt m q.size a) (elementAt m q.size b))
  else none

/-- The rounds of `SWAP` that are left. -/
def swapLoop : Nat → Memory UInt8 → Nat → Nat → Option (Memory UInt8)
  | 0, m, _, _ => some m
  | left + 1, m, a, b => do
    let tmp ← q.loadByte m a
    let m ← q.storeByte m a (← q.loadByte m b)
    let m ← q.storeByte m b tmp
    swapLoop left m (ptrAdd a 1) (ptrAdd b 1)

/-- `SWAP (a, b, size)`. -/
def swap (m : Memory UInt8) (a b : Nat) : Option (Memory UInt8) := q.swapLoop q.size m a b

/-- `if (cmp (a, b) < 0) SWAP (a, b, size)`. -/
def swapIfLess (m : Memory UInt8) (a b : Nat) : Option (Memory UInt8) := do
  if (← q.compar m a b) < 0 then q.swap m a b else some m

/-- The median of three, up to `jump_over`. -/
def medianOfThree (m : Memory UInt8) (lo mid hi : Nat) : Option (Memory UInt8) := do
  let m ← q.swapIfLess m mid lo
  if (← q.compar m hi mid) < 0 then
    let m ← q.swap m mid hi
    q.swapIfLess m mid lo
  else some m

/-- `while (cmp (left_ptr, mid) < 0) left_ptr += size`, at most `fuel` rounds. -/
def scanLeft (m : Memory UInt8) (mid : Nat) : Nat → Nat → Option Nat
  | 0, _ => none
  | fuel + 1, left => do
    if (← q.compar m left mid) < 0 then scanLeft m mid fuel (ptrAdd left q.size)
    else some left

/-- `while (cmp (mid, right_ptr) < 0) right_ptr -= size`, at most `fuel` rounds. -/
def scanRight (m : Memory UInt8) (mid : Nat) : Nat → Nat → Option Nat
  | 0, _ => none
  | fuel + 1, right => do
    if (← q.compar m mid right) < 0 then scanRight m mid fuel (ptrSub right q.size)
    else some right

/-- The `do` loop that collapses the walls. -/
def collapse : Nat → Memory UInt8 → Nat → Nat → Nat → Option (Memory UInt8 × Nat × Nat)
  | 0, _, _, _, _ => none
  | fuel + 1, m, mid, left, right => do
    let left ← q.scanLeft m mid fuel left
    let right ← q.scanRight m mid fuel right
    if left < right then
      let m ← q.swap m left right
      let mid := if mid = left then right else if mid = right then left else mid
      let left := ptrAdd left q.size
      let right := ptrSub right q.size
      if left ≤ right then collapse fuel m mid left right else some (m, left, right)
    else if left = right then
      some (m, ptrAdd left q.size, ptrSub right q.size)
    else
      some (m, left, right)

def push (stack : List (Nat × Nat)) (lo hi : Nat) : Option (List (Nat × Nat)) :=
  if stack.length < stackSize then some ((lo, hi) :: stack) else none

/-- "Set up pointers for next iteration": the new `lo`, `hi` and stack. -/
def nextPartition (lo hi left right : Nat) (top : Nat × Nat) (stack : List (Nat × Nat))
    : Option (Nat × Nat × List (Nat × Nat)) :=
  if ptrSub right lo ≤ q.maxThresh then
    if ptrSub hi left ≤ q.maxThresh then some (top.1, top.2, stack)
    else some (left, hi, top :: stack)
  else if ptrSub hi left ≤ q.maxThresh then some (lo, right, top :: stack)
  else if toPtrdiff (ptrSub right lo) > toPtrdiff (ptrSub hi left) then
    (push (top :: stack) lo right).map (fun stack => (left, hi, stack))
  else
    (push (top :: stack) left hi).map (fun stack => (lo, right, stack))

/-- The `while (STACK_NOT_EMPTY)` loop, at most `fuel` rounds; the top of the stack is its
head.
-/
def partitionLoop : Nat → Memory UInt8 → Nat → Nat → List (Nat × Nat) → Option (Memory UInt8)
  | _, m, _, _, [] => some m
  | 0, _, _, _, _ => none
  | fuel + 1, m, lo, hi, top :: stack => do
    let mid := ptrAdd lo (q.size * ((ptrSub hi lo / q.size) >>> 1))
    let m ← q.medianOfThree m lo mid hi
    let walls ← q.collapse fuel m mid (ptrAdd lo q.size) (ptrSub hi q.size)
    let next ← q.nextPartition lo hi walls.2.1 walls.2.2 top stack
    partitionLoop fuel walls.1 next.1 next.2.1 next.2.2

/-- The `for` loop that looks for the smallest element up to `thresh`. -/
def smallest (m : Memory UInt8) (thresh : Nat) : Nat → Nat → Nat → Option Nat
  | 0, _, _ => none
  | fuel + 1, run, tmp =>
    if run ≤ thresh then do
      let tmp := if (← q.compar m run tmp) < 0 then run else tmp
      smallest m thresh fuel (ptrAdd run q.size) tmp
    else some tmp

/-- `while (cmp (run_ptr, tmp_ptr) < 0) tmp_ptr -= size`, at most `fuel` rounds. -/
def place (m : Memory UInt8) (run : Nat) : Nat → Nat → Option Nat
  | 0, _ => none
  | fuel + 1, tmp => do
    if (← q.compar m run tmp) < 0 then place m run fuel (ptrSub tmp q.size)
    else some tmp

/-- The loop that moves the bytes of one column up, and the store of `c`. -/
def shiftColumn (tmp : Nat) (c : UInt8) : Nat → Memory UInt8 → Nat → Option (Memory UInt8)
  | 0, _, _ => none
  | fuel + 1, m, hi =>
    let lo := ptrSub hi q.size
    if lo ≥ tmp then do
      let m ← q.storeByte m hi (← q.loadByte m lo)
      shiftColumn tmp c fuel m lo
    else q.storeByte m hi c

/-- `while (--trav >= run_ptr)`. -/
def shiftColumns (run tmp : Nat) : Nat → Memory UInt8 → Nat → Option (Memory UInt8)
  | 0, _, _ => none
  | fuel + 1, m, trav =>
    let trav := ptrSub trav 1
    if trav ≥ run then do
      let c ← q.loadByte m trav
      let m ← q.shiftColumn tmp c fuel m trav
      shiftColumns run tmp fuel m trav
    else some m

/-- `if (tmp_ptr != run_ptr)` with its body. -/
def moveDown (fuel : Nat) (m : Memory UInt8) (run tmp : Nat) : Option (Memory UInt8) :=
  if tmp ≠ run then q.shiftColumns run tmp fuel m (ptrAdd run q.size) else some m

/-- `while ((run_ptr += size) <= end_ptr)`. -/
def insertionLoop (endPtr : Nat) : Nat → Memory UInt8 → Nat → Option (Memory UInt8)
  | 0, _, _ => none
  | fuel + 1, m, run =>
    let run := ptrAdd run q.size
    if run ≤ endPtr then do
      let tmp ← q.place m run fuel (ptrSub run q.size)
      let m ← q.moveDown fuel m run (ptrAdd tmp q.size)
      insertionLoop endPtr fuel m run
    else some m

/-- `&base_ptr[size * (total_elems - 1)]`. -/
def lastPtr : Nat := ptrAdd q.base (q.size * (q.total - 1) % 2 ^ 64)

/-- The part of `_quicksort` that partitions. -/
def partitionPhase (fuel : Nat) (m : Memory UInt8) : Option (Memory UInt8) :=
  if q.total > maxThreshElems then do
    let stack ← push [] 0 0
    q.partitionLoop fuel m q.base q.lastPtr stack
  else some m

/-- `if (tmp_ptr != base_ptr) SWAP (tmp_ptr, base_ptr, size)`. -/
def swapIfApart (m : Memory UInt8) (a b : Nat) : Option (Memory UInt8) :=
  if a ≠ b then q.swap m a b else some m

def insertionPhase (fuel : Nat) (m : Memory UInt8) : Option (Memory UInt8) := do
  let thresh := min q.lastPtr (ptrAdd q.base q.maxThresh)
  let tmp ← q.smallest m thresh fuel (ptrAdd q.base q.size) q.base
  let m ← q.swapIfApart m tmp q.base
  q.insertionLoop q.lastPtr fuel m (ptrAdd q.base q.size)

/-- `_quicksort`; no loop runs for more than `fuel` rounds. -/
def quicksort (fuel : Nat) (m : Memory UInt8) : Option (Memory UInt8) :=
  if q.total = 0 then some m
  else do
    let m ← q.partitionPhase fuel m
    q.insertionPhase fuel m

end QsortCall

end Nglibc.Sort
