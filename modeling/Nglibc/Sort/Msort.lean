import Nglibc.Sort.Quicksort

/-! `qsort_r` of `stdlib/msort.c`: merge sort through a temporary buffer, directly for small
elements and through an array of pointers for large ones, with `_quicksort` as the fallback.
-/

namespace Nglibc.Sort

open Memory

/-- `struct msort_param`; `cmp` with its `arg` reads the elements behind its two pointers. -/
structure MsortParam where
  s : Nat
  var : Nat
  cmp : Memory UInt8 → Nat → Nat → Int
  t : Nat

/-- `sizeof (unsigned long)`. -/
def longSize : Nat := 8

/-- `while (tmpl < tmp) *tmpl++ = *bl++`. -/
def copyLongs (m : Memory UInt8) (tmpl bl tmp : Nat) : Memory UInt8 :=
  if tmpl < tmp then
    copyLongs (m.store tmpl (m.slice bl longSize)) (tmpl + longSize) (bl + longSize) tmp
  else m
  termination_by tmp - tmpl
  decreasing_by
    simp only [longSize]
    omega

namespace MsortParam

variable (p : MsortParam)

/-- What `b1`, `b2` and `tmp` advance by in the five cases of the switch. -/
def width : Nat :=
  match p.var with
  | 0 => 4
  | 1 => 8
  | 3 => pointerSize
  | _ => p.s

/-- The copy of one element in the five cases of the switch. -/
def copy (m : Memory UInt8) (tmp b : Nat) : Memory UInt8 :=
  match p.var with
  | 0 => m.store tmp (m.slice b 4)
  | 1 => m.store tmp (m.slice b 8)
  | 2 => copyLongs m tmp b (tmp + p.s)
  | 3 => m.store tmp (m.slice b pointerSize)
  | _ => m.store tmp (m.slice b p.s)

/-- The comparison in the five cases of the switch: case 3 compares what `b1` and `b2` point
to.
-/
def compare (m : Memory UInt8) (b1 b2 : Nat) : Int :=
  match p.var with
  | 3 => p.cmp m (loadPointer m b1) (loadPointer m b2)
  | _ => p.cmp m b1 b2

structure Merge where
  m : Memory UInt8
  tmp : Nat
  b1 : Nat
  b2 : Nat
  n1 : Nat
  n2 : Nat

/-- `while (n1 > 0 && n2 > 0)`. -/
def mergeLoop (g : Merge) : Merge :=
  if 0 < g.n1 ∧ 0 < g.n2 then
    if p.compare g.m g.b1 g.b2 ≤ 0 then
      mergeLoop
        { g with m := p.copy g.m g.tmp g.b1
                 tmp := g.tmp + p.width
                 b1 := g.b1 + p.width
                 n1 := g.n1 - 1 }
    else
      mergeLoop
        { g with m := p.copy g.m g.tmp g.b2
                 tmp := g.tmp + p.width
                 b2 := g.b2 + p.width
                 n2 := g.n2 - 1 }
  else g
  termination_by g.n1 + g.n2

def mergeHalves (m : Memory UInt8) (b n1 n : Nat) : Memory UInt8 :=
  let g := p.mergeLoop { m, tmp := p.t, b1 := b, b2 := b + n1 * p.s, n1, n2 := n - n1 }
  let m := if 0 < g.n1 then g.m.store g.tmp (g.m.slice g.b1 (g.n1 * p.s)) else g.m
  m.store b (m.slice p.t ((n - g.n2) * p.s))

def msortWithTmp (m : Memory UInt8) (b n : Nat) : Memory UInt8 :=
  if n ≤ 1 then m
  else
    let n1 := n / 2
    let n2 := n - n1
    let m := msortWithTmp m b n1
    let m := msortWithTmp m (b + n1 * p.s) n2
    p.mergeHalves m b n1 n
  termination_by n

end MsortParam

/-- `b`, `n`, `s` and `cmp` with its `arg`. -/
structure SortCall where
  b : Nat
  n : Nat
  s : Nat
  cmp : Element s → Element s → Int

/-- What `qsort_r` learns from the system: the two `sysconf` values, the address `alloca`
returns and the one `malloc` returns.
-/
structure Platform where
  physPages : Int
  pagesize : Nat
  stack : Nat
  heap : Option Nat

/-- A quarter of the physical pages; `sysconf` that fails counts as enough memory. -/
def Platform.quarter (sys : Platform) : Int :=
  (if sys.physPages = -1 then 2 ^ 63 - 1 else sys.physPages).tdiv 4

namespace SortCall

variable (c : SortCall)

/-- `size`, the bytes of the temporary array. -/
def tmpSize : Nat :=
  if c.s > 32 then (2 * c.n * pointerSize + c.s) % 2 ^ 64 else c.n * c.s % 2 ^ 64

/-- The address of the temporary array; none when `_quicksort` takes over. -/
def temporary (sys : Platform) : Option Nat :=
  if c.tmpSize < 1024 then some sys.stack
  else if c.tmpSize / sys.pagesize > (sys.quarter % 2 ^ 64).toNat then none
  else sys.heap

/-- The comparison that the code calls with two pointers. -/
def comparePtrs (m : Memory UInt8) (a b : Nat) : Int :=
  c.cmp (elementAt m c.s a) (elementAt m c.s b)

/-- `p.var` for direct sorting. -/
def variant : Nat :=
  if c.s % 4 = 0 ∧ c.b % 4 = 0 then
    if c.s = 4 then 0
    else if c.s = 8 ∧ c.b % 8 = 0 then 1
    else if c.s % longSize = 0 ∧ c.b % 8 = 0 then 2
    else 4
  else 4

/-- `while (t < tmp_storage) *t++ = ip, ip += s`, for the elements from `i` on. -/
def fillPointers (tp : Nat) (m : Memory UInt8) : Nat → Nat → Memory UInt8
  | _, 0 => m
  | i, left + 1 =>
    fillPointers tp (storePointer m (tp + i * pointerSize) (c.b + i * c.s)) (i + 1) left

/-- The `do` loop that follows one cycle of the permutation, and the two statements behind
it.
-/
def followCycle (tp storage ip : Nat) : Nat → Memory UInt8 → Nat → Nat → Nat → Option (Memory UInt8)
  | 0, _, _, _, _ => none
  | fuel + 1, m, j, jp, kp =>
    let k := (kp - c.b) / c.s
    let m := storePointer m (tp + j * pointerSize) jp
    let m := m.store jp (m.slice kp c.s)
    let next := loadPointer m (tp + k * pointerSize)
    if next ≠ ip then followCycle tp storage ip fuel m k kp next
    else
      let m := storePointer m (tp + k * pointerSize) kp
      some (m.store kp (m.slice storage c.s))

/-- The body of the `for` loop: the cycle of element `i`, if it is not settled yet. -/
def settle (tp storage fuel i : Nat) (m : Memory UInt8) : Option (Memory UInt8) :=
  let ip := c.b + i * c.s
  let kp := loadPointer m (tp + i * pointerSize)
  if kp ≠ ip then
    c.followCycle tp storage ip fuel (m.store storage (m.slice ip c.s)) i ip kp
  else some m

/-- The `for` loop over the cycles, for the elements from `i` on. -/
def permute (tp storage fuel : Nat) : Nat → Nat → Memory UInt8 → Option (Memory UInt8)
  | _, 0, m => some m
  | i, left + 1, m => do
    let m ← c.settle tp storage fuel i m
    permute tp storage fuel (i + 1) left m

/-- Indirect sorting, with the temporary array at `t`. -/
def sortIndirect (fuel t : Nat) (m : Memory UInt8) : Option (Memory UInt8) :=
  let tp := t + c.n * pointerSize
  let storage := tp + c.n * pointerSize
  let m := c.fillPointers tp m 0 c.n
  let p : MsortParam := { s := pointerSize, var := 3, cmp := c.comparePtrs, t }
  let m := p.msortWithTmp m tp c.n
  c.permute tp storage fuel 0 c.n m

/-- Direct sorting, with the temporary array at `t`. -/
def sortDirect (t : Nat) (m : Memory UInt8) : Memory UInt8 :=
  let p : MsortParam := { s := c.s, var := c.variant, cmp := c.comparePtrs, t }
  p.msortWithTmp m c.b c.n

/-- `__qsort_r`; no loop over the pointers or of `_quicksort` runs for more than `fuel`
rounds.
-/
def qsortR (sys : Platform) (fuel : Nat) (m : Memory UInt8) : Option (Memory UInt8) :=
  match c.temporary sys with
  | none =>
    QsortCall.quicksort { base := c.b, total := c.n, size := c.s, cmp := c.cmp } fuel m
  | some t => if c.s > 32 then c.sortIndirect fuel t m else some (c.sortDirect t m)

end SortCall

end Nglibc.Sort
