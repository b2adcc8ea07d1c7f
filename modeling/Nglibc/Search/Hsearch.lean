import Nglibc.Lib.OpenAddressing

/-! The reentrant hash table of `misc/hsearch_r.c`: a table of `size + 1` slots of which the
slot 0 is never used, double hashing over the others, and no deletion.
-/

namespace Nglibc.Search

def uintMax : Nat := 2 ^ 32 - 1

/-- A value stored into an `unsigned int`. -/
def u32 (n : Nat) : Nat := n % 2 ^ 32

def CString := { bytes : List UInt8 // 0 ∉ bytes }

instance : DecidableEq CString := inferInstanceAs (DecidableEq { bytes : List UInt8 // 0 ∉ bytes })

/-- A `char` operand of an unsigned addition: `char` is signed and extends its sign. -/
def charToUint (c : UInt8) : Nat :=
  if c.toNat < 128 then c.toNat else c.toNat + 2 ^ 32 - 256

/-- The loop `while (count-- > 0)`, which reads the key from its end to its start. -/
def hashLoop (bytes : List UInt8) : Nat → Nat → Nat
  | 0, hval => hval
  | count + 1, hval =>
    hashLoop bytes count (u32 (u32 (hval <<< 4) + charToUint (bytes.getD count 0)))

/-- `hval`: 0 marks a free slot and is replaced by 1. -/
def hash (key : CString) : Nat :=
  let len := u32 key.val.length
  let hval := hashLoop key.val len len
  if hval = 0 then hval + 1 else hval

structure Entry (D : Type) where
  key : CString
  data : D
  deriving DecidableEq

/-- `_ENTRY`. A zeroed slot has the key `NULL`; a used one has an entry, so the `strcmp` that
follows the test of `used` never sees a null pointer.
-/
structure Slot (D : Type) where
  used : Nat
  entry : Option (Entry D)
  keyed : used ≠ 0 → entry.isSome

/-- A slot as `calloc` leaves it. -/
def Slot.zero {D : Type} : Slot D :=
  { used := 0, entry := none, keyed := fun h => absurd rfl h }

/-- `used == hval && strcmp (key, entry.key) == 0`. -/
def Slot.holds {D : Type} (slot : Slot D) (hval : Nat) (key : CString) : Bool :=
  slot.used == hval && slot.entry.any (fun e => e.key == key)

/-- `struct hsearch_data`; the table is none when its pointer is null. -/
structure HsearchData (D : Type) where
  table : Option (Nat → Slot D)
  size : Nat
  filled : Nat

inductive Errno where
  | einval
  | enomem
  | esrch
  deriving DecidableEq, Repr

/-- The loop of `isprime`; `div` stays below 2^16 and does not wrap. -/
def isprimeLoop (number div : Nat) : Bool :=
  if div ≤ number / div then
    if number % div = 0 then false else isprimeLoop number (div + 2)
  else
    true
  termination_by number + 1 - div
  decreasing_by
    have le : number / div ≤ number := Nat.div_le_self number div
    omega

def isprime (number : Nat) : Bool := isprimeLoop number 3

/-- The loop that looks for a prime in `[nel, UINT_MAX - 2]`. -/
def nextPrime (nel : Nat) : Option Nat :=
  if uintMax - 2 < nel then none
  else if isprime nel then some nel
  else nextPrime (nel + 2)
  termination_by uintMax - nel
  decreasing_by
    have : uintMax = 4294967295 := rfl
    omega

/-- `__hcreate_r`: the return value, `errno` where the function sets it, and the table;
`allocated` says whether `calloc` succeeds.
-/
def hcreateR {D : Type} (allocated : Bool) (nel : Nat) (htab : Option (HsearchData D))
    : Nat × Option Errno × Option (HsearchData D) :=
  match htab with
  | none => (0, some .einval, none)
  | some htab =>
    if htab.table.isSome then (0, none, some htab)
    else
      let nel := if nel < 3 then 3 else nel
      match nextPrime (nel ||| 1) with
      | none => (0, some .enomem, some htab)
      | some nel =>
        if allocated then
          (1, none, some { table := some (fun _ => .zero), size := nel, filled := 0 })
        else
          (0, none, some { table := none, size := nel, filled := 0 })

inductive Action where
  | find
  | enter
  deriving DecidableEq, Repr

def nextIdx (size hval2 idx : Nat) : Nat :=
  if idx ≤ hval2 then u32 (u32 (size + idx) + 2 ^ 32 - hval2) else idx - hval2

/-- The loop of `__hsearch_r`, at most `fuel` rounds of it: whether it found the key, the
index it ended with, and the indices it went through.
-/
def probe {D : Type} (table : Nat → Slot D) (size hval hval2 firstIdx : Nat) (key : CString)
    : Nat → Nat → List Nat → Option (Bool × Nat × List Nat)
  | 0, _, _ => none
  | fuel + 1, idx, indices =>
    let idx := nextIdx size hval2 idx
    let indices := indices ++ [idx]
    if idx = firstIdx then some (false, idx, indices)
    else if (table idx).holds hval key then some (true, idx, indices)
    else if (table idx).used ≠ 0 then
      probe table size hval hval2 firstIdx key fuel idx indices
    else some (false, idx, indices)

/-- What a call of `__hsearch_r` reports: the index `*retval` points to when it returns 1, or
`errno` when it returns 0, and all indices of the table it computed.
-/
structure Reply where
  result : Except Errno Nat
  indices : List Nat

/-- The search part of `__hsearch_r`, up to "An empty bucket has been found". -/
def lookup {D : Type} (fuel : Nat) (table : Nat → Slot D) (size : Nat) (key : CString)
    : Option (Bool × Nat × List Nat) :=
  let hval := hash key
  let idx := hval % size + 1
  if (table idx).used ≠ 0 then
    if (table idx).holds hval key then some (true, idx, [idx])
    else
      let hval2 := 1 + hval % (size - 2)
      probe table size hval hval2 idx key fuel idx [idx]
  else some (false, idx, [idx])

/-- `__hsearch_r`; none when the probe loop runs longer than `fuel` rounds or there is no
table.
-/
def hsearchR {D : Type} (fuel : Nat) (item : Entry D) (action : Action)
    (htab : HsearchData D)
    : Option (Reply × HsearchData D) := do
  let table ← htab.table
  let (found, idx, indices) ← lookup fuel table htab.size item.key
  if found then return ({ result := .ok idx, indices }, htab)
  match action with
  | .enter =>
    if htab.filled = htab.size then
      return ({ result := .error .enomem, indices }, htab)
    let slot : Slot D :=
      { used := hash item.key, entry := some item, keyed := fun _ => rfl }
    return ({ result := .ok idx, indices },
      { htab with table := some (Function.update table idx slot)
                  filled := htab.filled + 1 })
  | .find => return ({ result := .error .esrch, indices }, htab)

structure Call (D : Type) where
  action : Action
  item : Entry D

/-- A call, its reply, and the entry `*retval` points to when the call returns. -/
structure Event (D : Type) where
  call : Call D
  reply : Reply
  entry : Option (Entry D)

/-- The entry behind a pointer that a call returned. -/
def HsearchData.entryAt {D : Type} (htab : HsearchData D) : Except Errno Nat → Option (Entry D)
  | .ok idx => htab.table.bind (fun table => (table idx).entry)
  | .error _ => none

def run {D : Type} (fuel : Nat) : List (Call D) → HsearchData D
    → Option (List (Event D) × HsearchData D)
  | [], htab => some ([], htab)
  | call :: calls, htab => do
    let (reply, htab) ← hsearchR fuel call.item call.action htab
    let event := { call, reply, entry := htab.entryAt reply.result }
    let (events, htab) ← run fuel calls htab
    return (event :: events, htab)

end Nglibc.Search
