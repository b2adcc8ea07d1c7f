import Mathlib.Tactic

/-! Environment vectors of `string/envz.c`, with `argz_delete` of `string/argz-delete.c` and
`argz_append` of `string/argz-append.c`. Sizes are those of objects in memory and do not wrap. A
computation that is `none` reads or writes outside the block of the vector or of a string.
-/

namespace Nglibc.Strings

def sep : UInt8 := 61

def enomem : Nat := 12

/-- A vector: the block that `envz` points to, `none` for a null pointer, and `envz_len`. -/
structure Envz where
  block : Option (List UInt8)
  len : Nat
deriving DecidableEq

/-- What `realloc` does: it refuses, or it returns a block whose new bytes have some contents. -/
abbrev Realloc := Option (Nat → UInt8)

namespace Envz

def bytes (v : Envz) : List UInt8 := v.block.getD []

end Envz

/-- The first loop of `envz_entry`, over `p`, `envz` and `envz_len`. -/
def matchLoop : List UInt8 → List UInt8 → Nat → Option (List UInt8 × List UInt8 × Nat)
  | p, envz, 0 => some (p, envz, 0)
  | a :: p, b :: envz, len + 1 =>
    if a = b ∧ a ≠ 0 ∧ a ≠ sep then matchLoop p envz len
    else some (a :: p, b :: envz, len + 1)
  | _, _, _ => none

/-- The second loop of `envz_entry`, which skips to the end of the entry. -/
def skipLoop : List UInt8 → Nat → Option (List UInt8 × Nat)
  | envz, 0 => some (envz, 0)
  | b :: envz, len + 1 => if b ≠ 0 then skipLoop envz len else some (b :: envz, len + 1)
  | [], _ + 1 => none

/-- The loop of `envz_entry` for the entry at `offset`; `name` are the bytes from `name` on. -/
def entryLoop (name : List UInt8) : Nat → Nat → List UInt8 → Nat → Option (Option Nat)
  | _, _, _, 0 => some none
  | 0, _, _, _ => none
  | fuel + 1, offset, envz, len => do
    let (p, rest, left) ← matchLoop name envz len
    let e ← rest.head?
    let c ← p.head?
    if (e = 0 ∨ e = sep) ∧ (c = 0 ∨ c = sep) then return some offset
    else
      let (rest, left) ← skipLoop rest left
      match left with
      | 0 => return none
      | left + 1 => entryLoop name fuel (offset + (len - left)) rest.tail left

/-- `envz_entry`, with the offset of the entry. Every round of its loop takes at least a byte. -/
def envzEntry (v : Envz) (name : List UInt8) : Option (Option Nat) :=
  entryLoop name v.len 0 v.bytes v.len

def strlen : List UInt8 → Option Nat
  | [] => none
  | b :: bytes => if b = 0 then some 0 else (strlen bytes).map (· + 1)

/-- The loop of `envz_get` from the entry on, and the string behind it. -/
def valueLoop : List UInt8 → Option (Option (List UInt8))
  | [] => none
  | b :: bytes =>
    if b = 0 then some none
    else if b = sep then (strlen bytes).map fun n => some (bytes.take n)
    else valueLoop bytes

/-- `envz_get`, with the bytes of the value. -/
def envzGet (v : Envz) (name : List UInt8) : Option (Option (List UInt8)) := do
  match ← envzEntry v name with
  | none => return none
  | some entry => valueLoop (v.bytes.drop entry)

/-- `memmove` of `n` bytes from `src` to `dst` in one block. -/
def memmove (block : List UInt8) (dst src n : Nat) : Option (List UInt8) :=
  if src + n ≤ block.length ∧ dst + n ≤ block.length then
    some (block.take dst ++ (block.drop src).take n ++ block.drop (dst + n))
  else none

/-- `argz_delete` of the entry at an offset. -/
def argzDelete (v : Envz) (entry : Nat) : Option Envz := do
  let entryLen := (← strlen (v.bytes.drop entry)) + 1
  let len := v.len - entryLen
  let block ← memmove v.bytes entry (entry + entryLen) (len - entry)
  if len = 0 then return { block := none, len } else return { block := some block, len }

def envzRemove (v : Envz) (name : List UInt8) : Option Envz := do
  match ← envzEntry v name with
  | none => return v
  | some entry => argzDelete v entry

/-- The vector reallocated to the size it needs, with `buf` written behind its bytes. -/
def appended (v : Envz) (buf : List UInt8) (fresh : Nat → UInt8) : Envz :=
  let newLen := v.len + buf.length
  let block := (List.range newLen).map fun i => (v.bytes[i]?).getD (fresh i)
  { block := some (block.take v.len ++ buf), len := newLen }

def argzAppend (v : Envz) (buf : List UInt8) (realloc : Realloc) : Nat × Envz :=
  match realloc with
  | none => (enomem, v)
  | some fresh => (0, appended v buf fresh)

/-- `envz_add`; the strings are given without their null terminators. -/
def envzAdd (v : Envz) (name : List UInt8) (value : Option (List UInt8)) (realloc : Realloc)
    : Option (Nat × Envz) := do
  let v ← envzRemove v (name ++ [0])
  match value with
  | some value => return argzAppend v (name ++ [sep] ++ value ++ [0]) realloc
  | none => return argzAppend v (name ++ [0]) realloc

/-- What a round of `envz_merge` does with the entry `buf`, which the vector has at `old`. -/
def mergeOne (v : Envz) (override : Bool) (old : Option Nat) (buf : List UInt8)
    (realloc : Realloc) : Option (Nat × Envz) :=
  match old with
  | none => some (argzAppend v buf realloc)
  | some old =>
    if override then (argzDelete v old).map fun v => argzAppend v buf realloc
    else some (0, v)

/-- `envz_merge`, from the bytes `envz2` of the other vector on; `round` counts the entries. -/
def mergeLoop (override : Bool) (realloc : Nat → Realloc)
    : Nat → Nat → Envz → List UInt8 → Nat → Option (Nat × Envz)
  | _, _, v, _, 0 => some (0, v)
  | 0, _, _, _, _ => none
  | fuel + 1, round, v, envz2, len2 => do
    let old ← envzEntry v envz2
    let newLen := (← strlen envz2) + 1
    let (err, v) ← mergeOne v override old (envz2.take newLen) (realloc round)
    if err ≠ 0 then return (err, v)
    else mergeLoop override realloc fuel (round + 1) v (envz2.drop newLen) (len2 - newLen)

def envzMerge (v v2 : Envz) (override : Bool) (realloc : Nat → Realloc) : Option (Nat × Envz) :=
  mergeLoop override realloc v2.len 0 v v2.bytes v2.len

/-- The loop of `envz_strip` over the block, the offset `entry` and `left`. -/
def stripLoop : Nat → List UInt8 → Nat → Nat → Option (List UInt8 × Nat)
  | _, block, entry, 0 => some (block, entry)
  | 0, _, _, _ => none
  | fuel + 1, block, entry, left => do
    let entryLen := (← strlen (block.drop entry)) + 1
    let left := left - entryLen
    if sep ∉ (block.drop entry).take (entryLen - 1) then
      let block ← memmove block entry (entry + entryLen) left
      stripLoop fuel block entry left
    else stripLoop fuel block (entry + entryLen) left

def envzStrip (v : Envz) : Option Envz := do
  let (block, len) ← stripLoop v.len v.bytes 0 v.len
  return { block := v.block.map fun _ => block, len }

end Nglibc.Strings
