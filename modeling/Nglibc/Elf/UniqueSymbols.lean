import Mathlib.Tactic

/-! The table of unique symbols of a namespace. A symbol is looked up by its name and the hash of its
name with double hashing, and is entered when it is not found.
-/

namespace Nglibc.UniqueSymbols

variable {ν σ μ : Type}

/-- An entry, where `none` is `NULL`. -/
structure UniqueSym (ν σ μ : Type) where
  hashval : Nat
  name : Option ν
  sym : Option σ
  map : Option μ

/-- What `calloc` gives. -/
def UniqueSym.zero : UniqueSym ν σ μ := ⟨0, none, none, none⟩

structure UniqueSymTable (ν σ μ : Type) where
  entries : Option (Nat → UniqueSym ν σ μ)
  size : Nat
  nElements : Nat

/-- What goes wrong: `strcmp` gets a null pointer, a loop never ends, the search for a prime ends
behind the array, or the program ends because there is no memory.
-/
inductive Failure
  | nullCompared
  | endless
  | behindPrimes
  | outOfMemory
  deriving DecidableEq

def primes : List Nat :=
  [7, 13, 31, 61, 127, 251, 509, 1021, 2039, 4093, 8191, 16381, 32749, 65521, 131071, 262139,
    524287, 1048573, 2097143, 4194301, 8388593, 16777213, 33554393, 67108859, 134217689, 268435399,
    536870909, 1073741789, 2147483647, 2147483647 + 2147483644]

/-- The binary search of `_dl_higher_prime_number`, where `low` is never above `high`. -/
def primeSearch (n low high : Nat) : Nat :=
  if low < high then
    let mid := low + (high - low) / 2
    if n > primes.getD mid 0 then primeSearch n (mid + 1) high else primeSearch n low mid
  else low
  termination_by high - low

/-- `_dl_higher_prime_number` -/
def higherPrimeNumber (n : Nat) : Except Failure Nat :=
  match primes[primeSearch n 0 primes.length]? with
  | some prime => .ok prime
  | none => .error .behindPrimes

def advance (size hash2 idx : Nat) : Nat :=
  if idx + hash2 ≥ size then idx + hash2 - size else idx + hash2

/-- The loop of `enter_unique_sym`. The first argument counts the steps that are left: after `size`
steps `idx` is where it started, and the loop never ends.
-/
def freeSlot (table : Nat → UniqueSym ν σ μ) (size hash2 : Nat) : Nat → Nat → Except Failure Nat
  | 0, _ => .error .endless
  | steps + 1, idx =>
    match (table idx).name with
    | none => .ok idx
    | some _ => freeSlot table size hash2 steps (advance size hash2 idx)

def enterUniqueSym (table : Nat → UniqueSym ν σ μ) (size : Nat) (hash : Nat) (name : ν)
    (sym : Option σ) (map : Option μ)
    : Except Failure (Nat → UniqueSym ν σ μ) := do
  let idx ← freeSlot table size (1 + hash % (size - 2)) size (hash % size)
  return Function.update table idx ⟨hash, some name, sym, map⟩

/-- The search of `do_lookup_unique`, with the entry if there is one. -/
def search [DecidableEq ν] (entries : Nat → UniqueSym ν σ μ) (size hash2 newHash : Nat) (undefName : ν)
    : Nat → Nat → Except Failure (Option (UniqueSym ν σ μ))
  | 0, _ => .error .endless
  | steps + 1, idx =>
    let e := entries idx
    -- The hash is tested before the name is known to be there.
    if e.hashval = newHash ∧ e.name = none then .error .nullCompared
    else if e.hashval = newHash ∧ e.name = some undefName then .ok (some e)
    else if e.name = none then .ok none
    else search entries size hash2 newHash undefName steps (advance size hash2 idx)

/-- The loop that enters the first `n` entries in the new table. -/
def reenter (entries : Nat → UniqueSym ν σ μ) (newsize : Nat)
    : Nat → Except Failure (Nat → UniqueSym ν σ μ)
  | 0 => .ok fun _ => .zero
  | n + 1 => do
    let newentries ← reenter entries newsize n
    match (entries n).name with
    | none => return newentries
    | some name =>
      enterUniqueSym newentries newsize (entries n).hashval name (entries n).sym (entries n).map

def initialNuniqueSymTable : Nat := 31

/-- The table gets room for one more entry, with the answer of `calloc`. -/
def UniqueSymTable.expand (tab : UniqueSymTable ν σ μ) (calloc : Bool)
    : Except Failure ((Nat → UniqueSym ν σ μ) × Nat) :=
  match tab.entries with
  | some entries =>
    if tab.size * 3 ≤ tab.nElements * 4 then do
      let newsize ← higherPrimeNumber (tab.size + 1)
      if calloc then
        let newentries ← reenter entries newsize tab.size
        return (newentries, newsize)
      else throw .outOfMemory
    else return (entries, tab.size)
  | none =>
    if calloc then return (fun _ => .zero, initialNuniqueSymTable) else throw .outOfMemory

/-- The fields of an object that `do_lookup_unique` uses: whether its type is `lt_loaded`, and whether
it is marked as not to be unloaded.
-/
structure LinkMap where
  loaded : Bool
  nodeletePending : Bool
  nodeleteActive : Bool

def LinkMap.markNodelete (map : LinkMap) (forRelocate : Bool) : LinkMap :=
  if forRelocate then { map with nodeletePending := true } else { map with nodeleteActive := true }

def LinkMap.isNodelete (map : LinkMap) (forRelocate : Bool) : Bool :=
  map.nodeleteActive || forRelocate && map.nodeletePending

structure Result (ν σ μ : Type) where
  tab : UniqueSymTable ν σ μ
  linkMap : LinkMap
  sym : Option σ
  map : Option μ

/-- `do_lookup_unique`, where `copy` is the reference with its object for a copy relocation. -/
def doLookupUnique [DecidableEq ν] (tab : UniqueSymTable ν σ μ) (undefName : ν) (newHash : Nat)
    (map : μ) (linkMap : LinkMap) (copy : Option (σ × μ)) (sym : σ) (symName : ν) (forRelocate calloc : Bool)
    : Except Failure (Result ν σ μ) := do
  let found ←
    match tab.entries with
    | some entries =>
      search entries tab.size (1 + newHash % (tab.size - 2)) newHash undefName tab.size
        (newHash % tab.size)
    | none => pure none
  match found with
  | some e =>
    match copy with
    | some _ => return { tab, linkMap, sym := some sym, map := some map }
    | none => return { tab, linkMap, sym := e.sym, map := e.map }
  | none =>
    let (entries, size) ← tab.expand calloc
    match copy with
    | some (ref, undefMap) =>
      let entries ← enterUniqueSym entries size newHash symName (some ref) (some undefMap)
      return {
        tab := { entries, size, nElements := tab.nElements + 1 }
        linkMap
        sym := some sym
        map := some map }
    | none =>
      let entries ← enterUniqueSym entries size newHash symName (some sym) (some map)
      return {
        tab := { entries, size, nElements := tab.nElements + 1 }
        linkMap :=
          if linkMap.loaded && !linkMap.isNodelete forRelocate then linkMap.markNodelete forRelocate
          else linkMap
        sym := some sym
        map := some map }

/-- Whether the entry is in use and belongs to the object. -/
def UniqueSym.OwnedBy (e : UniqueSym ν σ μ) (imap : μ) : Prop := e.name ≠ none ∧ e.map = some imap

instance [DecidableEq ν] [DecidableEq μ] (e : UniqueSym ν σ μ) (imap : μ)
    : Decidable (e.OwnedBy imap) :=
  inferInstanceAs (Decidable (_ ∧ _))

/-- The part of `_dl_close_worker` that resets the unique symbols of one object. -/
def UniqueSymTable.reset [DecidableEq ν] [DecidableEq μ] (tab : UniqueSymTable ν σ μ) (imap : μ)
    : UniqueSymTable ν σ μ :=
  match tab.entries with
  | none => tab
  | some entries =>
    { tab with
      entries := some fun idx =>
        if idx < tab.size ∧ (entries idx).OwnedBy imap then
          { entries idx with name := none, hashval := 0 }
        else entries idx
      nElements := tab.nElements
        - ((Finset.range tab.size).filter fun idx => (entries idx).OwnedBy imap).card }

end Nglibc.UniqueSymbols
