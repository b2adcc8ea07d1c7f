import Nglibc.Elf.SymbolHash

/-! The lookup of a symbol in the objects of a scope, through the GNU hash table of an object or through
its hash table from the System V interface.
-/

namespace Nglibc.SymbolLookup

/-- A string in the string table of an object, without the final zero. -/
abbrev Name := List UInt8

/-- A symbol with its name from the string table and the parts of `st_info` and `st_other`. -/
structure Sym where
  name : Name
  bind : Nat
  type : Nat
  visibility : Nat
  shndx : Nat
  value : Nat

def shnUndef : Nat := 0
def shnAbs : Nat := 0xfff1
def sttTls : Nat := 6
def stbGlobal : Nat := 1
def stbWeak : Nat := 2
def stbGnuUnique : Nat := 10
def stvInternal : Nat := 1
def stvHidden : Nat := 2

/-- The types in `ALLOWED_STT`. -/
def allowedStt : List Nat := [0, 1, 2, 5, 6, 10]

/-- `struct r_found_version`, where `none` is `NULL`. -/
structure FoundVersion where
  name : Option Name
  hash : Nat
  hidden : Bool
  filename : Option Name

/-- The fields of a loaded object that do not depend on its hash table. `nameMatch` stands for
`_dl_name_match_p`.
-/
structure Object where
  id : Nat
  executable : Bool
  removed : Bool
  symtab : Nat → Sym
  versyms : Option (Nat → Nat)
  versions : Nat → FoundVersion
  nameMatch : Name → Bool

/-- What is looked up: `ref` is the object and the index of the symbol that refers, and `plt` and
`copy` are the bits of the type class.
-/
structure Reference where
  undefName : Name
  ref : Option (Nat × Nat)
  version : Option FoundVersion
  returnNewest : Bool
  plt : Bool
  copy : Bool
  skip : Option Nat

/-- A failed assertion, a null pointer for `strcmp`, or a loop that runs on. -/
inductive Failure
  | assertion
  | nullCompared
  | runsOn
  deriving DecidableEq

/-- A table in memory, as 32-bit words and as words of the native size. Positions count 32-bit words. -/
structure Image where
  word32 : Nat → Nat
  wordAddr : Nat → Nat

section Gnu

variable (nativeClass : Nat) (hash : Image)

def Image.nbuckets : Nat := hash.word32 0
def Image.symbias : Nat := hash.word32 1
def Image.bitmaskNwords : Nat := hash.word32 2
def Image.gnuShift : Nat := hash.word32 3

/-- `l_gnu_bitmask` -/
def Image.bitmask (i : Nat) : Nat := hash.wordAddr (4 + nativeClass / 32 * i)

/-- `l_gnu_buckets` -/
def Image.gnuBuckets (i : Nat) : Nat := hash.word32 (4 + nativeClass / 32 * hash.bitmaskNwords + i)

/-- `l_gnu_chain_zero`, which is indexed by symbols. -/
def Image.gnuChainZero (i : Nat) : Nat :=
  hash.word32 (4 + nativeClass / 32 * hash.bitmaskNwords + hash.nbuckets + i - hash.symbias)

end Gnu

/-- The fields that `_dl_setup_hash` sets besides `l_nbuckets`. -/
inductive HashTable
  | gnu (bitmaskIdxbits shift : Nat) (bitmask buckets chainZero : Nat → Nat)
  | sysv (buckets chain : Nat → Nat)

structure LinkMap where
  object : Object
  nbuckets : Nat
  table : HashTable

def pred32 (n : Nat) : Nat := (n + (2 ^ 32 - 1)) % 2 ^ 32

/-- `_dl_setup_hash`, with the tables that the object has. Without a table `l_nbuckets` stays zero. -/
def dlSetupHash (nativeClass : Nat) (object : Object) (gnuHash : Option Image) (hash : Option (Nat → Nat))
    : Except Failure LinkMap :=
  match gnuHash, hash with
  | some table, _ =>
    if table.bitmaskNwords &&& pred32 table.bitmaskNwords = 0 then
      return {
        object
        nbuckets := table.nbuckets
        table := .gnu (pred32 table.bitmaskNwords) table.gnuShift (table.bitmask nativeClass)
          (table.gnuBuckets nativeClass) (table.gnuChainZero nativeClass) }
    else throw .assertion
  | none, some hash =>
    return {
      object
      nbuckets := hash 0
      table := .sysv (fun i => hash (2 + i)) (fun i => hash (2 + hash 0 + i)) }
  | none, none => return { object, nbuckets := 0, table := .sysv (fun _ => 0) (fun _ => 0) }

/-- `num_versions` and `versioned_sym` -/
structure Seen where
  numVersions : Nat
  versionedSym : Option Nat

/-- The strings are different, or one of them is missing. -/
def strcmp : Option Name → Option Name → Except Failure Bool
  | some a, some b => .ok (a ≠ b)
  | _, _ => .error .nullCompared

def FoundVersion.differs (own version : FoundVersion) : Except Failure Bool :=
  if own.hash ≠ version.hash then .ok true else strcmp own.name version.name

/-- `check_match`, with whether the symbol is returned. `elf_machine_sym_no_match` is false. -/
def checkMatch (map : Object) (r : Reference) (symidx : Nat) (seen : Seen)
    : Except Failure (Bool × Seen) :=
  let sym := map.symtab symidx
  if (sym.value = 0 ∧ sym.shndx ≠ shnAbs ∧ sym.type ≠ sttTls) ∨ (r.plt ∧ sym.shndx = shnUndef) then
    .ok (false, seen)
  else if sym.type ∉ allowedStt then .ok (false, seen)
  else if r.ref ≠ some (map.id, symidx) ∧ sym.name ≠ r.undefName then .ok (false, seen)
  else
    match r.version, map.versyms with
    | some version, none =>
      match version.filename with
      | none => .ok (true, seen)
      | some filename => if map.nameMatch filename then .error .assertion else .ok (true, seen)
    | some version, some verstab => do
      let own := map.versions (verstab symidx &&& 0x7fff)
      let differs ← own.differs version
      if differs ∧ (version.hidden ∨ own.hash ≠ 0 ∨ verstab symidx &&& 0x8000 ≠ 0) then
        return (false, seen)
      else return (true, seen)
    | none, none => .ok (true, seen)
    | none, some verstab =>
      if verstab symidx &&& 0x7fff ≥ (if r.returnNewest then 2 else 3) then
        -- Hidden symbols are not counted.
        if verstab symidx &&& 0x8000 = 0 then
          .ok (false, {
            numVersions := seen.numVersions + 1
            versionedSym := if seen.numVersions = 0 then some symidx else seen.versionedSym })
        else .ok (false, seen)
      else .ok (true, seen)

/-- The `do` loop over the chain of a bucket, for at most the given number of steps. -/
def gnuLoop (map : Object) (r : Reference) (newHash : Nat) (chainZero : Nat → Nat)
    : Nat → Nat → Seen → Except Failure (Option Nat × Seen)
  | 0, _, _ => .error .runsOn
  | steps + 1, symidx, seen => do
    let (found, seen) ←
      if (chainZero symidx ^^^ newHash) >>> 1 = 0 then checkMatch map r symidx seen
      else .ok (false, seen)
    if found then return (some symidx, seen)
    else if chainZero symidx &&& 1 = 0 then gnuLoop map r newHash chainZero steps (symidx + 1) seen
    else return (none, seen)

/-- The `for` loop over the links of a bucket. -/
def sysvLoop (map : Object) (r : Reference) (chain : Nat → Nat)
    : Nat → Nat → Seen → Except Failure (Option Nat × Seen)
  | 0, _, _ => .error .runsOn
  | steps + 1, symidx, seen =>
    if symidx = 0 then .ok (none, seen)
    else do
      let (found, seen) ← checkMatch map r symidx seen
      if found then return (some symidx, seen)
      else sysvLoop map r chain steps (chain symidx) seen

/-- The search of `do_lookup_x` in one object up to the label `found_it`. `*old_hash` is the hash of
the name from its first use on.
-/
def searchMap (nativeClass steps : Nat) (map : LinkMap) (r : Reference) (newHash : Nat)
    : Except Failure (Option Nat) := do
  let seen : Seen := ⟨0, none⟩
  let (found, seen) ←
    match map.table with
    | .gnu bitmaskIdxbits shift bitmask buckets chainZero =>
      let word := bitmask ((newHash / nativeClass) &&& bitmaskIdxbits)
      let hashbit1 := newHash &&& (nativeClass - 1)
      let hashbit2 := (newHash >>> shift) &&& (nativeClass - 1)
      if (word >>> hashbit1) &&& (word >>> hashbit2) &&& 1 ≠ 0 then
        let bucket := buckets (newHash % map.nbuckets)
        if bucket ≠ 0 then gnuLoop map.object r newHash chainZero steps bucket seen
        else .ok (none, seen)
      else .ok (none, seen)
    | .sysv buckets chain =>
      let oldHash := (SymbolHash.dlElfHash r.undefName).toNat
      sysvLoop map.object r chain steps (buckets (oldHash % map.nbuckets)) seen
  return match found with
    | some symidx => some symidx
    | none => if seen.numVersions = 1 then seen.versionedSym else none

/-- The result of `do_lookup_x`: nothing, or a symbol with its object, or one for `do_lookup_unique`. -/
inductive Outcome
  | notFound (result : Option (Nat × Nat))
  | found (map symidx : Nat)
  | unique (map symidx : Nat)
  deriving DecidableEq

/-- The part after `found_it`: the lookup ends with an outcome, or it goes on with a result. -/
def foundIt (map : Object) (symidx : Nat) (dynamicWeak : Bool) (result : Option (Nat × Nat))
    : Outcome ⊕ Option (Nat × Nat) :=
  let sym := map.symtab symidx
  if sym.visibility = stvHidden ∨ sym.visibility = stvInternal then .inr result
  else if sym.bind = stbWeak ∧ dynamicWeak then
    .inr (if result = none then some (map.id, symidx) else result)
  else if sym.bind = stbWeak ∨ sym.bind = stbGlobal then .inl (.found map.id symidx)
  else if sym.bind = stbGnuUnique then .inl (.unique map.id symidx)
  else .inr result

/-- `do_lookup_x` for the rest of a scope. `_dl_check_protected_symbol` only warns or raises an error
about the symbol that was found.
-/
def doLookupX (nativeClass steps : Nat) (r : Reference) (newHash : Nat) (dynamicWeak : Bool)
    : List LinkMap → Option (Nat × Nat) → Except Failure Outcome
  | [], result => .ok (.notFound result)
  | map :: rest, result =>
    if r.skip = some map.object.id ∨ (r.copy ∧ map.object.executable) ∨ map.object.removed
        ∨ map.nbuckets = 0 then
      doLookupX nativeClass steps r newHash dynamicWeak rest result
    else do
      match ← searchMap nativeClass steps map r newHash with
      | none => doLookupX nativeClass steps r newHash dynamicWeak rest result
      | some symidx =>
        match foundIt map.object symidx dynamicWeak result with
        | .inl outcome => return outcome
        | .inr result => doLookupX nativeClass steps r newHash dynamicWeak rest result

end Nglibc.SymbolLookup
