import Mathlib.Data.List.TakeWhile
import Nglibc.Stdlib.Environ

/-! What the environment functions do to the entries before the null pointer: the tests for a
name are prefix tests, the loops work on the list of entries, and along every run a call changes
only the name it is about.
-/

namespace Nglibc.Stdlib

open List

/-- The entry is of the form `name=value`. -/
def named (name entry : CString) : Bool := entry.take (name.length + 1) == name ++ [equalSign]

/-- A name as `setenv` and `unsetenv` accept it, a string without null bytes. -/
structure ValidName (name : CString) : Prop where
  accepted : invalidName name = false
  zero_not_mem : 0 ∉ name

/-- The entries of an array, up to the null pointer. -/
def entriesOf : List Cell → List CString
  | some entry :: cells => entry :: entriesOf cells
  | _ => []

def EnvState.entries (s : EnvState) : List CString := entriesOf (s.cells s.environ)

def lookup (name : CString) (entries : List CString) : Option CString :=
  (entries.find? (named name)).map (·.drop (name.length + 1))

def putEntry (name np : CString) : List CString → List CString
  | [] => [np]
  | entry :: entries =>
    if named name entry then np :: entries else entry :: putEntry name np entries

/-! Names of entries -/

theorem strncmpEqual_length (s t : CString)
    : strncmpEqual s t t.length = (s.take t.length == t) := by
  induction t generalizing s with
  | nil => simp [strncmpEqual]
  | cons b t ih =>
    cases s with
    | nil => rfl
    | cons a s => simp [strncmpEqual, ih]

variable {name entry : CString}

theorem named_iff
    : named name entry = true ↔ ∃ value, entry = name ++ equalSign :: value := by
  unfold named
  rw [beq_iff_eq]
  constructor
  · intro front
    refine ⟨entry.drop (name.length + 1), ?_⟩
    rw [← singleton_append, ← append_assoc, ← front, take_append_drop]
  · rintro ⟨value, rfl⟩
    rw [take_append]
    simp

/-- The character behind a prefix. -/
theorem charAt_append (s t : CString) : charAt (s ++ t) s.length = some (t.headD 0) := by
  unfold charAt
  cases t with
  | nil => simp
  | cons c t => simp

theorem named_append (name rest : CString)
    : named name (name ++ rest) = (rest.headD 0 == equalSign) := by
  rw [Bool.eq_iff_iff, named_iff]
  cases rest with
  | nil => simp [equalSign]
  | cons c rest => simp [List.headD]

theorem entryMatches_eq (entry name : CString)
    : entryMatches entry name = some (named name entry) := by
  unfold entryMatches
  rw [strncmpEqual_length]
  by_cases front : entry.take name.length = name
  · have split : entry = name ++ entry.drop name.length := by
      conv_lhs => rw [← take_append_drop name.length entry, front]
    rw [if_pos (beq_iff_eq.mpr front), split, charAt_append, named_append]
    rfl
  · rw [if_neg (by simpa using front)]
    have other : named name entry = false := by
      rw [Bool.eq_false_iff]
      intro yes
      obtain ⟨value, rfl⟩ := named_iff.mp yes
      exact front (take_left' rfl)
    rw [other]

variable {name : CString} {entries : List CString}

theorem takeWhile_name (valid : ValidName name) (value : CString)
    : (name ++ equalSign :: value).takeWhile (· != equalSign) = name := by
  have absent : equalSign ∉ name := by
    intro inName
    have accepted := valid.accepted
    simp [invalidName, inName] at accepted
  rw [takeWhile_append_of_pos]
  · simp
  · intro c inName
    exact bne_iff_ne.mpr fun same => absent (same ▸ inName)

theorem named_unique {n m entry : CString} (validN : ValidName n) (validM : ValidName m)
    (namedN : named n entry = true) (namedM : named m entry = true) : n = m := by
  obtain ⟨v, rfl⟩ := named_iff.mp namedN
  obtain ⟨w, same⟩ := named_iff.mp namedM
  rw [← takeWhile_name validN v, same, takeWhile_name validM w]

/-! Values of names -/

theorem named_pair (name value : CString) : named name (name ++ [equalSign] ++ value) = true :=
  named_iff.mpr ⟨value, by simp⟩

theorem lookup_cons_of_named (yes : named name entry = true) (entries : List CString)
    : lookup name (entry :: entries) = some (entry.drop (name.length + 1)) := by
  simp [lookup, yes]

theorem lookup_cons_of_not_named {name entry : CString} (no : named name entry = false)
    (entries : List CString) : lookup name (entry :: entries) = lookup name entries := by
  simp [lookup, no]

variable {name np : CString}

theorem lookup_putEntry_self (yes : named name np = true) (entries : List CString)
    : lookup name (putEntry name np entries) = some (np.drop (name.length + 1)) := by
  induction entries with
  | nil => exact lookup_cons_of_named yes []
  | cons entry entries ih =>
    unfold putEntry
    split
    case isTrue => exact lookup_cons_of_named yes entries
    case isFalse no =>
      rw [lookup_cons_of_not_named (Bool.eq_false_iff.mpr no), ih]

private theorem lookup_putEntry_other {n m np : CString} (validN : ValidName n) (validM : ValidName m)
    (ne : m ≠ n) (yes : named n np = true) (entries : List CString)
    : lookup m (putEntry n np entries) = lookup m entries := by
  have other : ∀ {entry}, named n entry = true → named m entry = false := by
    intro entry namedN
    rw [Bool.eq_false_iff]
    intro namedM
    exact ne (named_unique validM validN namedM namedN)
  induction entries with
  | nil => exact lookup_cons_of_not_named (other yes) []
  | cons entry entries ih =>
    unfold putEntry
    split
    case isTrue namedN =>
      rw [lookup_cons_of_not_named (other yes), lookup_cons_of_not_named (other namedN)]
    case isFalse =>
      cases namedM : named m entry with
      | true => rw [lookup_cons_of_named namedM, lookup_cons_of_named namedM]
      | false => rw [lookup_cons_of_not_named namedM, lookup_cons_of_not_named namedM, ih]

/-! The loops over an array -/

/-- The cells of an array with the given entries, its null pointer and what follows it. -/
def arrayOf (entries : List CString) (rest : List Cell) : List Cell :=
  entries.map some ++ none :: rest

theorem entriesOf_arrayOf (entries : List CString) (rest : List Cell)
    : entriesOf (arrayOf entries rest) = entries := by
  induction entries with
  | nil => rfl
  | cons entry entries ih => exact congrArg (entry :: ·) ih

theorem exists_arrayOf {cells : List Cell} (terminated : none ∈ cells)
    : ∃ rest, cells = arrayOf (entriesOf cells) rest := by
  induction cells with
  | nil => exact absurd terminated not_mem_nil
  | cons cell cells ih =>
    cases cell with
    | none => exact ⟨cells, rfl⟩
    | some entry =>
      have later : none ∈ cells := by simpa using terminated
      obtain ⟨rest, same⟩ := ih later
      exact ⟨rest, congrArg (some entry :: ·) same⟩

theorem none_mem_arrayOf (entries : List CString) (rest : List Cell)
    : none ∈ arrayOf entries rest :=
  mem_append_right _ mem_cons_self

theorem findEntry_arrayOf (name : CString) (entries : List CString) (rest : List Cell)
    : findEntry name (arrayOf entries rest) = some (entries.findIdx (named name)) := by
  induction entries with
  | nil => rfl
  | cons entry entries ih =>
    rw [arrayOf, map_cons, cons_append, findEntry, entryMatches_eq, findIdx_cons]
    cases yes : named name entry with
    | true => rfl
    | false =>
      rw [← arrayOf, ih]
      rfl

theorem getElem_arrayOf_findIdx (name : CString) (entries : List CString) (rest : List Cell)
    : (arrayOf entries rest)[entries.findIdx (named name)]?
      = some (entries.find? (named name)) := by
  induction entries with
  | nil => rfl
  | cons entry entries ih =>
    rw [findIdx_cons, find?_cons]
    cases yes : named name entry with
    | true => rfl
    | false => exact ih

/-- A store into the cell where the search stops; behind the last entry another null pointer must
follow.
-/
theorem set_arrayOf_found (rest : List Cell) (found : (entries.find? (named name)).isSome)
    : (arrayOf entries rest).set (entries.findIdx (named name)) (some np)
      = arrayOf (putEntry name np entries) rest := by
  induction entries with
  | nil => simp at found
  | cons entry entries ih =>
    rw [findIdx_cons]
    rw [find?_cons] at found
    unfold putEntry
    cases yes : named name entry with
    | true => rfl
    | false =>
      rw [yes] at found
      exact congrArg (some entry :: ·) (ih found)

theorem putEntry_absent (absent : entries.find? (named name) = none)
    : putEntry name np entries = entries ++ [np] := by
  induction entries with
  | nil => rfl
  | cons entry entries ih =>
    have no : named name entry = false := by
      have all := find?_eq_none.mp absent
      simpa using all entry mem_cons_self
    rw [find?_cons, no] at absent
    rw [putEntry, if_neg (by simp [no]), ih absent, cons_append]

theorem findIdx_absent (absent : entries.find? (named name) = none)
    : entries.findIdx (named name) = entries.length := by
  rw [findIdx_eq_length]
  intro entry inEntries
  have no := find?_eq_none.mp absent entry inEntries
  simpa using no

theorem moveBack_arrayOf (cell : Cell) (entries : List CString) (rest : List Cell)
    : moveBack (cell :: arrayOf entries rest) = some (arrayOf entries (none :: rest)) := by
  induction entries generalizing cell with
  | nil => rfl
  | cons entry entries ih =>
    have rest : moveBack (some entry :: arrayOf entries rest)
        = some (arrayOf entries (none :: rest)) := ih (some entry)
    rw [arrayOf, map_cons, cons_append, moveBack, ← arrayOf, rest]
    rfl

/-- `unsetenv` removes every entry with the name, in one pass. -/
theorem unsetLoop_arrayOf (name : CString) {fuel : Nat} (entries : List CString)
    (rest : List Cell) (enough : entries.length ≤ fuel)
    : ∃ rest', unsetLoop name fuel (arrayOf entries rest)
      = some (arrayOf (entries.filter (!named name ·)) rest') := by
  induction entries generalizing fuel rest with
  | nil => exact ⟨rest, by cases fuel <;> rfl⟩
  | cons entry entries ih =>
    cases fuel with
    | zero => exact absurd enough (by simp)
    | succ fuel =>
      have enough : entries.length ≤ fuel := by simpa using enough
      have moved := moveBack_arrayOf (some entry) entries rest
      rw [arrayOf, map_cons, cons_append, unsetLoop, entryMatches_eq, ← arrayOf]
      cases yes : named name entry with
      | true =>
        obtain ⟨rest', same⟩ := ih (none :: rest) enough
        refine ⟨rest', ?_⟩
        rw [filter_cons_of_neg (by simp [yes]), ← same, moved]
        rfl
      | false =>
        obtain ⟨rest', same⟩ := ih rest enough
        refine ⟨rest', ?_⟩
        rw [filter_cons_of_pos (by simp [yes]), same]
        rfl

/-! getenv -/

theorem start16_cons (a : UInt8) (s : CString)
    : start16 (a :: s) = some (a.toNat ||| (s.headD 0).toNat <<< 8) := by
  have second : charAt (a :: s) 1 = some (s.headD 0) := charAt_append [a] s
  unfold start16
  rw [second]
  rfl

theorem word16_inj {a b c d : UInt8}
    : a.toNat ||| b.toNat <<< 8 = c.toNat ||| d.toNat <<< 8 ↔ a = c ∧ b = d := by
  have word : ∀ x y : UInt8, x.toNat ||| y.toNat <<< 8 = y.toNat * 256 + x.toNat := by
    intro x y
    rw [Nat.or_comm, ← Nat.shiftLeft_add_eq_or_of_lt x.toNat_lt, Nat.shiftLeft_eq]
  have bound := a.toNat_lt
  have bound' := c.toNat_lt
  rw [word, word, ← UInt8.toNat_inj, ← UInt8.toNat_inj]
  constructor
  · intro same
    omega
  · rintro ⟨first, second⟩
    rw [first, second]

theorem named_cons (c a : UInt8) (name s : CString)
    : named (c :: name) (a :: s) = (a == c && named name s) := by
  simp [named]

theorem named_nil (s : CString) : named [] s = (s.headD 0 == equalSign) := by
  cases s with
  | nil => rfl
  | cons a s => simp [named]

private theorem getenvOne_arrayOf (c : UInt8) (rest : List Cell) (nonempty : ∀ entry ∈ entries, entry ≠ [])
    : getenvOne c (arrayOf entries rest) = some (lookup [c] entries) := by
  induction entries with
  | nil => rfl
  | cons entry entries ih =>
    obtain ⟨first, others⟩ := forall_mem_cons.mp nonempty
    rw [arrayOf, map_cons, cons_append, getenvOne, ← arrayOf, ih others]
    cases entry with
    | nil => exact absurd rfl first
    | cons a s =>
      have test : equalSign.toNat <<< 8 ||| c.toNat = a.toNat ||| (s.headD 0).toNat <<< 8
          ↔ named [c] (a :: s) = true := by
        rw [Nat.or_comm, word16_inj, named_cons, named_nil, Bool.and_eq_true, beq_iff_eq,
          beq_iff_eq, eq_comm, @eq_comm _ equalSign]
      rw [start16_cons]
      cases yes : named [c] (a :: s) with
      | true =>
        rw [lookup_cons_of_named yes]
        exact if_pos (test.mpr yes)
      | false =>
        rw [lookup_cons_of_not_named yes]
        exact if_neg (fun same => Bool.eq_false_iff.mp yes (test.mp same))

/-- The comparison of two characters, of the others and of the sign behind them is one for the
whole name.
-/
theorem moreMatches_eq (c d : UInt8) (name : CString) (nonzero : d ≠ 0) (a : UInt8) (s : CString)
    : moreMatches (c.toNat ||| d.toNat <<< 8) name name.length (a :: s)
      = some (named (c :: d :: name) (a :: s)) := by
  unfold moreMatches
  rw [start16_cons]
  simp only [Option.bind_eq_bind, Option.bind_some, word16_inj]
  cases s with
  | nil =>
    have other : ¬((c = a ∧ d = List.headD [] 0)
        ∧ strncmpEqual ([a].drop 2) name name.length = true) :=
      fun same => nonzero same.1.2
    rw [if_neg other]
    simp [named]
  | cons b s =>
    have behind : charAt (a :: b :: s) (name.length + 2) = charAt s name.length := by
      simp [charAt]
    have tail := entryMatches_eq s name
    unfold entryMatches at tail
    rw [named_cons, named_cons, behind]
    by_cases same : c = a ∧ d = b
    · obtain ⟨rfl, rfl⟩ := same
      simpa using tail
    · rw [if_neg (fun both => same both.1)]
      have differs : (a == c && (b == d && named name s)) = false := by
        rw [Bool.eq_false_iff]
        intro all
        simp only [Bool.and_eq_true, beq_iff_eq] at all
        exact same ⟨all.1.symm, all.2.1.symm⟩
      rw [differs]

private theorem getenvMore_arrayOf (c d : UInt8) (name : CString) (nonzero : d ≠ 0) (rest : List Cell)
    (nonempty : ∀ entry ∈ entries, entry ≠ [])
    : getenvMore (c.toNat ||| d.toNat <<< 8) name name.length (arrayOf entries rest)
      = some (lookup (c :: d :: name) entries) := by
  induction entries with
  | nil => rfl
  | cons entry entries ih =>
    obtain ⟨first, others⟩ := forall_mem_cons.mp nonempty
    rw [arrayOf, map_cons, cons_append, getenvMore, ← arrayOf, ih others]
    cases entry with
    | nil => exact absurd rfl first
    | cons a s =>
      rw [moreMatches_eq c d name nonzero]
      cases yes : named (c :: d :: name) (a :: s) with
      | true =>
        rw [lookup_cons_of_named yes]
        rfl
      | false =>
        rw [lookup_cons_of_not_named yes]
        rfl

/-! States -/

/-- `environ` is a null-terminated array with these entries. -/
def EnvState.IsArray (s : EnvState) (entries : List CString) : Prop :=
  ∃ p rest, s.environ = some p ∧ s.arrays p = arrayOf entries rest

/-- What holds between calls: the environment is an array of non-empty entries, or `NULL` and
empty, and `last_environ` is `NULL` or the environment.
-/
structure EnvState.Holds (s : EnvState) (entries : List CString) : Prop where
  array : s.IsArray entries ∨ s.environ = none ∧ entries = []
  nonempty : ∀ entry ∈ entries, entry ≠ []
  last : s.lastEnviron = none ∨ s.lastEnviron = s.environ

variable {s : EnvState} {entries : List CString} {memory : EnvMemory}

theorem EnvState.IsArray.entries_eq (array : s.IsArray entries) : s.entries = entries := by
  obtain ⟨p, rest, environ, cells⟩ := array
  unfold EnvState.entries EnvState.cells
  rw [environ]
  dsimp only
  rw [cells, entriesOf_arrayOf]

theorem EnvState.Holds.entries_eq (holds : s.Holds entries) : s.entries = entries := by
  rcases holds.array with array | ⟨null, rfl⟩
  · exact array.entries_eq
  · unfold EnvState.entries EnvState.cells
    rw [null]
    rfl

theorem getenv_holds (holds : s.Holds entries) (valid : ValidName name)
    : getenv s name = some (lookup name entries) := by
  unfold getenv
  rcases holds.array with ⟨p, rest, environ, cells⟩ | ⟨null, rfl⟩
  · rw [environ]
    match name, valid with
    | [], valid => exact absurd valid.accepted (by simp [invalidName])
    | [c], _ =>
      dsimp only
      rw [cells]
      exact getenvOne_arrayOf c rest holds.nonempty
    | c :: d :: name, valid =>
      have nonzero : d ≠ 0 := by
        rintro rfl
        exact valid.zero_not_mem (by simp)
      dsimp only
      rw [cells]
      exact getenvMore_arrayOf c d name nonzero rest holds.nonempty
  · rw [null]
    rfl

theorem length_freshCells (fresh : Nat → Cell) (kept : List Cell) (n : Nat)
    : (freshCells fresh kept n).length = n := by
  simp [freshCells]

/-- A new array with two null pointers behind the kept cells. -/
theorem freshCells_terminated (fresh : Nat → Cell) {kept : List Cell} {n : Nat}
    (le : n ≤ kept.length)
    : ((freshCells fresh kept (n + 2)).set n none).set (n + 1) none
      = kept.take n ++ [none, none] := by
  apply ext_getElem
  · simp [length_freshCells, le]
  · intro i low high
    simp only [getElem_set, getElem_append, length_take, getElem_take,
      freshCells, getElem_map, getElem_range]
    grind

theorem EnvState.Holds.take_cells (holds : s.Holds entries)
    : (s.cells s.environ).take entries.length = entries.map some := by
  rcases holds.array with ⟨p, rest, environ, cells⟩ | ⟨null, rfl⟩
  · unfold EnvState.cells
    rw [environ]
    dsimp only
    rw [cells, arrayOf, take_left' (by simp)]
  · rfl

private theorem extendEnviron_holds (holds : s.Holds entries) (memory : EnvMemory)
    : extendEnviron s entries.length memory = none
      ∨ ∃ extended, extendEnviron s entries.length memory = some extended
        ∧ extended.environ = some s.next
        ∧ extended.lastEnviron = some s.next
        ∧ extended.arrays s.next = arrayOf entries [none] := by
  unfold extendEnviron
  cases memory.realloc with
  | none => exact .inl rfl
  | some fresh =>
    have front := holds.take_cells
    have bound : entries.length ≤ (s.cells s.environ).length := by
      have length := congrArg List.length front
      rw [length_take, length_map] at length
      omega
    refine .inr ⟨_, rfl, rfl, rfl, ?_⟩
    simp only [EnvState.setCells, if_true]
    split
    case isTrue =>
      rw [freshCells_terminated _ (by rw [front, length_map]), take_take,
        Nat.min_self, front]
      rfl
    case isFalse same =>
      have same : s.lastEnviron = s.environ := (Decidable.not_not.mp same).symm
      rw [same, freshCells_terminated _ bound, front]
      rfl

theorem setCells_isArray {p : Nat} (environ : s.environ = some p) (entries : List CString)
    (rest : List Cell)
    : (s.setCells p (arrayOf entries rest)).IsArray entries :=
  ⟨p, rest, environ, if_pos rfl⟩

theorem storeEntry_found {p : Nat} {rest : List Cell} (np : CString) (environ : s.environ = some p)
    (cells : s.arrays p = arrayOf entries rest) (found : (entries.find? (named name)).isSome)
    : storeEntry s (entries.findIdx (named name)) np
      = some (s.setCells p (arrayOf (putEntry name np entries) rest)) := by
  have inside : entries.findIdx (named name) < (s.arrays p).length := by
    rw [cells, arrayOf, length_append, length_map, length_cons]
    have le : entries.findIdx (named name) ≤ entries.length := findIdx_le_length
    omega
  unfold storeEntry
  rw [environ]
  dsimp only [Option.bind_eq_bind, Option.bind_some]
  rw [if_pos inside, cells, set_arrayOf_found rest found]
  rfl

/-- `*ep = np` at the first of two null pointers. -/
theorem storeEntry_absent {p : Nat} (np : CString) (environ : s.environ = some p)
    (cells : s.arrays p = arrayOf entries [none]) (absent : entries.find? (named name) = none)
    : storeEntry s entries.length np
      = some (s.setCells p (arrayOf (putEntry name np entries) [])) := by
  have inside : entries.length < (s.arrays p).length := by
    rw [cells, arrayOf, length_append, length_map, length_cons]
    omega
  have stored : (arrayOf entries [none]).set entries.length (some np)
      = arrayOf (putEntry name np entries) [] := by
    rw [putEntry_absent absent, arrayOf, arrayOf]
    simp
  unfold storeEntry
  rw [environ]
  dsimp only [Option.bind_eq_bind, Option.bind_some]
  rw [if_pos inside, cells, stored]
  rfl

private theorem newValue_eq {name value np : CString} {knownValues : List CString}
    (made : newValue s name value memory = some (np, knownValues))
    : np = name ++ [equalSign] ++ value := by
  unfold newValue at made
  dsimp only at made
  split at made
  case isTrue => exact absurd made (by simp)
  case isFalse =>
    split at made
    case h_1 known find =>
      have same := find?_some find
      rw [← (Prod.mk.inj (Option.some.inj made)).1]
      exact beq_iff_eq.mp same
    case h_2 =>
      split at made
      case isTrue => exact absurd made (by simp)
      case isFalse => exact (Prod.mk.inj (Option.some.inj made)).1.symm

/-- The string `np` that a call of `__add_to_environ` puts into the environment. -/
def Stores (name : CString) (value combined : Option CString) (np : CString) : Prop :=
  combined = some np
  ∨ combined = none ∧ ∃ v, value = some v ∧ np = name ++ [equalSign] ++ v

private theorem replaceEntry_stores {index : Nat} {cell : Cell} {value combined : Option CString} {replace : Bool}
    (found : (s.cells s.environ)[index]? = some cell) (stores : Stores name value combined np)
    (goes : (cell.isNone || replace) = true) (memory : EnvMemory)
    : replaceEntry s index name value combined replace memory = some (-1, s)
      ∨ ∃ knownValues, replaceEntry s index name value combined replace memory
        = (storeEntry { s with knownValues } index np).map ((0 : Int), ·) := by
  unfold replaceEntry
  rw [found]
  dsimp only [Option.bind_eq_bind, Option.bind_some]
  rw [if_pos goes]
  rcases stores with rfl | ⟨rfl, v, rfl, rfl⟩
  · refine .inr ⟨s.knownValues, ?_⟩
    exact Option.map_eq_bind.symm
  · dsimp only [Option.bind_some]
    cases made : newValue s name v memory with
    | none => exact .inl rfl
    | some pair =>
      obtain ⟨np, knownValues⟩ := pair
      obtain rfl := newValue_eq made
      refine .inr ⟨knownValues, ?_⟩
      exact Option.map_eq_bind.symm

theorem putEntry_nonempty (yes : named name np = true) (nonempty : ∀ entry ∈ entries, entry ≠ [])
    : ∀ entry ∈ putEntry name np entries, entry ≠ [] := by
  have np_ne : np ≠ [] := by
    obtain ⟨v, rfl⟩ := named_iff.mp yes
    simp
  induction entries with
  | nil => simpa [putEntry] using np_ne
  | cons entry entries ih =>
    obtain ⟨first, others⟩ := forall_mem_cons.mp nonempty
    unfold putEntry
    split
    · exact forall_mem_cons.mpr ⟨np_ne, others⟩
    · exact forall_mem_cons.mpr ⟨first, ih others⟩

/-- What `__add_to_environ` does: it fails and changes no entry, or it leaves an entry that is
there and not to be replaced, or it puts the string in.
-/
inductive Adds (s : EnvState) (entries : List CString) (name np : CString) (replace : Bool)
    : Int → EnvState → Prop where
  | fails {after : EnvState} (goes : entries.find? (named name) = none ∨ replace = true)
      (holds : after.Holds entries)
      (array : after.IsArray entries ∨ after.environ = s.environ)
      : Adds s entries name np replace (-1) after
  | keeps (found : (entries.find? (named name)).isSome) (kept : replace = false)
      : Adds s entries name np replace 0 s
  | puts {after : EnvState} (goes : entries.find? (named name) = none ∨ replace = true)
      (holds : after.Holds (putEntry name np entries))
      (array : after.IsArray (putEntry name np entries)) : Adds s entries name np replace 0 after

/-- Each branch of `__add_to_environ` replaces, adds, or fails and changes no string. -/
theorem addToEnviron_adds (holds : s.Holds entries) {value combined : Option CString}
    (stores : Stores name value combined np) (yes : named name np = true) (replace : Bool)
    (memory : EnvMemory)
    : ∃ status after, addToEnviron s name value combined replace memory = some (status, after)
      ∧ Adds s entries name np replace status after := by
  have nonempty := putEntry_nonempty yes holds.nonempty
  cases found : entries.find? (named name) with
  | none =>
    -- `ep` is at the null pointer, or there is no array; both take the extended array
    have size := findIdx_absent found
    have extends_ : addToEnviron s name value combined replace memory
        = (extendEnviron s entries.length memory).elim (some (-1, s)) fun extended =>
            replaceEntry extended entries.length name value combined replace memory := by
      unfold addToEnviron
      rcases holds.array with ⟨p, rest, environ, cells⟩ | ⟨null, rfl⟩
      · have stop := getElem_arrayOf_findIdx name entries rest
        rw [found, size] at stop
        rw [environ]
        dsimp only
        rw [cells, findEntry_arrayOf, size]
        dsimp only [Option.bind_eq_bind, Option.bind_some]
        rw [stop]
        cases extendEnviron s entries.length memory <;> rfl
      · rw [null, length_nil]
        dsimp only [Option.bind_eq_bind, Option.bind_some]
        cases extendEnviron s 0 memory <;> rfl
    rw [extends_]
    rcases extendEnviron_holds holds memory with noMemory | extended
    · rw [noMemory]
      exact ⟨-1, s, rfl, .fails (.inl found) holds (.inr rfl)⟩
    · obtain ⟨extended, same, environ, last, cells⟩ := extended
      rw [same]
      have array : extended.IsArray entries := ⟨s.next, _, environ, cells⟩
      have cell : (extended.cells extended.environ)[entries.length]? = some none := by
        have stop := getElem_arrayOf_findIdx name entries [none]
        rw [found, size] at stop
        unfold EnvState.cells
        rw [environ]
        dsimp only
        rw [cells, stop]
      rcases replaceEntry_stores cell stores rfl memory with fails | ⟨known, stored⟩
      · refine ⟨-1, extended, fails, .fails (.inl found) ?_ (.inl array)⟩
        exact ⟨.inl array, holds.nonempty, .inr (by rw [last, environ])⟩
      · have store := storeEntry_absent (s := { extended with knownValues := known }) np environ
          cells found
        rw [store] at stored
        have array := setCells_isArray (s := { extended with knownValues := known }) environ
          (putEntry name np entries) []
        refine ⟨0, _, stored, .puts (.inl found) ⟨.inl array, nonempty, .inr ?_⟩ array⟩
        exact last.trans environ.symm
  | some entry =>
    have isSome : (entries.find? (named name)).isSome := by rw [found]; rfl
    rcases holds.array with ⟨p, rest, environ, cells⟩ | ⟨_, rfl⟩
    · have stop := getElem_arrayOf_findIdx name entries rest
      have cell : (s.cells s.environ)[entries.findIdx (named name)]? = some (some entry) := by
        unfold EnvState.cells
        rw [environ]
        dsimp only
        rw [cells, stop, found]
      have replaces : addToEnviron s name value combined replace memory
          = replaceEntry s (entries.findIdx (named name)) name value combined replace memory := by
        unfold addToEnviron
        rw [environ]
        dsimp only
        rw [cells, findEntry_arrayOf]
        dsimp only [Option.bind_eq_bind, Option.bind_some]
        rw [stop, found]
        rfl
      rw [replaces]
      cases replace with
      | false =>
        refine ⟨0, s, ?_, .keeps isSome rfl⟩
        unfold replaceEntry
        rw [cell]
        rfl
      | true =>
        rcases replaceEntry_stores cell stores rfl memory with fails | ⟨known, stored⟩
        · exact ⟨-1, s, fails, .fails (.inr rfl) holds (.inr rfl)⟩
        · have store := storeEntry_found (s := { s with knownValues := known }) np environ
            cells isSome
          rw [store] at stored
          have array := setCells_isArray (s := { s with knownValues := known }) environ
            (putEntry name np entries) rest
          exact ⟨0, _, stored, .puts (.inr rfl) ⟨.inl array, nonempty, holds.last⟩ array⟩
    · exact absurd isSome (by simp)

theorem unsetenv_holds (holds : s.Holds entries) (valid : ValidName name)
    : ∃ after, unsetenv s name = some (0, after)
      ∧ after.Holds (entries.filter (!named name ·)) ∧ after.environ = s.environ := by
  have nonempty : ∀ entry ∈ entries.filter (!named name ·), entry ≠ [] :=
    fun entry inEntries => holds.nonempty entry (mem_of_mem_filter inEntries)
  unfold unsetenv
  rw [if_neg (by simp [valid.accepted])]
  rcases holds.array with ⟨p, rest, environ, cells⟩ | ⟨null, rfl⟩
  · have enough : entries.length ≤ (s.arrays p).length := by
      rw [cells, arrayOf, length_append, length_map]
      omega
    obtain ⟨rest', same⟩ := unsetLoop_arrayOf name entries rest enough
    have array := setCells_isArray environ (entries.filter (!named name ·)) rest'
    rw [environ]
    dsimp only
    rw [cells] at same ⊢
    rw [same]
    exact ⟨_, rfl, ⟨.inl array, nonempty, environ ▸ holds.last⟩, environ⟩
  · rw [null]
    exact ⟨s, rfl, ⟨.inr ⟨null, rfl⟩, nonempty, holds.last⟩, null⟩

private theorem clearenv_holds (holds : s.Holds entries)
    : (clearenv s).1 = 0 ∧ (clearenv s).2.Holds [] ∧ (clearenv s).2.environ = none := by
  have nothing : ∀ entry ∈ ([] : List CString), entry ≠ [] :=
    fun entry inNil => absurd inNil not_mem_nil
  unfold clearenv
  cases environ : s.environ with
  | none => exact ⟨rfl, ⟨.inr ⟨environ, rfl⟩, nothing, holds.last⟩, environ⟩
  | some p =>
    dsimp only
    split
    case isTrue => exact ⟨rfl, ⟨.inr ⟨rfl, rfl⟩, nothing, .inl rfl⟩, rfl⟩
    case isFalse differs =>
      have last : s.lastEnviron = none := by
        rcases holds.last with null | same
        · exact null
        · exact absurd (environ.symm.trans same.symm) differs
      exact ⟨rfl, ⟨.inr ⟨rfl, rfl⟩, nothing, .inl last⟩, rfl⟩

/-! Runs -/

inductive EnvCall where
  | setenv (name value : CString) (replace : Bool)
  | putenv (string : CString)
  | unsetenv (name : CString)
  | clearenv
  | getenv (name : CString)

inductive EnvReply where
  | status (code : Int)
  | value (found : Option CString)

/-- The call has a valid name: for `putenv` the string up to its first equal sign. -/
def EnvCall.Valid : EnvCall → Prop
  | .setenv name _ _ => ValidName name
  | .putenv string => ValidName (string.takeWhile (· != equalSign))
  | .unsetenv name => ValidName name
  | .clearenv => True
  | .getenv name => ValidName name

/-- The call is to put a variable into the environment. -/
def EnvCall.AddsVariable : EnvCall → Prop
  | .setenv .. => True
  | .putenv string => equalSign ∈ string
  | _ => False

def envStep (s : EnvState) (memory : EnvMemory) : EnvCall → Option (EnvReply × EnvState)
  | .setenv name value replace =>
    (setenv s name value replace memory).map fun (code, after) => (.status code, after)
  | .putenv string => (putenv s string memory).map fun (code, after) => (.status code, after)
  | .unsetenv name => (unsetenv s name).map fun (code, after) => (.status code, after)
  | .clearenv => some (.status (clearenv s).1, (clearenv s).2)
  | .getenv name => (getenv s name).map fun found => (.value found, s)

/-- `environ` is an array with a null pointer at its end. -/
def EnvState.NullTerminated (s : EnvState) : Prop := ∃ p, s.environ = some p ∧ none ∈ s.arrays p

/-- What a call does when it succeeds: `getenv` finds the first entry with the name, `setenv` that
replaces changes this name only, `setenv` that does not leaves a name that is there, `unsetenv` removes
the entries with the name, and `clearenv` makes `environ` `NULL`.
-/
def Effect (s : EnvState) (reply : EnvReply) (after : EnvState) : EnvCall → Prop
  | .getenv n => reply = .value (lookup n s.entries) ∧ after = s
  | .setenv n v true => reply = .status 0 → getenv after n = some (some v)
        ∧ ∀ m, ValidName m → m ≠ n → getenv after m = getenv s m
  | .setenv n _ false => (∃ entry ∈ s.entries, named n entry = true) → after = s
  | .unsetenv n => reply = .status 0 → after.entries = s.entries.filter (!named n ·)
  | .putenv _ => True
  | .clearenv => reply = .status 0 ∧ after.environ = none

/-- What holds of every call: its effect, that a failure changes no value, and that `environ` is a
null-terminated array unless `clearenv` has made it `NULL`, where it stays until a variable is to be added.
-/
structure CallEffect (s : EnvState) (call : EnvCall) (reply : EnvReply) (after : EnvState) : Prop
    where
  effect : Effect s reply after call
  failed : reply = .status (-1) → ∀ m, ValidName m → getenv after m = getenv s m
  array : after.NullTerminated ∨ after.environ = none ∧ (call = .clearenv ∨ s.environ = none)
  null : s.environ = none → ¬ call.AddsVariable → after.environ = none

/-- Along the run from `s` every call has its effect; the run ends nowhere outside the arrays. -/
def EnvRuns (s : EnvState) : List (EnvCall × EnvMemory) → Prop
  | [] => True
  | (call, memory) :: calls =>
    ∃ reply after, envStep s memory call = some (reply, after) ∧ CallEffect s call reply after
      ∧ EnvRuns after calls

theorem EnvState.IsArray.nullTerminated (array : s.IsArray entries) : s.NullTerminated := by
  obtain ⟨p, rest, environ, cells⟩ := array
  refine ⟨p, environ, ?_⟩
  rw [cells]
  exact none_mem_arrayOf entries rest

variable {after : EnvState}

theorem nullTerminated_of_environ_eq {left : List CString} (afterHolds : after.Holds left)
    (call : EnvCall) (array : after.IsArray left ∨ after.environ = s.environ)
    : after.NullTerminated ∨ after.environ = none ∧ (call = .clearenv ∨ s.environ = none) := by
  rcases array with array | same
  · exact .inl array.nullTerminated
  · rcases afterHolds.array with array | ⟨null, _⟩
    · exact .inl array.nullTerminated
    · exact .inr ⟨null, .inr (same ▸ null)⟩

theorem getenv_congr {after : EnvState} {left : List CString} (holds : s.Holds entries)
    (afterHolds : after.Holds left) {m : CString} (valid : ValidName m)
    (same : lookup m left = lookup m entries) : getenv after m = getenv s m := by
  rw [getenv_holds afterHolds valid, getenv_holds holds valid, same]

/-- What adding does to `getenv` of this name and of the others. -/
theorem addToEnviron_effect (holds : s.Holds entries) (valid : ValidName name) {replace : Bool}
    (yes : named name np = true) {status : Int} (adds : Adds s entries name np replace status after)
    : (∃ left, after.Holds left) ∧ (replace = true → status = 0
        → getenv after name = some (some (np.drop (name.length + 1)))
          ∧ ∀ m, ValidName m → m ≠ name → getenv after m = getenv s m)
      ∧ (replace = false → (entries.find? (named name)).isSome → after = s)
      ∧ (status = -1 → ∀ m, ValidName m → getenv after m = getenv s m)
      ∧ ∀ call : EnvCall, after.NullTerminated
        ∨ after.environ = none ∧ (call = .clearenv ∨ s.environ = none) := by
  cases adds with
  | fails goes afterHolds array =>
    refine ⟨⟨entries, afterHolds⟩, fun _ no => absurd no (by decide), ?_, ?_,
      fun call => nullTerminated_of_environ_eq afterHolds call array⟩
    · intro kept found
      rcases goes with absent | replaced
      · rw [absent] at found
        exact absurd found (by simp)
      · exact absurd (kept.symm.trans replaced) (by decide)
    · intro _ m validM
      exact getenv_congr holds afterHolds validM rfl
  | keeps found kept =>
    refine ⟨⟨entries, holds⟩, fun replaced => absurd (kept.symm.trans replaced) (by decide),
      fun _ _ => rfl, fun no => absurd no (by decide),
      fun call => nullTerminated_of_environ_eq holds call (.inr rfl)⟩
  | puts goes afterHolds array =>
    refine ⟨⟨_, afterHolds⟩, ?_, ?_, fun no => absurd no (by decide),
      fun call => .inl array.nullTerminated⟩
    · intro _ _
      refine ⟨?_, ?_⟩
      · rw [getenv_holds afterHolds valid, lookup_putEntry_self yes]
      · intro m validM ne
        exact getenv_congr holds afterHolds validM
          (lookup_putEntry_other valid validM ne yes entries)
    · intro kept found
      rcases goes with absent | replaced
      · rw [absent] at found
        exact absurd found (by simp)
      · exact absurd (kept.symm.trans replaced) (by decide)

private theorem setenv_effect (holds : s.Holds entries) (valid : ValidName name) (value : CString)
    (replace : Bool) (memory : EnvMemory)
    : ∃ reply after, envStep s memory (.setenv name value replace) = some (reply, after)
      ∧ CallEffect s (.setenv name value replace) reply after ∧ ∃ left, after.Holds left := by
  have stores : Stores name (some value) none (name ++ [equalSign] ++ value) :=
    .inr ⟨rfl, value, rfl, rfl⟩
  have yes := named_pair name value
  obtain ⟨status, after, same, adds⟩ := addToEnviron_adds holds stores yes replace memory
  obtain ⟨left, replaced, kept, failed, array⟩ := addToEnviron_effect holds valid yes adds
  have step : envStep s memory (.setenv name value replace) = some (.status status, after) := by
    simp [envStep, setenv, valid.accepted, same]
  refine ⟨_, after, step, ⟨?_, ?_, array _, fun _ no => absurd trivial no⟩, left⟩
  · cases replace with
    | true =>
      intro success
      have value_eq : (name ++ [equalSign] ++ value).drop (name.length + 1) = value := by simp
      rw [value_eq] at replaced
      exact replaced rfl (EnvReply.status.inj success)
    | false =>
      intro found
      rw [holds.entries_eq] at found
      exact kept rfl (find?_isSome.mpr found)
  · intro failure
    exact failed (EnvReply.status.inj failure)

theorem named_takeWhile {string : CString} (pair : equalSign ∈ string)
    : named (string.takeWhile (· != equalSign)) string = true := by
  induction string with
  | nil => exact absurd pair not_mem_nil
  | cons c string ih =>
    by_cases sign : c = equalSign
    · rw [takeWhile_cons_of_neg (by simp [sign]), named_nil]
      exact beq_iff_eq.mpr sign
    · have later : equalSign ∈ string := by
        rcases mem_cons.mp pair with same | later
        · exact absurd same.symm sign
        · exact later
      rw [takeWhile_cons_of_pos (by simp [sign]), named_cons, ih later]
      simp

/-- `putenv` with a value adds, without one removes. -/
theorem putenv_effect (holds : s.Holds entries) {string : CString}
    (valid : ValidName (string.takeWhile (· != equalSign))) (memory : EnvMemory)
    : ∃ reply after, envStep s memory (.putenv string) = some (reply, after)
      ∧ CallEffect s (.putenv string) reply after ∧ ∃ left, after.Holds left := by
  by_cases pair : equalSign ∈ string
  · cases noMemory : (!memory.useAlloca && !memory.strndup) with
    | true =>
      refine ⟨.status (-1), s, by simp [envStep, putenv, pair, noMemory],
        ⟨trivial, ?_, ?_, fun null _ => null⟩, entries, holds⟩
      · exact fun _ _ _ => rfl
      · exact nullTerminated_of_environ_eq holds _ (.inr rfl)
    | false =>
      have yes := named_takeWhile pair
      have stores : Stores (string.takeWhile (· != equalSign)) none (some string) string :=
        .inl rfl
      obtain ⟨status, after, same, adds⟩ := addToEnviron_adds holds stores yes true memory
      obtain ⟨left, _, _, failed, array⟩ := addToEnviron_effect holds valid yes adds
      refine ⟨.status status, after, ?_, ⟨trivial, ?_, array _, fun _ no => absurd pair no⟩, left⟩
      · simp [envStep, putenv, pair, noMemory, same]
      · intro failure
        exact failed (EnvReply.status.inj failure)
  · have whole : string.takeWhile (· != equalSign) = string := by
      rw [takeWhile_eq_self_iff]
      intro c inString
      exact bne_iff_ne.mpr fun same => pair (same ▸ inString)
    rw [whole] at valid
    obtain ⟨after, same, afterHolds, environ⟩ := unsetenv_holds holds valid
    refine ⟨.status 0, after, by simp [envStep, putenv, pair, same],
      ⟨trivial, ?_, ?_, fun null _ => environ.trans null⟩, _, afterHolds⟩
    · exact fun no => absurd (EnvReply.status.inj no) (by decide)
    · exact nullTerminated_of_environ_eq afterHolds _ (.inr environ)

/-- The step lemma: each call has its effect and keeps the invariant. -/
theorem envStep_effect (holds : s.Holds entries) {call : EnvCall} (valid : call.Valid)
    (memory : EnvMemory)
    : ∃ reply after, envStep s memory call = some (reply, after)
      ∧ CallEffect s call reply after ∧ ∃ left, after.Holds left := by
  cases call with
  | setenv name value replace => exact setenv_effect holds valid value replace memory
  | putenv string => exact putenv_effect holds valid memory
  | unsetenv name =>
    obtain ⟨after, same, afterHolds, environ⟩ := unsetenv_holds holds valid
    refine ⟨.status 0, after, by simp [envStep, same],
      ⟨?_, ?_, ?_, fun null _ => environ.trans null⟩, _, afterHolds⟩
    · intro _
      rw [afterHolds.entries_eq, holds.entries_eq]
    · exact fun no => absurd (EnvReply.status.inj no) (by decide)
    · exact nullTerminated_of_environ_eq afterHolds _ (.inr environ)
  | clearenv =>
    obtain ⟨code, afterHolds, null⟩ := clearenv_holds holds
    refine ⟨_, _, rfl, ⟨⟨congrArg EnvReply.status code, null⟩, ?_, .inr ⟨null, .inl rfl⟩,
      fun _ _ => null⟩, _, afterHolds⟩
    intro failure
    rw [code] at failure
    exact absurd (EnvReply.status.inj failure) (by decide)
  | getenv name =>
    have found := getenv_holds holds valid
    refine ⟨.value (lookup name s.entries), s, ?_, ⟨⟨rfl, rfl⟩, ?_, ?_, fun null _ => null⟩,
      entries, holds⟩
    · simp [envStep, found, holds.entries_eq]
    · exact fun _ _ _ => rfl
    · exact nullTerminated_of_environ_eq holds _ (.inr rfl)

theorem envRuns_of_holds (holds : s.Holds entries) (calls : List (EnvCall × EnvMemory))
    (valid : ∀ call ∈ calls, call.1.Valid) : EnvRuns s calls := by
  induction calls generalizing s entries with
  | nil => trivial
  | cons call calls ih =>
    obtain ⟨call, memory⟩ := call
    obtain ⟨first, later⟩ := forall_mem_cons.mp valid
    obtain ⟨reply, after, step, effect, left, afterHolds⟩ := envStep_effect holds first memory
    exact ⟨reply, after, step, effect, ih afterHolds later⟩

/-- The environment of a program that starts: `environ` is `NULL` or a null-terminated array of
non-empty entries, and nothing has been allocated for it.
-/
structure EnvState.Initial (s : EnvState) : Prop where
  array : s.NullTerminated ∨ s.environ = none
  nonempty : ∀ entry ∈ s.entries, entry ≠ []
  last : s.lastEnviron = none

/-- From every initial environment every call has its effect and no other, whatever memory the
calls get.
-/
theorem environ_runs (initial : s.Initial) (calls : List (EnvCall × EnvMemory))
    (valid : ∀ call ∈ calls, call.1.Valid) : EnvRuns s calls := by
  have array : s.IsArray s.entries ∨ s.environ = none ∧ s.entries = [] := by
    rcases initial.array with ⟨p, environ, terminated⟩ | null
    · obtain ⟨rest, cells⟩ := exists_arrayOf terminated
      refine .inl ⟨p, rest, environ, ?_⟩
      unfold EnvState.entries EnvState.cells
      rw [environ]
      exact cells
    · refine .inr ⟨null, ?_⟩
      unfold EnvState.entries EnvState.cells
      rw [null]
      rfl
  exact envRuns_of_holds ⟨array, initial.nonempty, .inl initial.last⟩ calls valid

/-- The environment `A=1`, `A=2`, `B`. -/
def sampleEnv : EnvState where
  environ := some 0
  lastEnviron := none
  arrays := fun p => if p = 0 then [some [65, 61, 49], some [65, 61, 50], some [66], none] else []
  next := 1
  knownValues := []

/-- Memory for everything, on the stack where that is possible. -/
def sampleMemory : EnvMemory where
  realloc := some fun _ => none
  useAlloca := true
  mallocNewValue := true
  mallocNp := true
  tsearchNode := true
  strndup := true

theorem sampleEnv_initial : sampleEnv.Initial where
  array := .inl ⟨0, rfl, by decide⟩
  nonempty := by decide
  last := rfl

/-- `setenv ("B", "3", 1)` that gets no memory, then `unsetenv ("A")`. -/
theorem environ_runs_sample
    : EnvRuns sampleEnv
        [(.setenv [66] [51] true, { sampleMemory with realloc := none }),
          (.unsetenv [65], sampleMemory)] := by
  apply environ_runs sampleEnv_initial
  intro call inCalls
  fin_cases inCalls
  · exact ⟨by decide, by decide⟩
  · exact ⟨by decide, by decide⟩

/-- After `clearenv` there is no array. -/
theorem clearenv_not_nullTerminated
    : sampleEnv.Initial
      ∧ envStep sampleEnv sampleMemory .clearenv = some (.status 0, (clearenv sampleEnv).2)
      ∧ ¬(clearenv sampleEnv).2.NullTerminated := by
  refine ⟨sampleEnv_initial, rfl, ?_⟩
  rintro ⟨p, environ, _⟩
  exact absurd environ (by simp [clearenv, sampleEnv])

end Nglibc.Stdlib
