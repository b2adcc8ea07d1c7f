import Nglibc.Elf.UniqueSymbolsTable
import Nglibc.Elf.SymbolHash

/-! Runs of lookups and forced closings in one namespace. A lookup gives the first definition of a name
while no free entry stands before the entry of the name on its path.
-/

namespace Nglibc.UniqueSymbols

variable {ν σ μ : Type}

/-- The table, the objects, and for each name its first definition while the defining object stays
loaded.
-/
structure World (ν σ μ : Type) where
  tab : UniqueSymTable ν σ μ
  linkMap : μ → LinkMap
  first : ν → Option (σ × μ)

/-- A lookup that found the symbol `sym` of the object `map`, or the forced closing of an object. -/
inductive Event (ν σ μ : Type)
  | lookup (name : ν) (map : μ) (sym : σ) (forRelocate calloc : Bool)
  | close (map : μ)

def World.step [DecidableEq ν] [DecidableEq μ] (hash : ν → Nat) (w : World ν σ μ)
    : Event ν σ μ → Except Failure (World ν σ μ × Option (Option σ × Option μ))
  | .lookup name map sym forRelocate calloc => do
    let r ← doLookupUnique w.tab name (hash name) map (w.linkMap map) none sym name forRelocate calloc
    return ({
      tab := r.tab
      linkMap := Function.update w.linkMap map r.linkMap
      first := Function.update w.first name (some ((w.first name).getD (sym, map))) },
      some (r.sym, r.map))
  | .close map =>
    return ({ w with
      tab := w.tab.reset map
      first := fun name => (w.first name).filter fun d => d.2 ≠ map }, none)

def UniqueSymTable.Stores (tab : UniqueSymTable ν σ μ) (name : ν) : Prop :=
  ∃ entries, tab.entries = some entries ∧ ∃ i < tab.size, (entries i).name = some name

def UniqueSymTable.Hidden (tab : UniqueSymTable ν σ μ) (hash : Nat) (name : ν) : Prop :=
  ∃ entries, tab.entries = some entries ∧ ∃ i < tab.size, ∃ j < i,
    (entries (path tab.size hash i)).name = some name ∧ (entries (path tab.size hash j)).name = none

/-- A name with hash zero is only looked up when it is in the table or there is no table, and a name
that is not in the table does not make the largest table grow.
-/
def UniqueSymTable.Fits (tab : UniqueSymTable ν σ μ) (hash : Nat) (name : ν) : Prop :=
  (hash = 0 → tab.entries = none ∨ tab.Stores name)
    ∧ (tab.size * 3 ≤ tab.nElements * 4 → tab.size < 4294967291 ∨ tab.Stores name)

def Event.Safe (hash : ν → Nat) (w : World ν σ μ) : Event ν σ μ → Prop
  | .lookup name .. => ¬ w.tab.Hidden (hash name) name ∧ w.tab.Fits (hash name) name
  | .close _ => True

def UniqueSymTable.used (tab : UniqueSymTable ν σ μ) : Nat :=
  match tab.entries with
  | some entries => UniqueSymbols.used entries tab.size
  | none => 0

/-- What one event has to do: a lookup gives the first definition, and a new entry goes to a table of
which less than 3/4 is in use.
-/
def Event.Correct (w : World ν σ μ) (result : Option (Option σ × Option μ)) (w' : World ν σ μ)
    : Event ν σ μ → Prop
  | .lookup name map sym .. =>
    let definition := (w.first name).getD (sym, map)
    result = some (some definition.1, some definition.2) ∧ (w'.tab.used = w.tab.used
        ∨ w'.tab.used = w.tab.used + 1 ∧ 4 * w.tab.used < 3 * w'.tab.size)
  | .close _ => True

/-- Closing an object does no harm when no entry of another object lies behind one of its own.
-/
def Event.Harmless (hash : ν → Nat) (w : World ν σ μ) : Event ν σ μ → Prop
  | .lookup name .. => w.tab.Fits (hash name) name
  | .close map => ∀ entries, w.tab.entries = some entries → ∀ name, ∀ i < w.tab.size, ∀ j < i,
        (entries (path w.tab.size (hash name) i)).name = some name →
        ¬ (entries (path w.tab.size (hash name) i)).OwnedBy map →
        ¬ (entries (path w.tab.size (hash name) j)).OwnedBy map

def Event.NoMemory : Event ν σ μ → Prop
  | .lookup _ _ _ _ calloc => calloc = false
  | .close _ => False

def World.start (linkMap : μ → LinkMap) : World ν σ μ := ⟨⟨none, 0, 0⟩, linkMap, fun _ => none⟩

/-- The worlds that allowed events reach from a namespace without a table. -/
inductive Reachable [DecidableEq ν] [DecidableEq μ] (hash : ν → Nat)
    (Allowed : World ν σ μ → Event ν σ μ → Prop) : World ν σ μ → Prop
  | start (linkMap : μ → LinkMap) : Reachable hash Allowed (World.start linkMap)
  | step {w w' : World ν σ μ} {e : Event ν σ μ} {result : Option (Option σ × Option μ)}
      (before : Reachable hash Allowed w) (allowed : Allowed w e)
      (stepped : w.step hash e = .ok (w', result)) : Reachable hash Allowed w'

variable {hash : ν → Nat}

def entryOf (hash : ν → Nat) (name : ν) (d : σ × μ) : UniqueSym ν σ μ :=
  ⟨hash name, some name, some d.1, some d.2⟩

structure Holds (hash : ν → Nat) (first : ν → Option (σ × μ)) (entries : Nat → UniqueSym ν σ μ)
    (size nElements : Nat) : Prop where
  valid : size ∈ primes
  hashed : Hashed hash entries size
  count : nElements = used entries size
  few : 4 * nElements ≤ 3 * size + 3
  stored : ∀ e, Stored entries size e ↔ ∃ name d, first name = some d ∧ e = entryOf hash name d

/-- A namespace without a table has no definitions. -/
inductive Valid (hash : ν → Nat) : World ν σ μ → Prop
  | empty {size : Nat} {linkMap : μ → LinkMap} {first : ν → Option (σ × μ)}
      (small : size = 0) (none' : ∀ name, first name = none) :
      Valid hash ⟨⟨none, size, 0⟩, linkMap, first⟩
  | table {entries : Nat → UniqueSym ν σ μ} {size nElements : Nat} {linkMap : μ → LinkMap}
      {first : ν → Option (σ × μ)} (holds : Holds hash first entries size nElements) :
      Valid hash ⟨⟨some entries, size, nElements⟩, linkMap, first⟩

variable {entries : Nat → UniqueSym ν σ μ} {size nElements : Nat} {first : ν → Option (σ × μ)}

section

variable (holds : Holds hash first entries size nElements)
include holds

theorem Holds.less : used entries size < size := by
  have := bounds_of_mem size holds.valid
  have := holds.count
  have := holds.few
  omega

theorem Holds.entry {i : Nat} (inside : i < size) {name : ν} (named : (entries i).name = some name)
    : ∃ d, first name = some d ∧ entries i = entryOf hash name d := by
  have isStored : Stored entries size (entries i) := ⟨by simp [named], i, inside, rfl⟩
  obtain ⟨other, d, isFirst, same⟩ := (holds.stored _).mp isStored
  rw [same] at named
  obtain rfl : other = name := Option.some.inj named
  exact ⟨d, isFirst, same⟩

/-- A name without entry has no definition. -/
theorem Holds.no_first {name : ν} (absent : ∀ i < size, (entries i).name ≠ some name)
    : first name = none := by
  by_contra some'
  obtain ⟨d, isFirst⟩ := Option.ne_none_iff_exists'.mp some'
  obtain ⟨-, i, inside, same⟩ := (holds.stored (entryOf hash name d)).mpr ⟨name, d, isFirst, rfl⟩
  exact absent i inside (by rw [same, entryOf])

end

/-- The path of every name in the table leads to its entry. -/
def UniqueSymTable.Reached (hash : ν → Nat) (tab : UniqueSymTable ν σ μ) : Prop :=
  ∀ entries, tab.entries = some entries → UniqueSymbols.Reached hash entries tab.size

/-- No name lies behind a free entry of its path while the paths lead to the entries. -/
theorem UniqueSymTable.Reached.not_hidden {w : World ν σ μ} (reached : w.tab.Reached hash)
    (valid : Valid hash w) (name : ν)
    : ¬ w.tab.Hidden (hash name) name := by
  rintro ⟨entries, table, i, inside, j, less, named, free⟩
  cases valid with
  | empty => cases table
  | table holds =>
    cases table
    obtain ⟨n, early, visited, before⟩ :=
      (reached _ rfl).path holds.valid (path_lt holds.valid (hash name) i) named
    have same : n = i := pathSlot_injOn (step_coprime holds.valid (hash name))
      (Finset.mem_coe.mpr (Finset.mem_range.mpr early))
      (Finset.mem_coe.mpr (Finset.mem_range.mpr inside)) visited
    exact before j (same ▸ less) free

theorem Holds.initial (none' : ∀ name, first name = none)
    : Holds hash first (fun _ => .zero) initialNuniqueSymTable 0 where
  valid := by decide
  hashed := ⟨fun _ _ _ => nofun, fun _ _ _ => rfl⟩
  count := by simp [used, UniqueSym.zero]
  few := Nat.zero_le _
  stored := by
    intro e
    constructor
    · rintro ⟨named, _, _, rfl⟩
      exact absurd rfl named
    · rintro ⟨name, d, isFirst, -⟩
      rw [none' name] at isFirst
      cases isFirst

/-- The table grows when 3/4 of it is in use. -/
theorem Holds.expand (holds : Holds hash first entries size nElements)
    (fits : size * 3 ≤ nElements * 4 → size < 4294967291) (calloc : Bool)
    : (calloc = false
        ∧ UniqueSymTable.expand ⟨some entries, size, nElements⟩ calloc = .error .outOfMemory)
      ∨ ∃ entries' size', UniqueSymTable.expand ⟨some entries, size, nElements⟩ calloc
          = .ok (entries', size')
        ∧ Holds hash first entries' size' nElements ∧ 4 * nElements < 3 * size'
        ∧ (Reached hash entries size → Reached hash entries' size') := by
  simp only [UniqueSymTable.expand, bind, Except.bind, pure, Except.pure]
  split
  next full =>
    obtain ⟨p, found, valid, le⟩ := higherPrimeNumber_spec (n := size + 1) (by omega)
    simp only [found]
    cases calloc with
    | false => exact .inl ⟨rfl, rfl⟩
    | true =>
      obtain ⟨newentries, entered, newHashed, stored, count, reached⟩ :=
        reenter_spec valid holds.hashed le size le_rfl
      have few := holds.few
      -- Both sizes are odd.
      have newOdd := (bounds_of_mem p valid).2
      refine .inr ⟨newentries, p, ?_, ⟨valid, newHashed, ?_, by omega, fun e => ?_⟩, by omega,
        fun old => reached ?_⟩
      · simp only [entered, if_true]
      · rw [holds.count, count]
      · rw [stored, holds.stored]
      · intro i insideI j insideJ named same
        obtain ⟨name, isName⟩ := Option.ne_none_iff_exists'.mp named
        exact (old holds.valid).unique i (Finset.mem_range.mpr insideI) j
          (Finset.mem_range.mpr insideJ) name name isName (same ▸ isName) rfl
  next notFull => exact .inr ⟨entries, size, rfl, holds, by omega, id⟩

variable [DecidableEq ν]

/-- Entering a name without definition. -/
theorem Holds.enter (holds : Holds hash first entries size nElements) {name : ν} (new : first name = none)
    (room : 4 * nElements < 3 * size) (sym : σ) (map : μ)
    : ∃ entries', enterUniqueSym entries size (hash name) name (some sym) (some map) = .ok entries'
      ∧ Holds hash (Function.update first name (some (sym, map))) entries' size (nElements + 1)
      ∧ used entries' size = used entries size + 1
      ∧ (Reached hash entries size → Reached hash entries' size) := by
  obtain ⟨n, entered, free, passed⟩ :=
    enterUniqueSym_spec hash holds.valid holds.less name (some sym) (some map)
  have inside := path_lt holds.valid (hash name) n
  have count := used_update (e := entryOf hash name (sym, map)) holds.valid inside free rfl
  have absent : ∀ i < size, (entries i).name ≠ some name := by
    intro i insideI named
    obtain ⟨d, isFirst, -⟩ := holds.entry insideI named
    rw [new] at isFirst
    cases isFirst
  refine ⟨_, entered, ⟨holds.valid, holds.hashed.update, ?_, by omega, fun e => ?_⟩, count,
    fun reached => reached.update absent free passed⟩
  · rw [holds.count]
    exact count.symm
  · rw [stored_update inside free (Option.some_ne_none name), holds.stored]
    constructor
    · rintro (⟨other, d, isFirst, rfl⟩ | rfl)
      · have different : other ≠ name := by
          rintro rfl
          rw [new] at isFirst
          cases isFirst
        exact ⟨other, d, (Function.update_of_ne different _ _).trans isFirst, rfl⟩
      · exact ⟨name, (sym, map), Function.update_self _ _ _, rfl⟩
    · rintro ⟨other, d, isFirst, rfl⟩
      by_cases same : other = name
      · subst same
        rw [Function.update_self] at isFirst
        obtain rfl := Option.some.inj isFirst
        exact .inr rfl
      · rw [Function.update_of_ne same] at isFirst
        exact .inl ⟨other, d, isFirst, rfl⟩

variable [DecidableEq μ]

/-- Closing an object by force. -/
theorem Holds.reset (holds : Holds hash first entries size nElements) (map : μ)
    : Holds hash (fun name => (first name).filter fun d => d.2 ≠ map) (resetEntries entries size map) size
        (nElements - ((Finset.range size).filter fun idx => (entries idx).OwnedBy map).card) where
  valid := holds.valid
  hashed := holds.hashed.reset
  count := by rw [used_reset, holds.count]
  few := by
    have := holds.few
    omega
  stored := by
    intro e
    rw [stored_reset, holds.stored]
    constructor
    · rintro ⟨⟨name, d, isFirst, rfl⟩, other⟩
      have stays : d.2 ≠ map := fun same => other (by rw [entryOf, same])
      exact ⟨name, d, by rw [isFirst, Option.filter_some, if_pos (decide_eq_true stays)], rfl⟩
    · rintro ⟨name, d, isFirst, rfl⟩
      obtain ⟨isFirst, stays⟩ := Option.filter_eq_some_iff.mp isFirst
      refine ⟨⟨name, d, isFirst, rfl⟩, fun same => ?_⟩
      exact of_decide_eq_true stays (Option.some.inj same)

end Nglibc.UniqueSymbols

/-! Every lookup gives the first definition. Entries lie behind used entries only until an object is
closed by force while an entry of another object lies behind one of its own.
-/

namespace Nglibc.UniqueSymbols

variable {ν σ μ : Type} {hash : ν → Nat} {entries : Nat → UniqueSym ν σ μ} {size : Nat}
variable [DecidableEq ν]

private theorem doLookupUnique_new {tab : UniqueSymTable ν σ μ} {name : ν} {newHash : Nat} {map : μ} {sym : σ}
    {calloc : Bool} {entries' : Nat → UniqueSym ν σ μ} (linkMap : LinkMap) (forRelocate : Bool)
    (missing : ∀ table, tab.entries = some table → search table tab.size (1 + newHash % (tab.size - 2))
      newHash name tab.size (newHash % tab.size) = .ok none)
    (expanded : tab.expand calloc = .ok (entries, size))
    (entered : enterUniqueSym entries size newHash name (some sym) (some map) = .ok entries')
    : ∃ r, doLookupUnique tab name newHash map linkMap none sym name forRelocate calloc = .ok r
      ∧ r.tab = ⟨some entries', size, tab.nElements + 1⟩ ∧ r.sym = some sym ∧ r.map = some map := by
  cases table : tab.entries with
  | none =>
    simp only [doLookupUnique, bind, Except.bind, pure, Except.pure, table, expanded, entered]
    exact ⟨_, rfl, rfl, rfl, rfl⟩
  | some table' =>
    simp only [doLookupUnique, bind, Except.bind, pure, Except.pure, table, missing table' table,
      expanded, entered]
    exact ⟨_, rfl, rfl, rfl, rfl⟩

/-- A lookup that finds no entry gets no memory when there is none for a larger table. -/
theorem doLookupUnique_error {tab : UniqueSymTable ν σ μ} {name : ν} {newHash : Nat} {map : μ}
    {linkMap : LinkMap} {sym : σ} {forRelocate calloc : Bool} {failure : Failure}
    (missing : ∀ table, tab.entries = some table → search table tab.size (1 + newHash % (tab.size - 2))
      newHash name tab.size (newHash % tab.size) = .ok none)
    (expanded : tab.expand calloc = .error failure)
    : doLookupUnique tab name newHash map linkMap none sym name forRelocate calloc = .error failure := by
  cases table : tab.entries with
  | none => simp only [doLookupUnique, bind, Except.bind, pure, Except.pure, table, expanded]
  | some table' =>
    simp only [doLookupUnique, bind, Except.bind, table, missing table' table, expanded]

variable [DecidableEq μ] {w : World ν σ μ} {name : ν} {map : μ} {sym : σ} {forRelocate calloc : Bool}

def Meets (hash : ν → Nat) (w : World ν σ μ) (e : Event ν σ μ) : Prop :=
  e.NoMemory ∧ w.step hash e = .error .outOfMemory
    ∨ ∃ w' result, w.step hash e = .ok (w', result) ∧ Valid hash w' ∧ e.Correct w result w'
      ∧ (e.Harmless hash w → w.tab.Reached hash → w'.tab.Reached hash)

/-- A lookup that finds no entry. -/
theorem meets_new
    (missing : ∀ table, w.tab.entries = some table →
      search table w.tab.size (1 + hash name % (w.tab.size - 2)) (hash name) name w.tab.size
        (hash name % w.tab.size) = .ok none)
    (new : w.first name = none) (count : w.tab.used = w.tab.nElements)
    (expands : (calloc = false ∧ w.tab.expand calloc = .error .outOfMemory)
      ∨ ∃ entries size, w.tab.expand calloc = .ok (entries, size)
        ∧ Holds hash w.first entries size w.tab.nElements ∧ 4 * w.tab.nElements < 3 * size
        ∧ (w.tab.Reached hash → UniqueSymbols.Reached hash entries size))
    : Meets hash w (.lookup name map sym forRelocate calloc) := by
  rcases expands with ⟨noMemory, failed⟩ | ⟨entries, size, expanded, holds, room, reached⟩
  · refine .inl ⟨noMemory, ?_⟩
    simp only [World.step, bind, Except.bind, doLookupUnique_error missing failed]
  · obtain ⟨entries', entered, holds', more, reached'⟩ := holds.enter new room sym map
    obtain ⟨r, looked, tab, isSym, isMap⟩ :=
      doLookupUnique_new (w.linkMap map) forRelocate missing expanded entered
    refine .inr ⟨_, _, by simp only [World.step, bind, Except.bind, looked]; rfl, ?_, ⟨?_, ?_⟩,
      fun _ old => ?_⟩
    · simp only [tab, new, Option.getD_none]
      exact .table holds'
    · simp only [new, Option.getD_none, isSym, isMap]
    · refine .inr ⟨?_, ?_⟩
      · simp only [UniqueSymTable.used, tab]
        rw [more, ← holds.count]
        exact congrArg (· + 1) count.symm
      · simp only [tab, count]
        exact room
    · simp only [UniqueSymTable.Reached, tab]
      rintro _ ⟨⟩
      exact reached' (reached old)

theorem meets_found {e : UniqueSym ν σ μ} {d : σ × μ} (table : w.tab.entries = some entries)
    (found : search entries w.tab.size (1 + hash name % (w.tab.size - 2)) (hash name) name w.tab.size
      (hash name % w.tab.size) = .ok (some e))
    (isFirst : w.first name = some d) (same : e = entryOf hash name d) (valid : Valid hash w)
    : Meets hash w (.lookup name map sym forRelocate calloc) := by
  refine .inr ⟨w, some (some d.1, some d.2), ?_, valid, ⟨?_, .inl rfl⟩, fun _ => id⟩
  · have keeps : Function.update w.first name (some ((w.first name).getD (sym, map))) = w.first := by
      rw [isFirst, Option.getD_some, ← isFirst, Function.update_eq_self]
    have keepsMap : Function.update w.linkMap map (w.linkMap map) = w.linkMap :=
      Function.update_eq_self _ _
    simp only [World.step, doLookupUnique, bind, Except.bind, pure, Except.pure, table, found, same,
      keeps, keepsMap, entryOf]
  · simp only [isFirst, Option.getD_some]

/-- A safe lookup finds the first definition and keeps the invariant. -/
theorem Valid.lookup (valid : Valid hash w)
    (safe : (Event.lookup name map sym forRelocate calloc).Safe hash w)
    : Meets hash w (.lookup name map sym forRelocate calloc) := by
  obtain ⟨notHidden, zero, largest⟩ := safe
  cases valid with
  | empty small none' =>
    refine meets_new nofun (none' name) rfl ?_
    cases calloc with
    | false => exact .inl ⟨rfl, rfl⟩
    | true => exact .inr ⟨_, _, rfl, Holds.initial none', Nat.zero_lt_succ 92,
        fun _ valid => Probed.empty⟩
  | @table entries size nElements linkMap first holds =>
    have storedHere : UniqueSymTable.Stores ⟨some entries, size, nElements⟩ name →
        ∃ i < size, (entries i).name = some name := by
      rintro ⟨_, ⟨⟩, stored⟩
      exact stored
    obtain ⟨result, searched, found, missing⟩ :=
      search_spec (hash name) name holds.valid (room_of_used holds.less)
        (fun i inside named => holds.hashed.named i inside name named) holds.hashed.cleared
        (fun i j less inside named free => notHidden ⟨entries, rfl, i, inside, j, less, named, free⟩)
        (fun isZero => storedHere ((zero isZero).resolve_left (Option.some_ne_none _)))
    cases result with
    | some e =>
      obtain ⟨i, inside, rfl, named⟩ := found e rfl
      obtain ⟨d, isFirst, same⟩ := holds.entry inside named
      exact meets_found rfl searched isFirst same (.table holds)
    | none =>
      have absent := missing rfl
      refine meets_new ?_ (holds.no_first absent) holds.count.symm ?_
      · rintro _ ⟨⟩
        exact searched
      · have fits : size * 3 ≤ nElements * 4 → size < 4294967291 := by
          refine fun full => (largest full).resolve_right fun stored => ?_
          obtain ⟨i, inside, named⟩ := storedHere stored
          exact absent i inside named
        refine (holds.expand fits calloc).imp_right ?_
        rintro ⟨entries', size', expanded, holds', room, reached⟩
        exact ⟨entries', size', expanded, holds', room, fun old => reached (old entries rfl)⟩

theorem Valid.close (valid : Valid hash w) (map : μ) : Meets hash w (.close map) := by
  cases valid with
  | empty small none' =>
    refine .inr ⟨_, none, rfl, .empty small fun name => ?_, trivial, fun _ => id⟩
    simp only [none', Option.filter_none]
  | table holds =>
    refine .inr ⟨_, none, rfl, .table (holds.reset map), trivial, fun harmless old => ?_⟩
    rintro _ ⟨⟩
    exact (old _ rfl).reset (harmless _ rfl)

theorem Valid.meets (valid : Valid hash w) {e : Event ν σ μ} (safe : e.Safe hash w)
    : Meets hash w e := by
  cases e with
  | lookup name map sym forRelocate calloc => exact valid.lookup safe
  | close map => exact valid.close map

theorem Reachable.valid (reachable : Reachable hash (fun w e => e.Safe hash w) w) : Valid hash w := by
  induction reachable with
  | start linkMap => exact .empty rfl fun _ => rfl
  | step _ allowed stepped ih =>
    rcases ih.meets allowed with ⟨-, failed⟩ | ⟨w', result, stepped', valid, -, -⟩
    · rw [failed] at stepped
      cases stepped
    · rw [stepped'] at stepped
      cases stepped
      exact valid

/-- While every event is safe, a lookup ends, compares no null pointer and gives the first definition,
and the table that gets an entry is less than 3/4 full, unless there is no memory.
-/
theorem first_definition (hash : ν → Nat) (w : World ν σ μ)
    (reachable : Reachable hash (fun w e => e.Safe hash w) w) (e : Event ν σ μ) (safe : e.Safe hash w)
    : e.NoMemory ∧ w.step hash e = .error .outOfMemory
      ∨ ∃ w' result, w.step hash e = .ok (w', result) ∧ e.Correct w result w' := by
  rcases reachable.valid.meets safe with failed | ⟨w', result, stepped, -, correct, -⟩
  · exact .inl failed
  · exact .inr ⟨w', result, stepped, correct⟩

-- Names of two letters whose paths start at the same entry of the first table.
section Examples

/-- The hash of a name as `do_lookup_x` gets it. -/
def gnuHash (name : List UInt8) : Nat := (SymbolHash.dlNewHash name).toNat

set_option maxRecDepth 4000 in
/-- Two objects define `aa` and `b_`. -/
theorem first_definition_two
    : ∃ w : World (List UInt8) Nat Nat, w.tab.nElements = 1
      ∧ ((Event.lookup [98, 95] 2 20 false true).NoMemory
          ∧ w.step gnuHash (.lookup [98, 95] 2 20 false true) = .error .outOfMemory
        ∨ ∃ w' result, w.step gnuHash (.lookup [98, 95] 2 20 false true) = .ok (w', result)
          ∧ (Event.lookup [98, 95] 2 20 false true).Correct w result w') := by
  have started : Reachable gnuHash (fun w e => Event.Safe gnuHash w e)
      (World.start fun _ : Nat => ⟨true, false, false⟩ : World (List UInt8) Nat Nat) := .start _
  have entered := started.step (e := .lookup [97, 97] 1 10 false true)
    ⟨by rintro ⟨_, ⟨⟩, _⟩, fun _ => .inl rfl, fun _ => .inl (by decide)⟩ rfl
  refine ⟨_, rfl, first_definition gnuHash _ entered (.lookup [98, 95] 2 20 false true) ⟨?_, ?_, ?_⟩⟩
  · rintro ⟨_, ⟨⟩, i, less, j, -, named, -⟩
    revert less named
    revert i
    decide
  · exact fun zero => absurd zero (by decide)
  · exact fun _ => .inl (by decide)

set_option maxRecDepth 4000 in
/-- After the object that defines `aa` was closed by force, a third object gets its own definition of
`b_`, although the second one is loaded.
-/
theorem defined_again
    : ∃ w : World (List UInt8) Nat Nat, Reachable gnuHash (fun _ _ => True) w
      ∧ ∃ w' result, w.step gnuHash (.lookup [98, 95] 3 30 false true) = .ok (w', result)
        ∧ ¬ (Event.lookup [98, 95] 3 30 false true).Correct w result w' := by
  have started : Reachable gnuHash (fun _ _ => True)
      (World.start fun _ : Nat => ⟨true, false, false⟩ : World (List UInt8) Nat Nat) := .start _
  have first := started.step (e := .lookup [97, 97] 1 10 false true) trivial rfl
  have second := first.step (e := .lookup [98, 95] 2 20 false true) trivial rfl
  have closed := second.step (e := .close 1) trivial rfl
  refine ⟨_, closed, _, _, rfl, fun correct => ?_⟩
  have given := correct.1
  revert given
  decide

end Examples

end Nglibc.UniqueSymbols
