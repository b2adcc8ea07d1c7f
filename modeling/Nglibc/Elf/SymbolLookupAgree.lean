import Mathlib.Data.Nat.Bitwise
import Nglibc.Elf.SymbolLookup

/-! Well-formed hash tables, and the symbols that the searches through them look at. -/

namespace Nglibc.SymbolLookup

variable {map : Object} {r : Reference}

/-- Whether a symbol matches when nothing is counted. -/
def verdict (map : Object) (r : Reference) (symidx : Nat) : Except Failure Bool :=
  (checkMatch map r symidx ⟨0, none⟩).map Prod.fst

/-- Only references without version to objects with versions count. -/
theorem checkMatch_eq (plain : r.version ≠ none ∨ map.versyms = none) (symidx : Nat) (seen : Seen)
    : checkMatch map r symidx seen = (verdict map r symidx).map fun found => (found, seen) := by
  simp only [verdict, checkMatch]
  split
  next => rfl
  next =>
    split
    next => rfl
    next =>
      split
      next => rfl
      next =>
        cases version : r.version with
        | none =>
          have noTable : map.versyms = none := plain.resolve_left (not_not_intro version)
          simp only [noTable]
          rfl
        | some v =>
          cases map.versyms with
          | none =>
            cases filename : v.filename with
            | none =>
              simp only [filename]
              rfl
            | some file =>
              simp only [filename]
              split <;> rfl
          | some verstab =>
            simp only [bind, Except.bind, pure, Except.pure]
            cases (map.versions (verstab symidx &&& 0x7fff)).differs v with
            | error failure => rfl
            | ok differs =>
              simp only
              split <;> rfl

def firstOf (map : Object) (r : Reference) : List Nat → Except Failure (Option Nat)
  | [] => .ok none
  | i :: rest => do if ← verdict map r i then return some i else firstOf map r rest

theorem firstOf_none {l : List Nat} (rejected : ∀ i ∈ l, verdict map r i = .ok false)
    : firstOf map r l = .ok none := by
  induction l with
  | nil => rfl
  | cons i rest ih =>
    obtain ⟨head, tail⟩ := List.forall_mem_cons.mp rejected
    rw [firstOf, head]
    exact ih tail

private theorem firstOf_single {l : List Nat} {i : Nat} (mem : i ∈ l)
    (others : ∀ j ∈ l, j ≠ i → verdict map r j = .ok false)
    : firstOf map r l = (verdict map r i).map fun found => if found then some i else none := by
  induction l with
  | nil => cases mem
  | cons j rest ih =>
    obtain ⟨head, tail⟩ := List.forall_mem_cons.mp others
    by_cases same : j = i
    · subst same
      rw [firstOf]
      cases own : verdict map r j with
      | error failure => rfl
      | ok found =>
        cases found with
        | true => rfl
        | false =>
          refine firstOf_none fun k memK => ?_
          by_cases again : k = j
          · exact again ▸ own
          · exact tail k memK again
    · rw [firstOf, head same]
      exact ih ((List.mem_cons.mp mem).resolve_left (Ne.symm same)) tail

/-- Two lists of which each has all candidates, and there is at most one. -/
theorem firstOf_congr {l l' : List Nat}
    (same : ∀ i, verdict map r i ≠ .ok false → (i ∈ l ↔ i ∈ l'))
    (single : ∀ i ∈ l, ∀ j ∈ l, verdict map r i ≠ .ok false → verdict map r j ≠ .ok false → i = j)
    : firstOf map r l = firstOf map r l' := by
  by_cases candidate : ∃ i ∈ l, verdict map r i ≠ .ok false
  · obtain ⟨i, mem, notRejected⟩ := candidate
    have others : ∀ j ∈ l, j ≠ i → verdict map r j = .ok false := by
      intro j memJ different
      by_contra also
      exact different (single j memJ i mem also notRejected)
    have others' : ∀ j ∈ l', j ≠ i → verdict map r j = .ok false := by
      intro j memJ different
      by_contra also
      exact also (others j ((same j also).mpr memJ) different)
    rw [firstOf_single mem others, firstOf_single ((same i notRejected).mp mem) others']
  · have rejected : ∀ i ∈ l, verdict map r i = .ok false := by
      intro i mem
      by_contra also
      exact candidate ⟨i, mem, also⟩
    have rejected' : ∀ i ∈ l', verdict map r i = .ok false := by
      intro i mem
      by_contra also
      exact also (rejected i ((same i also).mpr mem))
    rw [firstOf_none rejected, firstOf_none rejected']

def Object.elfHash (object : Object) (i : Nat) : Nat :=
  (SymbolHash.dlElfHash (object.symtab i).name).toNat

/-- The links from `i` on reach the end through the symbols of a list. -/
inductive Linked (chain : Nat → Nat) : Nat → List Nat → Prop
  | done : Linked chain 0 []
  | link {i : Nat} {l : List Nat} (used : i ≠ 0) (rest : Linked chain (chain i) l) :
      Linked chain i (i :: l)

/-- Each bucket leads to the listed symbols with its hash. -/
structure SysvWellFormed (object : Object) (count : Nat) (hash : Nat → Nat) (listed : Nat → Prop)
    : Prop where
  empty : hash 0 = 0 → ∀ i, ¬ listed i
  bucket : ∀ b < hash 0, ∃ l, Linked (fun i => hash (2 + hash 0 + i)) (hash (2 + b)) l
    ∧ l.length ≤ count ∧ (∀ i ∈ l, listed i)
    ∧ ∀ i, listed i → object.elfHash i % hash 0 = b → i ∈ l

private theorem sysvLoop_eq (plain : r.version ≠ none ∨ map.versyms = none) {chain : Nat → Nat} {i : Nat}
    {l : List Nat} (linked : Linked chain i l) {steps : Nat} (enough : l.length < steps) (seen : Seen)
    : sysvLoop map r chain steps i seen = (firstOf map r l).map fun found => (found, seen) := by
  induction linked generalizing steps with
  | done =>
    cases steps with
    | zero => exact absurd enough (Nat.not_lt_zero _)
    | succ steps => rfl
  | @link i l used rest ih =>
    cases steps with
    | zero => exact absurd enough (Nat.not_lt_zero _)
    | succ steps =>
      rw [sysvLoop, if_neg used, checkMatch_eq plain, firstOf]
      cases verdict map r i with
      | error failure => rfl
      | ok found =>
        cases found with
        | true => rfl
        | false => exact ih (Nat.lt_of_succ_lt_succ enough)

def Object.gnuHash (object : Object) (i : Nat) : Nat :=
  (SymbolHash.dlNewHash (object.symtab i).name).toNat

/-- The symbols from `symbias` on are hashed. The Bloom filter has both bits of each, each bucket leads
to the first symbol of its class, a class has no holes, and the low bit of a chain entry marks its end.
-/
structure GnuWellFormed (nativeClass : Nat) (object : Object) (count : Nat) (t : Image) : Prop where
  power : t.bitmaskNwords &&& pred32 t.bitmaskNwords = 0
  first : 0 < t.symbias
  empty : t.nbuckets = 0 → count ≤ t.symbias
  bloom : ∀ i, t.symbias ≤ i → i < count →
    (t.bitmask nativeClass ((object.gnuHash i / nativeClass) &&& pred32 t.bitmaskNwords)).testBit
        (object.gnuHash i &&& (nativeClass - 1)) = true
      ∧ (t.bitmask nativeClass ((object.gnuHash i / nativeClass) &&& pred32 t.bitmaskNwords)).testBit
        ((object.gnuHash i >>> t.gnuShift) &&& (nativeClass - 1)) = true
  bucket : ∀ i, t.symbias ≤ i → i < count →
    t.symbias ≤ t.gnuBuckets nativeClass (object.gnuHash i % t.nbuckets)
      ∧ t.gnuBuckets nativeClass (object.gnuHash i % t.nbuckets) ≤ i
      ∧ ∀ j, t.gnuBuckets nativeClass (object.gnuHash i % t.nbuckets) ≤ j → j ≤ i →
        object.gnuHash j % t.nbuckets = object.gnuHash i % t.nbuckets
  unused : ∀ b < t.nbuckets, (∀ i, t.symbias ≤ i → i < count → object.gnuHash i % t.nbuckets ≠ b) →
      t.gnuBuckets nativeClass b = 0
  chain : ∀ i, t.symbias ≤ i → i < count → t.gnuChainZero nativeClass i / 2 = object.gnuHash i / 2
      ∧ (t.gnuChainZero nativeClass i % 2 = 1 ↔
        i + 1 = count ∨ object.gnuHash (i + 1) % t.nbuckets ≠ object.gnuHash i % t.nbuckets)

/-- The comparison ignores the lowest bit. -/
theorem xor_shiftRight_one (a b : Nat) : (a ^^^ b) >>> 1 = 0 ↔ a / 2 = b / 2 := by
  rw [Nat.shiftRight_xor_distrib, Nat.xor_eq_zero_iff, Nat.shiftRight_eq_div_pow,
    Nat.shiftRight_eq_div_pow]

theorem bloom_test {word a b : Nat} (first : word.testBit a = true) (second : word.testBit b = true)
    : (word >>> a) &&& (word >>> b) &&& 1 ≠ 0 := by
  have both : ((word >>> a) &&& (word >>> b)).testBit 0 = true := by
    rw [Nat.testBit_and, Nat.testBit_shiftRight, Nat.testBit_shiftRight, Nat.add_zero, Nat.add_zero,
      first, second]
    rfl
  rw [Nat.testBit_zero, decide_eq_true_eq] at both
  rw [Nat.and_one_is_mod, both]
  exact Nat.one_ne_zero

variable {nativeClass count : Nat} {t : Image}

/-- The loop looks at hashed symbols only, and at each one from `i` on in the class of `i` whose hash
is searched. The induction is on the number of symbols behind `i`.
-/
theorem gnuLoop_eq (wellFormed : GnuWellFormed nativeClass map count t)
    (plain : r.version ≠ none ∨ map.versyms = none) (newHash steps i : Nat) (low : t.symbias ≤ i)
    (high : i < count) (enough : count - i ≤ steps) (seen : Seen)
    : ∃ l, gnuLoop map r newHash (t.gnuChainZero nativeClass) steps i seen
        = (firstOf map r l).map (fun found => (found, seen))
      ∧ (∀ j ∈ l, i ≤ j ∧ j < count)
      ∧ ∀ j, i ≤ j → j < count →
        (∀ k, i ≤ k → k ≤ j → map.gnuHash k % t.nbuckets = map.gnuHash i % t.nbuckets) →
        map.gnuHash j = newHash → j ∈ l := by
  induction steps generalizing i with
  | zero => omega
  | succ steps ih =>
    obtain ⟨entry, last⟩ := wellFormed.chain i low high
    -- The list of what comes after the entry of `i`.
    have after : ∃ l, (if t.gnuChainZero nativeClass i &&& 1 = 0 then
          gnuLoop map r newHash (t.gnuChainZero nativeClass) steps (i + 1) seen
        else pure (none, seen)) = (firstOf map r l).map (fun found => (found, seen))
        ∧ (∀ j ∈ l, i + 1 ≤ j ∧ j < count)
        ∧ ∀ j, i + 1 ≤ j → j < count →
          (∀ k, i ≤ k → k ≤ j → map.gnuHash k % t.nbuckets = map.gnuHash i % t.nbuckets) →
          map.gnuHash j = newHash → j ∈ l := by
      rw [Nat.and_one_is_mod]
      split
      next more =>
        have notLast : ¬ (i + 1 = count
            ∨ map.gnuHash (i + 1) % t.nbuckets ≠ map.gnuHash i % t.nbuckets) := by
          rw [← last, more]
          exact Nat.zero_ne_one
        rw [not_or, not_not] at notLast
        obtain ⟨notEnd, sameClass⟩ := notLast
        obtain ⟨l, run, inside, complete⟩ := ih (i + 1) (by omega) (by omega) (by omega)
        refine ⟨l, run, inside, fun j above below class' hash => ?_⟩
        refine complete j above below (fun k lowK highK => ?_) hash
        rw [sameClass]
        exact class' k (by omega) highK
      next atEnd =>
        have isLast := last.mp (by omega)
        refine ⟨[], rfl, by simp, fun j above below class' _ => ?_⟩
        rcases isLast with isEnd | other
        · omega
        · exact absurd (class' (i + 1) (by omega) above) other
    obtain ⟨l, run, inside, complete⟩ := after
    rw [gnuLoop]
    by_cases compared : (t.gnuChainZero nativeClass i ^^^ newHash) >>> 1 = 0
    · refine ⟨i :: l, ?_, ?_, ?_⟩
      · rw [if_pos compared, checkMatch_eq plain, firstOf]
        cases verdict map r i with
        | error failure => rfl
        | ok found =>
          cases found with
          | true => rfl
          | false => exact run
      · intro j mem
        rcases List.mem_cons.mp mem with rfl | later
        · exact ⟨le_rfl, high⟩
        · have := inside j later
          omega
      · intro j above below class' hash
        by_cases same : j = i
        · exact same ▸ List.mem_cons_self
        · exact List.mem_cons_of_mem _ (complete j (by omega) below class' hash)
    · refine ⟨l, ?_, ?_, ?_⟩
      · rw [if_neg compared]
        exact run
      · intro j mem
        have := inside j mem
        omega
      · intro j above below class' hash
        by_cases same : j = i
        · rw [xor_shiftRight_one, entry, ← same, hash] at compared
          exact absurd rfl compared
        · exact complete j (by omega) below class' hash

end Nglibc.SymbolLookup

/-! Objects with both hash tables: a lookup through the GNU table gives what a lookup through the table
from the System V interface gives, when one symbol at most can match.
-/

namespace Nglibc.SymbolLookup

/-- An object with both tables, the number of its symbols, and the symbols that `sysv` lists. -/
structure Library where
  object : Object
  count : Nat
  gnu : Image
  sysv : Nat → Nat
  listed : Nat → Prop

def Library.Hashed (lib : Library) (i : Nat) : Prop := lib.gnu.symbias ≤ i ∧ i < lib.count

def Library.load (nativeClass : Nat) (withGnu : Bool) (lib : Library) : Except Failure LinkMap :=
  dlSetupHash nativeClass lib.object (if withGnu then some lib.gnu else none) (some lib.sysv)

/-- Both tables are well-formed, and the GNU table leaves out only undefined symbols. -/
structure Library.WellFormed (nativeClass : Nat) (lib : Library) : Prop where
  gnu : GnuWellFormed nativeClass lib.object lib.count lib.gnu
  sysv : SysvWellFormed lib.object lib.count lib.sysv lib.listed
  hashed : ∀ i, lib.Hashed i → lib.listed i
  undefined : ∀ i, lib.listed i → ¬ lib.Hashed i →
    (lib.object.symtab i).shndx = shnUndef ∧ (lib.object.symtab i).value = 0

/-- A reference with a version, or one to an object without version table. The symbol that refers has
the name that is looked up.
-/
structure Reference.Refers (r : Reference) (lib : Library) : Prop where
  plain : r.version ≠ none ∨ lib.object.versyms = none
  named : ∀ i, r.ref = some (lib.object.id, i) → (lib.object.symtab i).name = r.undefName

/-- At most one hashed symbol matches, and no undefined thread-local symbol of the name does. -/
structure Reference.Single (r : Reference) (lib : Library) : Prop where
  single : ∀ i, lib.Hashed i → ∀ j, lib.Hashed j → verdict lib.object r i ≠ .ok false →
    verdict lib.object r j ≠ .ok false → i = j
  noTls : ∀ i, lib.listed i → ¬ lib.Hashed i → (lib.object.symtab i).name = r.undefName →
    (lib.object.symtab i).type ≠ sttTls ∨ r.plt = true

variable {nativeClass : Nat} {lib : Library} {r : Reference}

/-- A symbol that is not rejected has the name that is looked up. -/
theorem verdict_name (refers : r.Refers lib) {i : Nat} (candidate : verdict lib.object r i ≠ .ok false)
    : (lib.object.symtab i).name = r.undefName := by
  by_contra different
  apply candidate
  by_cases own : r.ref = some (lib.object.id, i)
  · exact absurd (refers.named i own) different
  · simp only [verdict, checkMatch]
    split
    next => rfl
    next =>
      split
      next => rfl
      next =>
        rw [if_pos ⟨own, different⟩]
        rfl

/-- The symbols that the GNU table leaves out are rejected. -/
theorem verdict_rest (wellFormed : lib.WellFormed nativeClass) (refers : r.Refers lib)
    (single : r.Single lib) {i : Nat} (listed : lib.listed i) (rest : ¬ lib.Hashed i)
    : verdict lib.object r i = .ok false := by
  by_contra candidate
  have noTls := single.noTls i listed rest (verdict_name refers candidate)
  apply candidate
  obtain ⟨undefined, noValue⟩ := wellFormed.undefined i listed rest
  have first : ((lib.object.symtab i).value = 0 ∧ (lib.object.symtab i).shndx ≠ shnAbs
      ∧ (lib.object.symtab i).type ≠ sttTls) ∨ (r.plt = true ∧ (lib.object.symtab i).shndx = shnUndef) := by
    refine noTls.imp (fun noTls => ⟨noValue, ?_, noTls⟩) fun plt => ⟨plt, undefined⟩
    rw [undefined]
    decide
  simp only [verdict, checkMatch]
  rw [if_pos first]
  rfl

theorem differs_ends (own version : FoundVersion) : own.differs version ≠ .error .runsOn := by
  rw [FoundVersion.differs]
  split
  next => exact nofun
  next =>
    rw [strcmp.eq_def]
    split <;> exact nofun

/-- `check_match` itself always ends. -/
theorem checkMatch_ends (map : Object) (i : Nat) (seen : Seen)
    : checkMatch map r i seen ≠ .error .runsOn := by
  simp only [checkMatch]
  split
  next => simp
  next =>
    split
    next => simp
    next =>
      split
      next => simp
      next =>
        cases r.version with
        | none =>
          cases map.versyms with
          | none => simp
          | some verstab =>
            generalize (if r.returnNewest = true then 2 else 3) = newest
            simp only
            split
            next => split <;> simp
            next => simp
        | some v =>
          cases map.versyms with
          | none =>
            cases filename : v.filename with
            | none => simp [filename]
            | some file =>
              simp only [filename]
              split <;> simp
          | some verstab =>
            have ends := differs_ends (map.versions (verstab i &&& 0x7fff)) v
            simp only [bind, Except.bind, pure, Except.pure]
            cases differs : (map.versions (verstab i &&& 0x7fff)).differs v with
            | error failure => simpa [differs] using ends
            | ok differs =>
              simp only
              split <;> simp

theorem verdict_ends (map : Object) (i : Nat) : verdict map r i ≠ .error .runsOn := by
  have ends := checkMatch_ends (r := r) map i ⟨0, none⟩
  rw [verdict]
  cases matched : checkMatch map r i ⟨0, none⟩ with
  | error failure => simpa [matched, Except.map] using ends
  | ok found => simp [Except.map]

theorem firstOf_ends {map : Object} (l : List Nat) : firstOf map r l ≠ .error .runsOn := by
  induction l with
  | nil => simp [firstOf]
  | cons i rest ih =>
    have ends := verdict_ends (r := r) map i
    rw [firstOf]
    cases matched : verdict map r i with
    | error failure => simpa [matched, bind, Except.bind] using ends
    | ok found =>
      cases found with
      | true => simp [bind, Except.bind, pure, Except.pure]
      | false => exact ih

def Reference.newHash (r : Reference) : Nat := (SymbolHash.dlNewHash r.undefName).toNat

/-- The search through the GNU table looks at each hashed symbol with the hash of the name. -/
theorem searchMap_gnu (wellFormed : lib.WellFormed nativeClass) (refers : r.Refers lib) {steps : Nat}
    (enough : lib.count < steps) (buckets : lib.gnu.nbuckets ≠ 0) {map : LinkMap}
    (loaded : lib.load nativeClass true = .ok map)
    : ∃ l, searchMap nativeClass steps map r r.newHash = firstOf lib.object r l
      ∧ (∀ i ∈ l, lib.Hashed i)
      ∧ ∀ i, lib.Hashed i → lib.object.gnuHash i = r.newHash → i ∈ l := by
  have gnu := wellFormed.gnu
  rw [Library.load, if_pos rfl, dlSetupHash, if_pos gnu.power] at loaded
  obtain rfl := Except.ok.inj loaded
  -- A search that ends before the chain finds no symbol with the hash of the name.
  have empty (none' : ∀ i, lib.Hashed i → lib.object.gnuHash i ≠ r.newHash)
      : ∃ l, Except.ok none = firstOf lib.object r l ∧ (∀ i ∈ l, lib.Hashed i)
        ∧ ∀ i, lib.Hashed i → lib.object.gnuHash i = r.newHash → i ∈ l :=
    ⟨[], rfl, by simp, fun i hashed hash => absurd hash (none' i hashed)⟩
  simp only [searchMap, bind, Except.bind, pure, Except.pure]
  split
  next bloom =>
    split
    next bucket =>
      have below : r.newHash % lib.gnu.nbuckets < lib.gnu.nbuckets :=
        Nat.mod_lt _ (Nat.pos_of_ne_zero buckets)
      obtain ⟨i, low, high, sameClass⟩ : ∃ i, lib.gnu.symbias ≤ i ∧ i < lib.count
          ∧ lib.object.gnuHash i % lib.gnu.nbuckets = r.newHash % lib.gnu.nbuckets := by
        by_contra none'
        refine bucket (gnu.unused _ below fun i low high same => ?_)
        exact none' ⟨i, low, high, same⟩
      obtain ⟨start, before, between⟩ := gnu.bucket i low high
      rw [sameClass] at start before between
      obtain ⟨l, run, inside, complete⟩ := gnuLoop_eq gnu refers.plain r.newHash steps
        (lib.gnu.gnuBuckets nativeClass (r.newHash % lib.gnu.nbuckets)) start (by omega) (by omega)
        ⟨0, none⟩
      refine ⟨l, ?_, fun j mem => ⟨start.trans (inside j mem).1, (inside j mem).2⟩, ?_⟩
      · simp only [run]
        cases firstOf lib.object r l with
        | error failure => rfl
        | ok found => cases found <;> rfl
      · rintro j ⟨lowJ, highJ⟩ hash
        obtain ⟨-, beforeJ, betweenJ⟩ := gnu.bucket j lowJ highJ
        rw [hash] at beforeJ betweenJ
        refine complete j beforeJ highJ (fun k lowK highK => ?_) hash
        rw [betweenJ k lowK highK, between _ le_rfl before]
    next noBucket =>
      refine empty fun i hashed hash => ?_
      have start := (gnu.bucket i hashed.1 hashed.2).1
      have := gnu.first
      rw [hash] at start
      exact noBucket (by omega)
  next noBloom =>
    refine empty fun i hashed hash => ?_
    obtain ⟨first, second⟩ := gnu.bloom i hashed.1 hashed.2
    rw [hash] at first second
    exact noBloom (bloom_test first second)

/-- The search through the other table looks at each listed symbol with the hash of the name. -/
theorem searchMap_sysv (wellFormed : lib.WellFormed nativeClass) (refers : r.Refers lib) {steps : Nat}
    (enough : lib.count < steps) (buckets : lib.sysv 0 ≠ 0) {map : LinkMap}
    (loaded : lib.load nativeClass false = .ok map)
    : ∃ l, searchMap nativeClass steps map r r.newHash = firstOf lib.object r l
      ∧ (∀ i ∈ l, lib.listed i)
      ∧ ∀ i, lib.listed i → (lib.object.symtab i).name = r.undefName → i ∈ l := by
  obtain rfl := Except.ok.inj loaded
  have below := Nat.mod_lt (SymbolHash.dlElfHash r.undefName).toNat (Nat.pos_of_ne_zero buckets)
  obtain ⟨l, linked, short, inside, complete⟩ := wellFormed.sysv.bucket _ below
  refine ⟨l, ?_, inside, fun i listed name => complete i listed ?_⟩
  · simp only [searchMap, bind, Except.bind, pure, Except.pure]
    rw [sysvLoop_eq refers.plain linked (by omega)]
    cases firstOf lib.object r l with
    | error failure => rfl
    | ok found => cases found <;> rfl
  · rw [Object.elfHash, name]

/-- The search in an object whose table is not empty. -/
def lookupMap (nativeClass steps : Nat) (map : LinkMap) (r : Reference) : Except Failure (Option Nat) :=
  if map.nbuckets = 0 then .ok none else searchMap nativeClass steps map r r.newHash

/-- Both tables lead to the only symbol that matches, if there is one. -/
theorem lookupMap_agree (wellFormed : lib.WellFormed nativeClass) (refers : r.Refers lib)
    (single : r.Single lib) {steps : Nat} (enough : lib.count < steps)
    : ∃ g s, lib.load nativeClass true = .ok g ∧ lib.load nativeClass false = .ok s
      ∧ g.object = lib.object ∧ s.object = lib.object
      ∧ lookupMap nativeClass steps g r = lookupMap nativeClass steps s r
      ∧ lookupMap nativeClass steps g r ≠ .error .runsOn := by
  obtain ⟨g, loadedG, objectG, bucketsG⟩ : ∃ g, lib.load nativeClass true = .ok g
      ∧ g.object = lib.object ∧ g.nbuckets = lib.gnu.nbuckets := by
    rw [Library.load, if_pos rfl, dlSetupHash, if_pos wellFormed.gnu.power]
    exact ⟨_, rfl, rfl, rfl⟩
  obtain ⟨s, loadedS, objectS, bucketsS⟩ : ∃ s, lib.load nativeClass false = .ok s
      ∧ s.object = lib.object ∧ s.nbuckets = lib.sysv 0 := by
    exact ⟨_, rfl, rfl, rfl⟩
  obtain ⟨lg, searchG, insideG, completeG⟩ : ∃ l,
      lookupMap nativeClass steps g r = firstOf lib.object r l ∧ (∀ i ∈ l, lib.Hashed i)
      ∧ ∀ i, lib.Hashed i → lib.object.gnuHash i = r.newHash → i ∈ l := by
    rw [lookupMap, bucketsG]
    split
    next zero =>
      have := wellFormed.gnu.empty zero
      refine ⟨[], rfl, by simp, fun i hashed _ => ?_⟩
      have := hashed.1
      have := hashed.2
      omega
    next buckets => exact searchMap_gnu wellFormed refers enough buckets loadedG
  obtain ⟨ls, searchS, insideS, completeS⟩ : ∃ l,
      lookupMap nativeClass steps s r = firstOf lib.object r l ∧ (∀ i ∈ l, lib.listed i)
      ∧ ∀ i, lib.listed i → (lib.object.symtab i).name = r.undefName → i ∈ l := by
    rw [lookupMap, bucketsS]
    split
    next zero =>
      exact ⟨[], rfl, by simp, fun i listed _ => absurd listed (wellFormed.sysv.empty zero i)⟩
    next buckets => exact searchMap_sysv wellFormed refers enough buckets loadedS
  refine ⟨g, s, loadedG, loadedS, objectG, objectS, ?_, ?_⟩
  · rw [searchG, searchS]
    refine firstOf_congr (fun i candidate => ?_) fun i memI j memJ =>
      single.single i (insideG i memI) j (insideG j memJ)
    have name := verdict_name refers candidate
    constructor
    · exact fun mem => completeS i (wellFormed.hashed i (insideG i mem)) name
    · intro mem
      have hashed : lib.Hashed i := by
        by_contra rest
        exact candidate (verdict_rest wellFormed refers single (insideS i mem) rest)
      exact completeG i hashed (by rw [Object.gnuHash, name, Reference.newHash])
  · rw [searchG]
    exact firstOf_ends lg

end Nglibc.SymbolLookup
