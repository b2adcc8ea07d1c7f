import Nglibc.Elf.UniqueSymbolsSearch

/-! What entering, growing and resetting keep of the table of unique symbols. -/

namespace Nglibc.UniqueSymbols

variable {ν σ μ : Type}

def used (entries : Nat → UniqueSym ν σ μ) (size : Nat) : Nat :=
  ((Finset.range size).filter fun i => (entries i).name.isSome).card

def Stored (entries : Nat → UniqueSym ν σ μ) (size : Nat) (e : UniqueSym ν σ μ) : Prop :=
  e.name ≠ none ∧ ∃ i < size, entries i = e

/-- Entries in use hold the hash of their name, free ones hold zero. -/
structure Hashed (hash : ν → Nat) (entries : Nat → UniqueSym ν σ μ) (size : Nat) : Prop where
  named : ∀ i < size, ∀ name, (entries i).name = some name → (entries i).hashval = hash name
  cleared : ∀ i < size, (entries i).name = none → (entries i).hashval = 0

variable {hash : ν → Nat} {entries : Nat → UniqueSym ν σ μ} {size : Nat}

def order (hash : ν → Nat) (valid : size ∈ primes) : ProbeOrder ν Nat :=
  .doubleHashOn size (prime_of_mem valid).pos (fun name => hash name % size)
    (fun name => 1 + hash name % (size - 2)) (fun name => step_coprime valid (hash name))

/-- Each name is in the table once, and no free entry lies before it on its path. -/
def Reached (hash : ν → Nat) (entries : Nat → UniqueSym ν σ μ) (size : Nat) : Prop :=
  ∀ valid : size ∈ primes, Probed (order hash valid) id fun i => (entries i).name

variable {name : ν}

theorem Reached.path (reached : Reached hash entries size) (valid : size ∈ primes) {i : Nat}
    (inside : i < size) (named : (entries i).name = some name)
    : ∃ n < size, path size (hash name) n = i
      ∧ ∀ j < n, (entries (UniqueSymbols.path size (hash name) j)).name ≠ none := by
  obtain ⟨n, visited, before⟩ := (reached valid).reached i (Finset.mem_range.mpr inside) name named
  by_cases early : n < size
  · exact ⟨n, early, visited, before⟩
  · obtain ⟨m, less, visited'⟩ := path_covers valid (hash name) inside
    exact ⟨m, less, visited', fun j lt => before j (by omega)⟩

theorem used_le (entries : Nat → UniqueSym ν σ μ) (size : Nat) : used entries size ≤ size := by
  have le := Finset.card_filter_le (Finset.range size) (fun i => (entries i).name.isSome)
  rwa [Finset.card_range] at le

theorem room_of_used (less : used entries size < size) : ∃ i < size, (entries i).name = none := by
  rw [← Finset.card_range size] at less
  obtain ⟨i, inside, notUsed⟩ := Finset.exists_mem_notMem_of_card_lt_card less
  refine ⟨i, Finset.mem_range.mp (by simpa using inside), ?_⟩
  by_contra stored
  exact notUsed (Finset.mem_filter.mpr ⟨by simpa using inside, Option.isSome_iff_ne_none.mpr stored⟩)

variable {k : Nat} {e : UniqueSym ν σ μ}

theorem stored_update (inside : k < size) (free : (entries k).name = none) (named : e.name ≠ none)
    (f : UniqueSym ν σ μ)
    : Stored (Function.update entries k e) size f ↔ Stored entries size f ∨ f = e := by
  constructor
  · rintro ⟨isNamed, i, insideI, rfl⟩
    by_cases same : i = k
    · rw [same, Function.update_self]
      exact .inr rfl
    · rw [Function.update_of_ne same] at isNamed ⊢
      exact .inl ⟨isNamed, i, insideI, rfl⟩
  · rintro (⟨isNamed, i, insideI, rfl⟩ | rfl)
    · have other : i ≠ k := by
        rintro rfl
        exact isNamed free
      exact ⟨isNamed, i, insideI, Function.update_of_ne other _ _⟩
    · exact ⟨named, k, inside, Function.update_self _ _ _⟩

theorem names_update (name : Option ν)
    : (fun i => (Function.update entries k { e with name } i).name)
      = Function.update (fun i => (entries i).name) k name := by
  funext i
  by_cases same : i = k
  · rw [same, Function.update_self, Function.update_self]
  · rw [Function.update_of_ne same, Function.update_of_ne same]

theorem used_update (valid : size ∈ primes) (inside : k < size) (free : (entries k).name = none)
    (named : e.name = some name)
    : used (Function.update entries k e) size = used entries size + 1 := by
  have added : (occupied (order (fun _ : ν => 0) valid)
        (Function.update (fun i => (entries i).name) k (some name))).card
      = (occupied (order (fun _ : ν => 0) valid) fun i => (entries i).name).card + 1 :=
    card_occupied_insert (Finset.mem_range.mpr inside) free
  rw [← names_update (e := e), ← named] at added
  exact added

theorem Hashed.update (hashed : Hashed hash entries size) {sym : Option σ} {map : Option μ}
    : Hashed hash (Function.update entries k ⟨hash name, some name, sym, map⟩) size where
  named := by
    intro i inside other named
    by_cases same : i = k
    · rw [same, Function.update_self] at named ⊢
      rw [Option.some.inj named]
    · rw [Function.update_of_ne same] at named ⊢
      exact hashed.named i inside other named
  cleared := by
    intro i inside free
    by_cases same : i = k
    · rw [same, Function.update_self] at free
      cases free
    · rw [Function.update_of_ne same] at free ⊢
      exact hashed.cleared i inside free

/-- While an entry is free, a symbol is entered at the first free entry of its path. -/
theorem enterUniqueSym_spec (hash : ν → Nat) (valid : size ∈ primes) (less : used entries size < size) (name : ν)
    (sym : Option σ) (map : Option μ)
    : ∃ n, enterUniqueSym entries size (hash name) name sym map
        = .ok (Function.update entries (path size (hash name) n) ⟨hash name, some name, sym, map⟩)
      ∧ (entries (path size (hash name) n)).name = none
      ∧ ∀ j < n, (entries (path size (hash name) j)).name ≠ none := by
  obtain ⟨n, -, found, free, passed⟩ := freeSlot_spec (hash name) valid (room_of_used less)
  refine ⟨n, ?_, free, passed⟩
  rw [enterUniqueSym, found]
  rfl

theorem Reached.update (reached : Reached hash entries size) {sym : Option σ} {map : Option μ} {n : Nat}
    (absent : ∀ i < size, (entries i).name ≠ some name)
    (free : (entries (UniqueSymbols.path size (hash name) n)).name = none)
    (passed : ∀ j < n, (entries (UniqueSymbols.path size (hash name) j)).name ≠ none)
    : Reached hash (Function.update entries (UniqueSymbols.path size (hash name) n)
        ⟨hash name, some name, sym, map⟩) size := by
  intro valid
  rw [names_update (e := ⟨hash name, some name, sym, map⟩)]
  apply (reached valid).insert (e := name) _ free
  intro j less
  obtain ⟨other, stored⟩ := Option.ne_none_iff_exists'.mp (passed j less)
  refine ⟨other, stored, ?_⟩
  rintro rfl
  exact absent _ (path_lt valid _ j) stored

/-- The first entries in the larger table, by induction over their number. -/
theorem reenter_spec {newsize : Nat} (valid : newsize ∈ primes) (hashed : Hashed hash entries size)
    (larger : size < newsize) (n : Nat) (le : n ≤ size)
    : ∃ newentries, reenter entries newsize n = .ok newentries ∧ Hashed hash newentries newsize
      ∧ (∀ e, Stored newentries newsize e ↔ Stored entries n e)
      ∧ used newentries newsize = used entries n
      ∧ ((∀ i < n, ∀ j < n, (entries i).name ≠ none → (entries i).name = (entries j).name → i = j) →
        Reached hash newentries newsize) := by
  induction n with
  | zero =>
    refine ⟨fun _ => .zero, rfl, ⟨fun _ _ _ => nofun, fun _ _ _ => rfl⟩, fun e => ?_, ?_,
      fun _ _ => Probed.empty⟩
    · constructor
      · rintro ⟨named, _, _, rfl⟩
        exact absurd rfl named
      · rintro ⟨_, i, less, _⟩
        exact absurd less (Nat.not_lt_zero i)
    · simp [used, UniqueSym.zero]
  | succ n ih =>
    obtain ⟨newentries, entered, newHashed, stored, count, probed⟩ := ih (by omega)
    have split : ∀ e, Stored entries (n + 1) e
        ↔ Stored entries n e ∨ e.name ≠ none ∧ entries n = e := by
      intro e
      constructor
      · rintro ⟨named, i, less, same⟩
        rcases Nat.lt_succ_iff_lt_or_eq.mp less with before | rfl
        · exact .inl ⟨named, i, before, same⟩
        · exact .inr ⟨named, same⟩
      · rintro (⟨named, i, less, same⟩ | ⟨named, same⟩)
        · exact ⟨named, i, Nat.lt_succ_of_lt less, same⟩
        · exact ⟨named, n, Nat.lt_succ_self n, same⟩
    have counted : used entries (n + 1)
        = used entries n + if (entries n).name.isSome then 1 else 0 := by
      rw [used, used, Finset.range_add_one, Finset.filter_insert]
      split
      next => rw [Finset.card_insert_of_notMem (by simp)]
      next => rfl
    rw [reenter, entered]
    cases here : (entries n).name with
    | none =>
      refine ⟨newentries, rfl, newHashed, fun e => ?_, ?_, fun unique => ?_⟩
      · rw [stored, split]
        refine (or_iff_left ?_).symm
        rintro ⟨named, rfl⟩
        exact named here
      · rw [count, counted, here]
        rfl
      · exact probed fun i lessI j lessJ =>
          unique i (Nat.lt_succ_of_lt lessI) j (Nat.lt_succ_of_lt lessJ)
    | some name =>
      have hashval := hashed.named n (by omega) name here
      have whole : entries n = ⟨hash name, some name, (entries n).sym, (entries n).map⟩ := by
        rw [← hashval, ← here]
      have less : used newentries newsize < newsize := by
        have := used_le entries n
        omega
      obtain ⟨m, placed, free, passed⟩ := enterUniqueSym_spec hash valid less name
        (entries n).sym (entries n).map
      have inside := path_lt valid (hash name) m
      refine ⟨_, by simp only [hashval]; exact placed, newHashed.update, fun e => ?_, ?_,
        fun unique => ?_⟩
      · rw [stored_update inside free (Option.some_ne_none name), stored, split, ← whole]
        refine or_congr_right ⟨?_, fun both => both.2.symm⟩
        rintro rfl
        exact ⟨by simp [here], rfl⟩
      · rw [used_update valid inside free rfl, count, counted, here]
        rfl
      · refine (probed ?_).update ?_ free passed
        · exact fun i lessI j lessJ =>
            unique i (Nat.lt_succ_of_lt lessI) j (Nat.lt_succ_of_lt lessJ)
        · intro i insideI same
          have old : Stored newentries newsize (newentries i) := ⟨by simp [same], i, insideI, rfl⟩
          obtain ⟨named, j, lessJ, origin⟩ := (stored _).mp old
          have earlier := unique j (Nat.lt_succ_of_lt lessJ) n (Nat.lt_succ_self n)
            (origin ▸ named) (by rw [origin, same, here])
          omega

section Reset

variable [DecidableEq ν] [DecidableEq μ] {imap : μ}

/-- What the forced closing of an object makes of the entries. -/
def resetEntries (entries : Nat → UniqueSym ν σ μ) (size : Nat) (imap : μ) (idx : Nat)
    : UniqueSym ν σ μ :=
  if idx < size ∧ (entries idx).OwnedBy imap then { entries idx with name := none, hashval := 0 }
  else entries idx

theorem resetEntries_name {i : Nat} (inside : i < size)
    : (resetEntries entries size imap i).name
      = if (entries i).OwnedBy imap then none else (entries i).name := by
  rw [resetEntries]
  by_cases owned : (entries i).OwnedBy imap
  · rw [if_pos ⟨inside, owned⟩, if_pos owned]
  · rw [if_neg (fun both => owned both.2), if_neg owned]

theorem resetEntries_of_name {i : Nat} (named : (resetEntries entries size imap i).name = some name)
    : resetEntries entries size imap i = entries i := by
  rw [resetEntries] at named ⊢
  split at named
  next => cases named
  next notOwned => rw [if_neg notOwned]

theorem Hashed.reset (hashed : Hashed hash entries size)
    : Hashed hash (resetEntries entries size imap) size where
  named := by
    intro i inside name named
    have same := resetEntries_of_name named
    rw [same] at named ⊢
    exact hashed.named i inside name named
  cleared := by
    intro i inside free
    rw [resetEntries_name inside] at free
    split at free
    next owned => rw [resetEntries, if_pos ⟨inside, owned⟩]
    next notOwned =>
      rw [resetEntries, if_neg (fun both => notOwned both.2)]
      exact hashed.cleared i inside free

theorem stored_reset (e : UniqueSym ν σ μ)
    : Stored (resetEntries entries size imap) size e ↔ Stored entries size e ∧ e.map ≠ some imap := by
  constructor
  · rintro ⟨named, i, inside, rfl⟩
    obtain ⟨name, isName⟩ := Option.ne_none_iff_exists'.mp named
    have same := resetEntries_of_name isName
    rw [resetEntries_name inside] at isName
    split at isName
    next => cases isName
    next notOwned =>
      rw [same]
      have used : (entries i).name ≠ none := by simp [isName]
      exact ⟨⟨used, i, inside, rfl⟩, fun owned => notOwned ⟨used, owned⟩⟩
  · rintro ⟨⟨named, i, inside, rfl⟩, other⟩
    have notOwned : ¬ (i < size ∧ (entries i).OwnedBy imap) := fun both => other both.2.2
    exact ⟨named, i, inside, if_neg notOwned⟩

/-- An object is closed without harm when no entry of another object lies behind one of its own. -/
theorem Reached.reset (reached : Reached hash entries size)
    (harmless : ∀ name, ∀ i < size, ∀ j < i,
      (entries (UniqueSymbols.path size (hash name) i)).name = some name →
      ¬ (entries (UniqueSymbols.path size (hash name) i)).OwnedBy imap →
      ¬ (entries (UniqueSymbols.path size (hash name) j)).OwnedBy imap)
    : Reached hash (resetEntries entries size imap) size := by
  intro valid
  have old : ∀ i < size, ∀ name, (resetEntries entries size imap i).name = some name →
      (entries i).name = some name ∧ ¬ (entries i).OwnedBy imap := by
    intro i inside name named
    rw [resetEntries_name inside] at named
    split at named
    next => cases named
    next notOwned => exact ⟨named, notOwned⟩
  constructor
  · intro i mem name named
    have inside := Finset.mem_range.mp mem
    obtain ⟨isNamed, notOwned⟩ := old i inside name named
    obtain ⟨n, less, rfl, before⟩ := reached.path valid inside isNamed
    refine ⟨n, rfl, fun j lt => ?_⟩
    have stays := harmless name n less j lt isNamed notOwned
    change (resetEntries entries size imap (UniqueSymbols.path size (hash name) j)).name ≠ none
    rw [resetEntries_name (path_lt valid _ j), if_neg stays]
    exact before j lt
  · intro i mem i' mem' name name' named named' same
    obtain ⟨isNamed, -⟩ := old i (Finset.mem_range.mp mem) name named
    obtain ⟨isNamed', -⟩ := old i' (Finset.mem_range.mp mem') name' named'
    exact (reached valid).unique i mem i' mem' name name' isNamed isNamed' same

theorem used_reset
    : used (resetEntries entries size imap) size
      = used entries size - ((Finset.range size).filter fun idx => (entries idx).OwnedBy imap).card := by
  have split := Finset.card_filter_add_card_filter_not
    (s := (Finset.range size).filter fun i => (entries i).name.isSome)
    (fun i => (entries i).OwnedBy imap)
  rw [Finset.filter_filter, Finset.filter_filter] at split
  have owned : ((Finset.range size).filter fun i =>
      (entries i).name.isSome = true ∧ (entries i).OwnedBy imap)
      = (Finset.range size).filter fun idx => (entries idx).OwnedBy imap := by
    apply Finset.filter_congr
    intro i _
    exact and_iff_right_of_imp fun owned => Option.isSome_iff_ne_none.mpr owned.1
  have rest : ((Finset.range size).filter fun i =>
      (entries i).name.isSome = true ∧ ¬ (entries i).OwnedBy imap)
      = (Finset.range size).filter fun i => (resetEntries entries size imap i).name.isSome := by
    apply Finset.filter_congr
    intro i mem
    rw [resetEntries_name (Finset.mem_range.mp mem)]
    split
    next isOwned => simp [isOwned]
    next notOwned => simp [notOwned]
  rw [owned, rest] at split
  rw [used, used]
  omega

end Reset

end Nglibc.UniqueSymbols
