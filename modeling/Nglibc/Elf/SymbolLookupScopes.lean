import Nglibc.Elf.SymbolLookupAgree

/-! When one symbol for each name and version is enough for lookups through both tables to agree, and
when it is not.
-/

namespace Nglibc.SymbolLookup

def Object.symbolVersion (object : Object) (i : Nat) : Option (Nat × Option Name) :=
  object.versyms.map fun verstab =>
    ((object.versions (verstab i &&& 0x7fff)).hash, (object.versions (verstab i &&& 0x7fff)).name)

def Library.OnePerVersion (lib : Library) : Prop := ∀ i, lib.listed i → ∀ j, lib.listed j →
    (lib.object.symtab i).name = (lib.object.symtab j).name →
    lib.object.symbolVersion i = lib.object.symbolVersion j → i = j

/-- Not both a symbol of the base version that is not hidden and a symbol of the version of a reference
that is not hidden have the name.
-/
def Reference.NoDefault (r : Reference) (lib : Library) : Prop :=
  ∀ version, r.version = some version → version.hidden = false →
    ∀ verstab, lib.object.versyms = some verstab → ∀ i, lib.Hashed i → ∀ j, lib.Hashed j →
        (lib.object.symtab i).name = r.undefName → (lib.object.symtab j).name = r.undefName →
        (lib.object.versions (verstab i &&& 0x7fff)).hash = 0 → verstab i &&& 0x8000 = 0 →
        ¬ ((lib.object.versions (verstab j &&& 0x7fff)).hash = version.hash
          ∧ (lib.object.versions (verstab j &&& 0x7fff)).name = version.name)

variable {nativeClass : Nat} {lib : Library} {r : Reference}

private theorem FoundVersion.same_of_not_differs {own version : FoundVersion} (named : version.name ≠ none)
    (same : own.differs version ≠ .ok true)
    : own.hash = version.hash ∧ (own.name = none ∨ own.name = version.name) := by
  rw [FoundVersion.differs] at same
  split at same
  next => exact absurd rfl same
  next equal =>
    refine ⟨not_not.mp equal, ?_⟩
    obtain ⟨name, isName⟩ := Option.ne_none_iff_exists'.mp named
    cases ownName : own.name with
    | none => exact .inl rfl
    | some other =>
      rw [ownName, isName] at same
      rw [isName]
      by_contra different
      rw [not_or] at different
      exact same (congrArg Except.ok (decide_eq_true fun equal => different.2 (congrArg some equal)))

/-- In an object with versions, what is not rejected has the version or is a visible default. -/
theorem verdict_version {version : FoundVersion} {verstab : Nat → Nat} (isVersion : r.version = some version)
    (table : lib.object.versyms = some verstab) {i : Nat} (candidate : verdict lib.object r i ≠ .ok false)
    : (lib.object.versions (verstab i &&& 0x7fff)).differs version ≠ .ok true
      ∨ version.hidden = false ∧ (lib.object.versions (verstab i &&& 0x7fff)).hash = 0
        ∧ verstab i &&& 0x8000 = 0 := by
  by_contra neither
  obtain ⟨differs, notDefault⟩ := not_or.mp neither
  rw [not_not] at differs
  have hides : version.hidden = true ∨ (lib.object.versions (verstab i &&& 0x7fff)).hash ≠ 0
      ∨ verstab i &&& 0x8000 ≠ 0 := by
    by_contra visible
    obtain ⟨notHidden, zero⟩ := not_or.mp visible
    obtain ⟨zero, shown⟩ := not_or.mp zero
    exact notDefault ⟨Bool.eq_false_iff.mpr notHidden, not_not.mp zero, not_not.mp shown⟩
  apply candidate
  simp only [verdict, checkMatch, isVersion, table, bind, Except.bind, differs, true_and, if_pos hides]
  repeat' split
  all_goals rfl

/-- One symbol for each name and version is enough when no default competes with a version. -/
theorem single_of_versions (wellFormed : lib.WellFormed nativeClass) (refers : r.Refers lib)
    (one : lib.OnePerVersion) (noDefault : r.NoDefault lib)
    (named : ∀ ndx, (lib.object.versions ndx).name = none ↔ (lib.object.versions ndx).hash = 0)
    (hasName : ∀ version, r.version = some version → version.name ≠ none)
    (noTls : ∀ i, lib.listed i → ¬ lib.Hashed i → (lib.object.symtab i).name = r.undefName →
      (lib.object.symtab i).type ≠ sttTls ∨ r.plt = true)
    : r.Single lib := by
  refine ⟨fun i hashedI j hashedJ candidateI candidateJ => ?_, noTls⟩
  have nameI := verdict_name refers candidateI
  have nameJ := verdict_name refers candidateJ
  refine one i (wellFormed.hashed i hashedI) j (wellFormed.hashed j hashedJ) (nameI.trans nameJ.symm) ?_
  rw [Object.symbolVersion, Object.symbolVersion]
  cases table : lib.object.versyms with
  | none => rfl
  | some verstab =>
    obtain ⟨version, isVersion⟩ :=
      Option.ne_none_iff_exists'.mp (refers.plain.resolve_right (by simp [table]))
    have vName := hasName version isVersion
    -- A base version is one without name and with hash zero.
    have base : ∀ k, (lib.object.versions k).name = none ∨ (lib.object.versions k).hash = 0 →
        (lib.object.versions k).hash = 0 ∧ (lib.object.versions k).name = none :=
      fun k either => either.elim (fun none' => ⟨(named k).mp none', none'⟩)
        fun zero => ⟨zero, (named k).mpr zero⟩
    have conflict := noDefault version isVersion
    rw [Option.map_some, Option.map_some]
    congr 1
    rcases verdict_version isVersion table candidateI with exactI | ⟨visible, zeroI, shownI⟩
      <;> rcases verdict_version isVersion table candidateJ with exactJ | ⟨visibleJ, zeroJ, shownJ⟩
    · obtain ⟨hashI, eitherI⟩ := FoundVersion.same_of_not_differs vName exactI
      obtain ⟨hashJ, eitherJ⟩ := FoundVersion.same_of_not_differs vName exactJ
      rw [hashI, hashJ]
      rcases eitherI with noneI | sameI <;> rcases eitherJ with noneJ | sameJ
      · rw [noneI, noneJ]
      · have zero := (named _).mp noneI
        rw [hashI, ← hashJ] at zero
        exact absurd (sameJ.symm.trans ((named _).mpr zero)) vName
      · have zero := (named _).mp noneJ
        rw [hashJ, ← hashI] at zero
        exact absurd (sameI.symm.trans ((named _).mpr zero)) vName
      · rw [sameI, sameJ]
    · obtain ⟨hashI, eitherI⟩ := FoundVersion.same_of_not_differs vName exactI
      rcases eitherI with noneI | sameI
      · rw [(base _ (.inl noneI)).1, noneI, (base _ (.inr zeroJ)).1, (base _ (.inr zeroJ)).2]
      · exact absurd ⟨hashI, sameI⟩
          (conflict visibleJ verstab table j hashedJ i hashedI nameJ nameI zeroJ shownJ)
    · obtain ⟨hashJ, eitherJ⟩ := FoundVersion.same_of_not_differs vName exactJ
      rcases eitherJ with noneJ | sameJ
      · rw [(base _ (.inl noneJ)).1, noneJ, (base _ (.inr zeroI)).1, (base _ (.inr zeroI)).2]
      · exact absurd ⟨hashJ, sameJ⟩
          (conflict visible verstab table i hashedI j hashedJ nameI nameJ zeroI shownI)
    · rw [(base _ (.inr zeroI)).1, (base _ (.inr zeroI)).2, (base _ (.inr zeroJ)).1,
        (base _ (.inr zeroJ)).2]

end Nglibc.SymbolLookup

/-! Lookups in scopes of objects with both hash tables. -/

namespace Nglibc.SymbolLookup

variable {nativeClass : Nat} {r : Reference}

/-- The first object of a scope, whose table may be empty. -/
theorem doLookupX_cons (steps : Nat) (dynamicWeak : Bool) (map : LinkMap) (rest : List LinkMap)
    (result : Option (Nat × Nat))
    : doLookupX nativeClass steps r r.newHash dynamicWeak (map :: rest) result
      = if r.skip = some map.object.id ∨ (r.copy ∧ map.object.executable) ∨ map.object.removed then
          doLookupX nativeClass steps r r.newHash dynamicWeak rest result
        else
          (lookupMap nativeClass steps map r).bind fun found =>
            match found with
            | none => doLookupX nativeClass steps r r.newHash dynamicWeak rest result
            | some symidx =>
              match foundIt map.object symidx dynamicWeak result with
              | .inl outcome => .ok outcome
              | .inr result => doLookupX nativeClass steps r r.newHash dynamicWeak rest result := by
  rw [doLookupX, lookupMap]
  by_cases empty : map.nbuckets = 0
  · rw [if_pos (.inr (.inr (.inr empty)))]
    split <;> rfl
  · rw [if_neg empty]
    by_cases skipped : r.skip = some map.object.id ∨ (r.copy = true ∧ map.object.executable = true)
        ∨ map.object.removed = true
    · rw [if_pos skipped, if_pos]
      rcases skipped with skip | copy | removed
      · exact .inl skip
      · exact .inr (.inl copy)
      · exact .inr (.inr (.inl removed))
    · rw [if_neg skipped, if_neg]
      · rfl
      · rintro (skip | copy | removed | zero)
        · exact skipped (.inl skip)
        · exact skipped (.inr (.inl copy))
        · exact skipped (.inr (.inr removed))
        · exact empty zero

/-- A lookup in a scope of objects with both tables gives the same symbol through either kind of table,
when at most one hashed symbol of each object matches. By induction over the scope.
-/
theorem doLookupX_agree (nativeClass steps : Nat) (r : Reference) (dynamicWeak : Bool)
    (scope : List Library)
    (wellFormed : ∀ lib ∈ scope, lib.WellFormed nativeClass) (refers : ∀ lib ∈ scope, r.Refers lib)
    (single : ∀ lib ∈ scope, r.Single lib) (enough : ∀ lib ∈ scope, lib.count < steps)
    : ∃ gs ss, scope.mapM (Library.load nativeClass true) = .ok gs
      ∧ scope.mapM (Library.load nativeClass false) = .ok ss
      ∧ ∀ result, doLookupX nativeClass steps r r.newHash dynamicWeak gs result
          = doLookupX nativeClass steps r r.newHash dynamicWeak ss result
        ∧ doLookupX nativeClass steps r r.newHash dynamicWeak gs result ≠ .error .runsOn := by
  induction scope with
  | nil => exact ⟨[], [], rfl, rfl, fun result => ⟨rfl, by simp [doLookupX]⟩⟩
  | cons lib rest ih =>
    obtain ⟨gs, ss, loadedGs, loadedSs, agree⟩ := ih
      (fun l mem => wellFormed l (.tail _ mem)) (fun l mem => refers l (.tail _ mem))
      (fun l mem => single l (.tail _ mem)) (fun l mem => enough l (.tail _ mem))
    obtain ⟨g, s, loadedG, loadedS, objectG, objectS, same, ends⟩ := lookupMap_agree
      (wellFormed lib (.head _)) (refers lib (.head _)) (single lib (.head _)) (enough lib (.head _))
    refine ⟨g :: gs, s :: ss, ?_, ?_, fun result => ?_⟩
    · rw [List.mapM_cons, loadedG, loadedGs]
      rfl
    · rw [List.mapM_cons, loadedS, loadedSs]
      rfl
    · rw [doLookupX_cons, doLookupX_cons, objectG, objectS, ← same]
      constructor
      · split
        next => exact (agree result).1
        next =>
          cases lookupMap nativeClass steps g r with
          | error failure => rfl
          | ok found =>
            cases found with
            | none => exact (agree result).1
            | some symidx =>
              simp only [Except.bind]
              cases foundIt lib.object symidx dynamicWeak result with
              | inl outcome => rfl
              | inr result => exact (agree result).1
      · split
        next => exact (agree result).2
        next =>
          cases searched : lookupMap nativeClass steps g r with
          | error failure => simpa [bind, Except.bind, searched] using ends
          | ok found =>
            cases found with
            | none => exact (agree result).2
            | some symidx =>
              simp only [Except.bind]
              cases foundIt lib.object symidx dynamicWeak result with
              | inl outcome => simp
              | inr result => exact (agree result).2

section Examples

/-- A 64-bit object with the symbols `1` to `count - 1`, all in one bucket of each table, and those from
`symbias` on in the GNU table.
-/
def smallLibrary (symtab : Nat → Sym) (versyms : Option (Nat → Nat)) (versions : Nat → FoundVersion)
    (count symbias : Nat) (gnu sysv : List Nat)
    : Library where
  object := {
    id := 0
    executable := false
    removed := false
    symtab
    versyms
    versions
    nameMatch := fun _ => false }
  count
  gnu := ⟨fun i => ([1, symbias, 1, 5, 0, 0] ++ gnu).getD i 0, fun _ => 2 ^ 64 - 1⟩
  sysv := fun i => sysv.getD i 0
  listed := fun i => 0 < i ∧ i < count

/-- Two symbols `foo`, the first with the base version and the second with the version `V1`. The list of
the second table starts with the second symbol.
-/
def twoVersions : Library :=
  smallLibrary (fun _ => ⟨[102, 111, 111], stbGlobal, 2, 0, 1, 1⟩) (some id)
    (fun ndx => if ndx = 2 then ⟨some [86, 49], 1425, false, none⟩ else ⟨none, 0, false, none⟩) 3 1
    [1, 193491848, 193491849] [1, 3, 2, 0, 0, 1]

/-- A reference to `foo` in the version `V1`. -/
def referenceV1 (hidden : Bool) : Reference where
  undefName := [102, 111, 111]
  ref := none
  version := some ⟨some [86, 49], 1425, hidden, none⟩
  returnNewest := false
  plt := false
  copy := false
  skip := none

theorem twoVersions_hashed {i : Nat} (hashed : 1 ≤ i ∧ i < 3) : i = 1 ∨ i = 2 := by omega

theorem twoVersions_wellFormed : twoVersions.WellFormed 64 where
  gnu := {
    power := by decide
    first := by decide
    empty := by decide
    bloom := by
      intro i low high
      rcases twoVersions_hashed ⟨low, high⟩ with rfl | rfl <;> decide
    bucket := by
      intro i low high
      have oneBucket : ∀ h, h % twoVersions.gnu.nbuckets = 0 := Nat.mod_one
      simp only [oneBucket]
      exact ⟨Nat.le_refl 1, low, fun _ _ _ => trivial⟩
    unused := by
      intro b less none'
      obtain rfl : b = 0 := Nat.lt_one_iff.mp less
      exact absurd (by decide) (none' 1 (by decide) (by decide))
    chain := by
      intro i low high
      rcases twoVersions_hashed ⟨low, high⟩ with rfl | rfl <;> decide }
  sysv := {
    empty := fun zero => absurd zero (by decide)
    bucket := by
      intro b less
      obtain rfl : b = 0 := Nat.lt_one_iff.mp less
      refine ⟨[2, 1], .link (by decide) (.link (by decide) .done), by decide, ?_, ?_⟩
      · intro i mem
        rcases List.mem_pair.mp mem with rfl | rfl <;> exact ⟨by decide, by decide⟩
      · rintro i ⟨low, high⟩ -
        rcases twoVersions_hashed ⟨low, high⟩ with rfl | rfl <;> decide }
  hashed := fun i hashed => hashed
  undefined := fun i listed rest => absurd listed rest

theorem referenceV1_refers (hidden : Bool) : (referenceV1 hidden).Refers twoVersions where
  plain := .inl nofun
  named := nofun

/-- The first symbol does not match a hidden reference. -/
theorem doLookupX_agree_hidden
    : ∃ gs ss, [twoVersions].mapM (Library.load 64 true) = .ok gs
      ∧ [twoVersions].mapM (Library.load 64 false) = .ok ss
      ∧ ∀ result, doLookupX 64 4 (referenceV1 true) (referenceV1 true).newHash false gs result
          = doLookupX 64 4 (referenceV1 true) (referenceV1 true).newHash false ss result
        ∧ doLookupX 64 4 (referenceV1 true) (referenceV1 true).newHash false gs result
          ≠ .error .runsOn := by
  have single : (referenceV1 true).Single twoVersions := by
    refine ⟨fun i hashedI j hashedJ candidateI candidateJ => ?_, fun i listed rest => absurd listed rest⟩
    have rejected : verdict twoVersions.object (referenceV1 true) 1 = .ok false := rfl
    rcases twoVersions_hashed hashedI with rfl | rfl
    · exact absurd rejected candidateI
    · rcases twoVersions_hashed hashedJ with rfl | rfl
      · exact absurd rejected candidateJ
      · rfl
  refine doLookupX_agree 64 4 (referenceV1 true) false [twoVersions] ?_ ?_ ?_ ?_
  · exact List.forall_mem_singleton.mpr twoVersions_wellFormed
  · exact List.forall_mem_singleton.mpr (referenceV1_refers true)
  · exact List.forall_mem_singleton.mpr single
  · exact List.forall_mem_singleton.mpr (by decide)

/-- An undefined thread-local symbol `foo`, which the GNU table leaves out. -/
def undefinedTls : Library :=
  smallLibrary (fun _ => ⟨[102, 111, 111], stbGlobal, sttTls, 0, shnUndef, 0⟩) none
    (fun _ => ⟨none, 0, false, none⟩) 2 2 [0] [1, 2, 1, 0, 0]

/-- A reference to `foo` without version, as from `dlsym`. -/
def referenceFoo : Reference where
  undefName := [102, 111, 111]
  ref := none
  version := none
  returnNewest := true
  plt := false
  copy := false
  skip := none

private theorem undefinedTls_wellFormed : undefinedTls.WellFormed 64 where
  gnu := {
    power := by decide
    first := by decide
    empty := by decide
    bloom := fun i low high => absurd (Nat.lt_of_le_of_lt low high) (Nat.lt_irrefl _)
    bucket := fun i low high => absurd (Nat.lt_of_le_of_lt low high) (Nat.lt_irrefl _)
    unused := by
      intro b less _
      obtain rfl : b = 0 := Nat.lt_one_iff.mp less
      rfl
    chain := fun i low high => absurd (Nat.lt_of_le_of_lt low high) (Nat.lt_irrefl _) }
  sysv := {
    empty := fun zero => absurd zero (by decide)
    bucket := by
      intro b less
      obtain rfl : b = 0 := Nat.lt_one_iff.mp less
      refine ⟨[1], .link (by decide) .done, by decide, ?_, ?_⟩
      · exact List.forall_mem_singleton.mpr ⟨by decide, by decide⟩
      · rintro i ⟨low, high⟩ -
        obtain rfl : i = 1 := Nat.le_antisymm (Nat.le_of_lt_succ high) low
        exact List.mem_singleton_self 1 }
  hashed := fun i hashed => absurd (Nat.lt_of_le_of_lt hashed.1 hashed.2) (Nat.lt_irrefl _)
  undefined := fun i _ _ => ⟨rfl, rfl⟩

def Library.lookup (nativeClass steps : Nat) (withGnu : Bool) (r : Reference) (lib : Library)
    : Except Failure Outcome :=
  (lib.load nativeClass withGnu).bind fun map =>
    doLookupX nativeClass steps r r.newHash false [map] none

/-- With one symbol for each name and version, the tables lead to one symbol when no default competes. -/
theorem lookup_versions {lib : Library} (wellFormed : lib.WellFormed nativeClass) (refers : r.Refers lib)
    (one : lib.OnePerVersion) (noDefault : r.NoDefault lib)
    (named : ∀ ndx, (lib.object.versions ndx).name = none ↔ (lib.object.versions ndx).hash = 0)
    (hasName : ∀ version, r.version = some version → version.name ≠ none)
    (noTls : ∀ i, lib.listed i → ¬ lib.Hashed i → (lib.object.symtab i).name = r.undefName →
      (lib.object.symtab i).type ≠ sttTls ∨ r.plt = true)
    {steps : Nat} (enough : lib.count < steps)
    : lib.lookup nativeClass steps true r = lib.lookup nativeClass steps false r
      ∧ lib.lookup nativeClass steps true r ≠ .error .runsOn := by
  obtain ⟨g, s, loadedG, loadedS, objectG, objectS, same, ends⟩ := lookupMap_agree wellFormed refers
    (single_of_versions wellFormed refers one noDefault named hasName noTls) enough
  rw [Library.lookup, Library.lookup, loadedG, loadedS]
  simp only [Except.bind, doLookupX_cons, objectG, objectS, same, true_and]
  rw [same] at ends
  split
  · simp [doLookupX]
  · cases searched : lookupMap nativeClass steps s r with
    | error failure => simpa [searched] using ends
    | ok found =>
      cases found with
      | none => simp [doLookupX]
      | some symidx =>
        simp only
        split <;> simp [doLookupX]

theorem lookup_versions_hidden
    : twoVersions.lookup 64 4 true (referenceV1 true) = twoVersions.lookup 64 4 false (referenceV1 true)
      ∧ twoVersions.lookup 64 4 true (referenceV1 true) ≠ .error .runsOn := by
  refine lookup_versions twoVersions_wellFormed (referenceV1_refers true) ?_ ?_ (fun ndx => ?_) ?_
    (fun i listed rest => absurd listed rest) (by decide)
  · rintro i listedI j listedJ - same
    rcases twoVersions_hashed listedI with rfl | rfl <;> rcases twoVersions_hashed listedJ with rfl | rfl
      <;> first | rfl | exact absurd same (by decide)
  · rintro version ⟨⟩ ⟨⟩
  · by_cases second : ndx = 2 <;> simp [twoVersions, smallLibrary, second]
  · rintro version ⟨⟩
    exact Option.some_ne_none _

/-- With one symbol for each name and version the tables lead to different symbols when a reference
matches the base version as well as its own. Through one table only an undefined thread-local symbol
is found.
-/
theorem lookups_differ
    : (∃ (lib : Library) (r : Reference), lib.WellFormed 64 ∧ r.Refers lib
        ∧ lib.OnePerVersion ∧ (∀ i, lib.listed i → lib.Hashed i)
        ∧ lib.lookup 64 4 true r = .ok (.found 0 1) ∧ lib.lookup 64 4 false r = .ok (.found 0 2))
      ∧ ∃ (lib : Library) (r : Reference), lib.WellFormed 64 ∧ r.Refers lib ∧ lib.OnePerVersion
        ∧ lib.object.versyms = none
        ∧ lib.lookup 64 4 true r = .ok (.notFound none)
        ∧ lib.lookup 64 4 false r = .ok (.found 0 1) := by
  constructor
  · refine ⟨twoVersions, referenceV1 false, twoVersions_wellFormed, referenceV1_refers false, ?_,
      fun i listed => listed, by decide, by decide⟩
    rintro i listedI j listedJ - same
    rcases twoVersions_hashed listedI with rfl | rfl <;> rcases twoVersions_hashed listedJ with rfl | rfl
    · rfl
    · exact absurd same (by decide)
    · exact absurd same (by decide)
    · rfl
  · refine ⟨undefinedTls, referenceFoo, undefinedTls_wellFormed, ⟨.inr rfl, nofun⟩, ?_, rfl, by decide,
      by decide⟩
    rintro i ⟨lowI, highI⟩ j ⟨lowJ, highJ⟩ - -
    exact (Nat.le_antisymm (Nat.le_of_lt_succ highI) lowI).trans
      (Nat.le_antisymm (Nat.le_of_lt_succ highJ) lowJ).symm

end Examples

end Nglibc.SymbolLookup
