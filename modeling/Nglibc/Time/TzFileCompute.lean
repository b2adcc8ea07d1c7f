import Nglibc.Time.TzFile
import Nglibc.Time.TzsetParse

/-! `__tzfile_default` and `__tzfile_compute` of `time/tzfile.c`. Every access to a table is checked.
`rule_dstoff` is a static variable, which `__tzfile_read` sets only for a file without transitions.
-/

namespace Nglibc.Time

/-- The offsets of standard time and of daylight saving time. -/
structure ZoneOffsets where
  std : Int
  dst : Int
deriving DecidableEq

/-- What is added to a transition; `isdst` is the state behind the transition before. -/
def correction (user rule : ZoneOffsets) (isdst : Bool) (type : TtInfo) : Int :=
  if type.isgmt then 0
  else if isdst ∧ ¬ type.isstd then user.dst - rule.dst
  else user.std - rule.std

/-- The loop over the transitions, with their types. -/
def moveTransitions (user rule : ZoneOffsets)
    : Bool → List (Int × TtInfo) → Option (List Int)
  | _, [] => some []
  | isdst, (t, type) :: rest => do
    let t ← int64 (t + correction user rule isdst type)
    let rest ← moveTransitions user rule type.isdst rest
    return t :: rest

/-- The transitions with their types. -/
def TzFile.used (file : TzFile) (noType : TtInfo) : List (Int × TtInfo) :=
  file.transitions.zip (file.typeIdxs.map fun idx => file.types.getD idx noType)

/-- `rule_stdoff` and `rule_dstoff` behind `__tzfile_read`. -/
def TzFile.ruleOffsets (file : TzFile) (ruleDstoff : Int) : ZoneOffsets :=
  ⟨file.ruleStdoff, if file.transitions.isEmpty then file.ruleStdoff else ruleDstoff⟩

/-- `__tzfile_default` for a rules file, with the address of the space for the names. Inside, `none`
stands for a file that is not used.
-/
def tzfileDefault (env : Surroundings) (bytes : List UInt8) (ruleDstoff : Int)
    (std dst : List UInt8) (user : ZoneOffsets) (cp : UInt64)
    : Option (Option TzFile) :=
  let names := std ++ 0 :: dst ++ [0]
  match tzfileRead env bytes (.ofNat names.length) with
  | none => some none
  | some file =>
    if file.types.length < 2 then some none
    else do
      let used := file.used env.noType
      let moved ← moveTransitions user (file.ruleOffsets ruleDstoff) false used
      return some { file with
        transitions := moved
        typeIdxs := used.map fun (_, type) => type.isdst.toNat
        types := [⟨user.std, false, 0, (file.types.getD 0 env.noType).isstd,
            (file.types.getD 0 env.noType).isgmt⟩,
          ⟨user.dst, true, std.length + 1, (file.types.getD 1 env.noType).isstd,
            (file.types.getD 1 env.noType).isgmt⟩]
        zoneNames := names
        ruleStdoff := user.std
        tzname := (std, dst)
        zoneNamesAt := cp }

/-- What `__tzfile_default` meets: a rules file that cannot be opened, the file in use, which is not
read again, or another one, with `rule_dstoff` and the address of the space for the names.
-/
inductive RulesFile where
  | missing
  | inUse
  | opened (env : Surroundings) (bytes : List UInt8) (ruleDstoff : Int) (cp : UInt64)

/-- What must not happen: an access out of bounds, to freed memory or through a pointer that is not set,
an overflow, an assertion that fails, or a loop without end.
-/
inductive Fault where
  | bounds
  | freed
  | unset
  | overflow
  | assertion
  | endless
deriving DecidableEq

/-- `__tzfile_default`, called for the string of tables with `types` types: the new tables, or none if
the old ones stay. A rules file that cannot be used frees them, and with them the string, which is
read again.
-/
def RulesFile.tables (rulesFile : RulesFile) (types : Nat) (rules : TzRules)
    : Except Fault (Option TzFile) :=
  match rulesFile with
  | .missing => .error .freed
  | .inUse => if types < 2 then .ok none else .error .unset
  | .opened env bytes ruleDstoff cp =>
    match tzfileDefault env bytes ruleDstoff rules.std.name rules.dst.name
      ⟨rules.std.offset, rules.dst.offset⟩ cp with
    | none => .error .overflow
    | some none => .error .freed
    | some (some tables) => .ok (some tables)

def index {α : Type} (xs : List α) (i : Nat) : Except Fault α :=
  match xs[i]? with
  | some x => .ok x
  | none => .error .bounds

def indexBefore {α : Type} (xs : List α) (i : Nat) : Except Fault α :=
  if i = 0 then .error .bounds else index xs (i - 1)

/-- The string at an index of `zone_names`. -/
def tzstring (zoneNames : List UInt8) (idx : Nat) : Except Fault (List UInt8) :=
  if 0 ∈ zoneNames.drop idx then .ok ((zoneNames.drop idx).takeWhile (· ≠ 0))
  else .error .bounds

def fillName (name : Option (List UInt8)) (find : Except Fault (Option (List UInt8)))
    : Except Fault (Option (List UInt8)) :=
  if name.isNone then find else .ok name

/-- What `__tzfile_compute` sets. -/
structure Computed where
  tzname : Option (List UInt8) × Option (List UInt8)
  daylight : Bool
  timezone : Int
  leapCorrect : Int
  leapHit : Int
  tm : Tm
deriving DecidableEq

namespace TzFile

variable (file : TzFile) (timer : Int)

def nameOf (type : TtInfo) : Except Fault (List UInt8) := tzstring file.zoneNames type.idx

/-- The loop that skips types of daylight saving time, from the index `i` on. -/
def skipDst : Nat → Nat → Option (List UInt8) → Except Fault (Nat × Option (List UInt8))
  | 0, _, _ => .error .endless
  | fuel + 1, i, dst =>
    if i < file.types.length then do
      let type ← index file.types i
      if type.isdst then
        let dst ← fillName dst (some <$> file.nameOf type)
        skipDst fuel (i + 1) dst
      else return (i, dst)
    else .ok (i, dst)

/-- The loop that looks for a type of daylight saving time, from the index `j` on. -/
def seekDst : Nat → Nat → Except Fault (Option (List UInt8))
  | 0, _ => .error .endless
  | fuel + 1, j =>
    if j < file.types.length then do
      let type ← index file.types j
      if type.isdst then some <$> file.nameOf type else seekDst fuel (j + 1)
    else .ok none

def computeBefore : Except Fault (Nat × Option (List UInt8) × Option (List UInt8)) := do
  let (i, dst) ← file.skipDst (file.types.length + 1) 0 none
  let i := if i = file.types.length then 0 else i
  let type ← index file.types i
  let std ← file.nameOf type
  let dst ← fillName dst (file.seekDst (file.types.length + 1) i)
  return (i, some std, dst)

def orTest (first : Bool) (i : Nat) (test : Int → Bool) : Except Fault Bool :=
  if first then .ok true else test <$> index file.transitions i

def searchDown : Nat → Nat → Except Fault Nat
  | 0, _ => .error .endless
  | fuel + 1, i => do
    let before ← indexBefore file.transitions i
    if timer < before then searchDown fuel (i - 1) else return i

def searchUp : Nat → Nat → Except Fault Nat
  | 0, _ => .error .endless
  | fuel + 1, i => do
    let here ← index file.transitions i
    if timer ≥ here then searchUp fuel (i + 1) else return i

def searchBetween : Nat → Nat → Nat → Except Fault Nat
  | 0, _, _ => .error .endless
  | fuel + 1, lo, hi =>
    if lo + 1 < hi then do
      let i := (lo + hi) / 2
      let here ← index file.transitions i
      if timer < here then searchBetween fuel lo i else searchBetween fuel i hi
    else .ok hi

/-- The first transition after the time, which lies between the first and the last one. The search
starts at a guess.
-/
def search (guess : Nat) : Except Fault Nat :=
  let n := file.transitions.length
  let fuel := n + 1
  if guess < n then do
    let i := n - 1 - guess
    let here ← index file.transitions i
    if timer < here then
      let near ← file.orTest (i < 10) (i - 10) (timer ≥ ·)
      if near then file.searchDown timer fuel i
      else file.searchBetween timer fuel 0 (i - 10)
    else
      let near ← file.orTest (i + 10 ≥ n) (i + 10) (timer < ·)
      if near then file.searchUp timer fuel i
      else file.searchBetween timer fuel (i + 10) (n - 1)
  else file.searchBetween timer fuel 0 (n - 1)

def guess (last : Int) : Nat := ((wrap 64 (last - timer)).tdiv 15778476 % 2 ^ 64).toNat

def findOther : Nat → Nat → Option (List UInt8) → Option (List UInt8)
    → Except Fault (Option (List UInt8) × Option (List UInt8))
  | 0, _, _, _ => .error .endless
  | fuel + 1, j, std, dst =>
    if j < file.transitions.length then do
      let type ← index file.types (← index file.typeIdxs j)
      if type.isdst then
        if dst.isNone then
          let dst ← file.nameOf type
          if std.isSome then return (std, some dst)
          else findOther fuel (j + 1) std (some dst)
        else findOther fuel (j + 1) std dst
      else
        if std.isNone then
          let std ← file.nameOf type
          if dst.isSome then return (some std, dst)
          else findOther fuel (j + 1) (some std) dst
        else findOther fuel (j + 1) std dst
    else .ok (std, dst)

/-- The type and the names from the transition before the index `i` on, for the names that are set
already.
-/
def computeFound (i : Nat) (std dst : Option (List UInt8))
    : Except Fault (Nat × Option (List UInt8) × Option (List UInt8)) := do
  let found ← indexBefore file.typeIdxs i
  let type ← index file.types found
  let name ← file.nameOf type
  let (std, dst) ← file.findOther (file.transitions.length + 1) i
    (if type.isdst then std else some name) (if type.isdst then some name else dst)
  let std := if std.isNone then dst else std
  return (found, std, dst)

/-- The loop to the last leap second before the time, from the first `i` ones. -/
def lastLeap : Nat → Except Fault (Option Nat)
  | 0 => .ok none
  | i + 1 => do
    let leap ← index file.leaps i
    if timer < leap.transition then lastLeap i else return some i

/-- The loop over leap seconds that follow each other. -/
def leapRun : Nat → Int → Except Fault Int
  | 0, hit => .ok hit
  | i + 1, hit => do
    let leap ← index file.leaps (i + 1)
    let before ← index file.leaps i
    if leap.transition = before.transition + 1 ∧ leap.change = before.change + 1 then
      leapRun i (hit + 1)
    else return hit

def changeBefore (i : Nat) : Except Fault Int :=
  if i = 0 then .ok 0 else Leap.change <$> indexBefore file.leaps i

/-- `leap_correct` and `leap_hit`. -/
def computeLeap : Except Fault (Int × Int) := do
  match ← file.lastLeap timer file.leaps.length with
  | none => return (0, 0)
  | some i =>
    let leap ← index file.leaps i
    if timer = leap.transition then
      let before ← file.changeBefore i
      if leap.change > before then
        let hit ← file.leapRun i 1
        return (leap.change, hit)
      else return (leap.change, 0)
    else return (leap.change, 0)

def useType (i : Nat) (std dst : Option (List UInt8)) (tp : Tm)
    : Except Fault ((Option (List UInt8) × Option (List UInt8)) × Tm) := do
  let std ← fillName std
    (if file.types.length = 1 then some <$> tzstring file.zoneNames 0 else .error .assertion)
  let dst := if dst.isNone then std else dst
  let info ← index file.types i
  let name ← file.nameOf info
  let zone := if info.isdst then dst else std
  if zone ≠ some name then .error .assertion
  else
    return ((std, dst),
      { tp with isdst := if info.isdst then 1 else 0, zone := name, gmtoff := info.offset })

/-- The names for rules from a string, for tables that `__tzfile_default` has changed. -/
def specNames (rules : TzRules)
    : Except Fault (Option (List UInt8) × Option (List UInt8)) := do
  if file.zoneNamesAt = file.leapsAt + 16 * UInt64.ofNat file.leaps.length then
    if file.types.length ≠ 2 then .error .assertion
    else
      let std ← tzstring file.zoneNames 0
      let dst ← tzstring file.zoneNames (std.length + 1)
      return (some std, some dst)
  else return (some rules.std.name, some rules.dst.name)

/-- The names, `__daylight` and `__timezone`, and the form, for the type that is found. -/
def fromType (tp : Tm) (found : Except Fault (Nat × Option (List UInt8) × Option (List UInt8)))
    : Except Fault ((Option (List UInt8) × Option (List UInt8)) × Bool × Int × Tm) := do
  let (i, std, dst) ← found
  let (names, tm) ← file.useType i std dst tp
  return (names, file.daylightSaved, -file.ruleStdoff, tm)

/-- `__tzset_parse_tz` for the string of the tables: the tables behind it, the rules and `__daylight`. -/
def parseSpec (rulesFile : RulesFile) (tzspec : List UInt8) : Except Fault (TzFile × TzRules × Bool) := do
  let replaced ← match tzsetNoRule tzspec with
    | none => .ok none
    | some rules => (·.map (·, rules)) <$> rulesFile.tables file.types.length rules
  match replaced with
  | some (tables, rules) => return (tables, rules, tables.daylightSaved)
  | none =>
    let rules := tzsetParseTz tzspec
    return (file, rules, rules.std.offset ≠ rules.dst.offset)

/-- What follows the parsing of the string. Rules that cannot be used leave the last type. -/
def computeSpec (around : Int → UInt16) (tp : Tm) (rules : TzRules) (daylight : Bool)
    : Except Fault ((Option (List UInt8) × Option (List UInt8)) × Bool × Int × Tm) :=
  match (offtime timer 0 tp).join with
  | none => file.fromType tp (file.computeFound file.transitions.length (some rules.std.name)
      (some rules.dst.name))
  | some tm => do
    let tm := ((tzCompute around rules timer tm true).map Prod.snd).getD tm
    let names ← file.specNames rules
    return (names, daylight, -rules.std.offset, tm)

/-- The branches for local time, with the tables that are in use behind them. -/
def computeLocal (around : Int → UInt16) (rulesFile : RulesFile) (tp : Tm)
    : Except Fault (TzFile × (Option (List UInt8) × Option (List UInt8)) × Bool × Int × Tm) := do
  let n := file.transitions.length
  let early ← file.orTest (n = 0) 0 (timer < ·)
  if early then return (file, ← file.fromType tp file.computeBefore)
  else
    let last ← indexBefore file.transitions n
    if timer ≥ last then
      match file.tzspec with
      | none => return (file, ← file.fromType tp (file.computeFound n none none))
      | some tzspec =>
        let (tables, rules, daylight) ← file.parseSpec rulesFile tzspec
        return (tables, ← tables.computeSpec timer around tp rules daylight)
    else
      let i ← file.search timer (guess timer last)
      return (file, ← file.fromType tp (file.computeFound i none none))

/-- `__tzfile_compute`. -/
def compute (around : Int → UInt16) (rulesFile : RulesFile) (useLocaltime : Bool) (before : Computed)
    : Except Fault Computed := do
  let (tables, tzname, daylight, timezone, tm) ←
    if useLocaltime then file.computeLocal timer around rulesFile before.tm
    else pure (file, before.tzname, before.daylight, before.timezone, before.tm)
  let (leapCorrect, leapHit) ← tables.computeLeap timer
  return ⟨tzname, daylight, timezone, leapCorrect, leapHit, tm⟩

structure Sound : Prop where
  types : 1 ≤ file.types.length
  typeIdxs : ∀ idx ∈ file.typeIdxs, idx < file.types.length
  names : ∀ type ∈ file.types, type.idx < file.zoneNames.length ∧ 0 ∈ file.zoneNames.drop type.idx

/-- Each transition has a type, the names are not those that `__tzfile_default` sets, and the string does
not ask for the rules file.
-/
structure Placed : Prop where
  typeIdxs : file.typeIdxs.length = file.transitions.length
  zoneNames : file.transitions ≠ [] →
    file.zoneNamesAt ≠ file.leapsAt + 16 * UInt64.ofNat file.leaps.length
  ruled : file.transitions ≠ [] → ∀ tzspec, file.tzspec = some tzspec → tzsetNoRule tzspec = none

end TzFile

@[simp] theorem ok_bind {α β : Type} (x : α) (f : α → Except Fault β)
    : (Except.ok x >>= f) = f x :=
  rfl

theorem index_ok {α : Type} {xs : List α} {i : Nat} (inside : i < xs.length)
    : ∃ x, index xs i = .ok x ∧ xs[i]? = some x := by
  refine ⟨xs[i], ?_, List.getElem?_eq_getElem inside⟩
  unfold index
  rw [List.getElem?_eq_getElem inside]

theorem indexBefore_ok {α : Type} {xs : List α} {i : Nat} (positive : 1 ≤ i)
    (inside : i ≤ xs.length)
    : ∃ x, indexBefore xs i = .ok x ∧ xs[i - 1]? = some x := by
  unfold indexBefore
  rw [if_neg (by omega)]
  exact index_ok (by omega)

namespace TzFile

variable {file : TzFile} {timer : Int}

theorem Sound.nameOf_ok (sound : file.Sound) {i : Nat} {type : TtInfo}
    (found : file.types[i]? = some type)
    : ∃ name, file.nameOf type = .ok name := by
  have ends := (sound.names type (List.mem_of_getElem? found)).2
  unfold nameOf tzstring
  rw [if_pos ends]
  exact ⟨_, rfl⟩

/-- The loop stops at a type of standard time or behind all types. If it skips the first type, it
takes its name.
-/
theorem Sound.skipDst_ok (sound : file.Sound) (fuel i : Nat) (dst : Option (List UInt8))
    (fuelled : file.types.length < fuel + i) (inside : i ≤ file.types.length)
    : ∃ j dst', file.skipDst fuel i dst = .ok (j, dst') ∧ j ≤ file.types.length
      ∧ (∀ type, file.types[j]? = some type → type.isdst = false)
      ∧ (dst.isSome → dst' = dst)
      ∧ (dst = none → j ≠ i → ∀ type, file.types[i]? = some type →
        ∃ name, file.nameOf type = .ok name ∧ dst' = some name) := by
  induction fuel generalizing i dst with
  | zero => omega
  | succ fuel ih =>
    unfold skipDst
    by_cases more : i < file.types.length
    · obtain ⟨type, read, found⟩ := index_ok more
      rw [if_pos more, read, ok_bind]
      cases isdst : type.isdst with
      | false =>
        refine ⟨i, dst, rfl, inside, fun other same => ?_, fun _ => rfl,
          fun _ skipped => absurd rfl skipped⟩
        rw [found] at same
        rwa [← Option.some.inj same]
      | true =>
        obtain ⟨name, named⟩ := sound.nameOf_ok found
        have chosen : fillName dst (some <$> file.nameOf type) = .ok (some (dst.getD name)) := by
          rw [named]
          cases dst <;> rfl
        obtain ⟨j, dst', run, last, std, kept, -⟩ := ih (i + 1) (some (dst.getD name))
          (by omega) more
        have same := kept rfl
        refine ⟨j, dst', ?_, last, std, fun old => ?_, fun none _ other here => ?_⟩
        · rw [if_pos rfl, chosen, ok_bind, run]
        · rw [same]
          cases dst with
          | none => cases old
          | some old => rfl
        · rw [found] at here
          rw [← Option.some.inj here, same, none]
          exact ⟨name, named, rfl⟩
    · rw [if_neg more]
      refine ⟨i, dst, rfl, inside, fun type here => ?_, fun _ => rfl,
        fun _ skipped => absurd rfl skipped⟩
      rw [List.getElem?_eq_none (not_lt.mp more)] at here
      cases here

private theorem Sound.seekDst_ok (sound : file.Sound) (fuel j : Nat)
    (fuelled : file.types.length < fuel + j) (inside : j ≤ file.types.length)
    : ∃ dst, file.seekDst fuel j = .ok dst := by
  induction fuel generalizing j with
  | zero => omega
  | succ fuel ih =>
    unfold seekDst
    split_ifs with more
    · obtain ⟨type, read, found⟩ := index_ok more
      obtain ⟨name, named⟩ := sound.nameOf_ok found
      rw [read, ok_bind]
      split_ifs
      · rw [named]
        exact ⟨some name, rfl⟩
      · exact ih (j + 1) (by omega) more
    · exact ⟨none, rfl⟩

def Chosen (file : TzFile) (i : Nat) (std dst : Option (List UInt8)) : Prop :=
  std.isSome ∧ ∃ type name, file.types[i]? = some type ∧ file.nameOf type = .ok name
    ∧ (if type.isdst then dst else std) = some name

private theorem Sound.computeBefore_ok (sound : file.Sound)
    : ∃ i std dst, file.computeBefore = .ok (i, std, dst) ∧ file.Chosen i std dst := by
  have positive := sound.types
  obtain ⟨j, dst, run, last, std, -, first⟩ :=
    sound.skipDst_ok (file.types.length + 1) 0 none (by omega) (by omega)
  unfold computeBefore
  rw [run, ok_bind]
  dsimp only
  by_cases all : j = file.types.length
  · -- All types are of daylight saving time, and the first one has given the name.
    obtain ⟨type, read, found⟩ := index_ok (show 0 < file.types.length by omega)
    obtain ⟨name, named, rfl⟩ := first rfl (by omega) type found
    rw [if_pos all, read, ok_bind, named]
    refine ⟨0, some name, some name, rfl, rfl, type, name, found, named, ?_⟩
    split_ifs <;> rfl
  · obtain ⟨type, read, found⟩ := index_ok (show j < file.types.length by omega)
    obtain ⟨name, named⟩ := sound.nameOf_ok found
    obtain ⟨other, seek⟩ := sound.seekDst_ok (file.types.length + 1) j (by omega) last
    rw [if_neg all, read, ok_bind, named]
    obtain ⟨dst', filled⟩ : ∃ dst', fillName dst (.ok other) = .ok dst' := by
      cases dst <;> exact ⟨_, rfl⟩
    rw [seek, filled]
    refine ⟨j, some name, dst', rfl, rfl, type, name, found, named, ?_⟩
    rw [std type found]
    rfl

/-- The time lies between the first transition and the last one. -/
structure Between (file : TzFile) (timer : Int) : Prop where
  first : ∀ t, file.transitions[0]? = some t → t ≤ timer
  last : ∀ t, file.transitions[file.transitions.length - 1]? = some t → timer < t

private theorem Between.searchDown_ok (between : file.Between timer) (fuel i : Nat) (fuelled : i ≤ fuel)
    (positive : 1 ≤ i) (inside : i ≤ file.transitions.length)
    : ∃ j, file.searchDown timer fuel i = .ok j ∧ 1 ≤ j ∧ j ≤ file.transitions.length := by
  induction fuel generalizing i with
  | zero => omega
  | succ fuel ih =>
    obtain ⟨before, read, found⟩ := indexBefore_ok positive inside
    unfold searchDown
    rw [read, ok_bind]
    split_ifs with less
    · have notFirst : i ≠ 1 := by
        rintro rfl
        exact absurd (between.first before found) (not_le.mpr less)
      exact ih (i - 1) (by omega) (by omega) (by omega)
    · exact ⟨i, rfl, positive, inside⟩

private theorem Between.searchUp_ok (between : file.Between timer) (fuel i : Nat)
    (fuelled : file.transitions.length ≤ fuel + i) (inside : i < file.transitions.length)
    : ∃ j, file.searchUp timer fuel i = .ok j ∧ 1 ≤ j ∧ j ≤ file.transitions.length := by
  induction fuel generalizing i with
  | zero => omega
  | succ fuel ih =>
    obtain ⟨here, read, found⟩ := index_ok inside
    unfold searchUp
    rw [read, ok_bind]
    split_ifs with passed
    · have notLast : i ≠ file.transitions.length - 1 := by
        rintro rfl
        exact absurd (between.last here found) (not_lt.mpr passed)
      exact ih (i + 1) (by omega) (by omega)
    · have notFirst : i ≠ 0 := by
        rintro rfl
        exact passed (between.first here found)
      exact ⟨i, rfl, by omega, by omega⟩

private theorem searchBetween_ok (fuel lo hi : Nat) (fuelled : hi ≤ fuel + lo) (order : lo < hi)
    (inside : hi < file.transitions.length)
    : ∃ j, file.searchBetween timer fuel lo hi = .ok j ∧ lo < j ∧ j ≤ hi := by
  induction fuel generalizing lo hi with
  | zero => omega
  | succ fuel ih =>
    unfold searchBetween
    split_ifs with more
    · obtain ⟨here, read, -⟩ := index_ok (show (lo + hi) / 2 < file.transitions.length by omega)
      dsimp only
      rw [read, ok_bind]
      split_ifs
      · obtain ⟨j, run, low, high⟩ := ih lo ((lo + hi) / 2) (by omega) (by omega) (by omega)
        exact ⟨j, run, low, by omega⟩
      · obtain ⟨j, run, low, high⟩ := ih ((lo + hi) / 2) hi (by omega) (by omega) inside
        exact ⟨j, run, by omega, high⟩
    · exact ⟨hi, rfl, order, le_rfl⟩

theorem orTest_ok {first : Bool} {i : Nat} (test : Int → Bool)
    (inside : first = false → i < file.transitions.length)
    : ∃ result, file.orTest first i test = .ok result
      ∧ (result = false → first = false ∧ ∀ t, file.transitions[i]? = some t → test t = false) := by
  unfold orTest
  cases first with
  | true => exact ⟨true, rfl, fun wrong => by cases wrong⟩
  | false =>
    obtain ⟨here, read, found⟩ := index_ok (inside rfl)
    rw [read]
    refine ⟨test here, rfl, fun no => ⟨rfl, fun t same => ?_⟩⟩
    rw [found] at same
    rwa [← Option.some.inj same]

/-- The guess does no harm, whatever it is. -/
theorem Between.search_ok (between : file.Between timer) (some : 1 ≤ file.transitions.length)
    (guess : Nat)
    : ∃ i, file.search timer guess = .ok i ∧ 1 ≤ i ∧ i ≤ file.transitions.length := by
  obtain ⟨t₀, -, first⟩ := index_ok (show 0 < file.transitions.length by omega)
  obtain ⟨tₙ, -, last⟩ :=
    index_ok (show file.transitions.length - 1 < file.transitions.length by omega)
  have several : 2 ≤ file.transitions.length := by
    by_contra few
    have same : file.transitions.length - 1 = 0 := by omega
    have low := between.first t₀ first
    have high := between.last tₙ last
    rw [same, first] at last
    cases last
    omega
  -- Each binary search is between two different transitions.
  have binary : ∀ lo hi, lo < hi → hi ≤ file.transitions.length - 1 →
      ∃ i, file.searchBetween timer (file.transitions.length + 1) lo hi = .ok i ∧ 1 ≤ i
        ∧ i ≤ file.transitions.length := by
    intro lo hi order inside
    obtain ⟨j, run, low, high⟩ := @searchBetween_ok file timer (file.transitions.length + 1) lo hi
      (by omega) order (by omega)
    exact ⟨j, run, by omega, by omega⟩
  unfold search
  dsimp only
  by_cases close : guess < file.transitions.length
  · obtain ⟨here, read, found⟩ :=
      index_ok (show file.transitions.length - 1 - guess < file.transitions.length by omega)
    rw [read, ok_bind]
    generalize file.transitions.length - 1 - guess = i at found
    have inside : i < file.transitions.length := by
      by_contra outside
      rw [List.getElem?_eq_none (not_lt.mp outside)] at found
      cases found
    split_ifs with less
    · have notFirst : i ≠ 0 := by
        rintro rfl
        exact absurd (between.first here found) (not_le.mpr less)
      obtain ⟨near, test, far⟩ := @orTest_ok file (decide (i < 10)) (i - 10)
        (fun t => decide (timer ≥ t)) (fun _ => by omega)
      rw [test]
      cases near with
      | true => exact between.searchDown_ok _ i (by omega) (by omega) (by omega)
      | false =>
        obtain ⟨large, after⟩ := far rfl
        have different : i - 10 ≠ 0 := by
          intro zero
          rw [zero] at after
          have low := between.first t₀ first
          exact of_decide_eq_false (after t₀ first) low
        exact binary 0 (i - 10) (by omega) (by omega)
    · obtain ⟨near, test, far⟩ := @orTest_ok file (decide (i + 10 ≥ file.transitions.length)) (i + 10)
        (fun t => decide (timer < t)) (fun small => not_le.mp (of_decide_eq_false small))
      rw [test]
      cases near with
      | true => exact between.searchUp_ok _ i (by omega) inside
      | false =>
        obtain ⟨small, before⟩ := far rfl
        have room := not_le.mp (of_decide_eq_false small)
        have different : i + 10 ≠ file.transitions.length - 1 := by
          intro same
          rw [same] at before
          have high := between.last tₙ last
          exact of_decide_eq_false (before tₙ last) high
        exact binary (i + 10) _ (by omega) le_rfl
  · rw [if_neg close]
    exact binary 0 _ (by omega) le_rfl

theorem Sound.typeOf_ok (sound : file.Sound) {j idx : Nat}
    (found : file.typeIdxs[j]? = some idx)
    : ∃ type name, index file.types idx = .ok type ∧ file.types[idx]? = some type
      ∧ file.nameOf type = .ok name := by
  obtain ⟨type, read, here⟩ := index_ok (sound.typeIdxs idx (List.mem_of_getElem? found))
  obtain ⟨name, named⟩ := sound.nameOf_ok here
  exact ⟨type, name, read, here, named⟩

/-- The loop over later transitions keeps the names that are set. -/
theorem Sound.findOther_ok (sound : file.Sound) (placed : file.Placed) (fuel j : Nat)
    (std dst : Option (List UInt8)) (fuelled : file.transitions.length < fuel + j)
    (inside : j ≤ file.transitions.length)
    : ∃ std' dst', file.findOther fuel j std dst = .ok (std', dst')
      ∧ (std.isSome → std' = std) ∧ (dst.isSome → dst' = dst) := by
  induction fuel generalizing j std dst with
  | zero => omega
  | succ fuel ih =>
    unfold findOther
    by_cases more : j < file.transitions.length
    · obtain ⟨idx, readIdx, found⟩ := index_ok (placed.typeIdxs ▸ more)
      obtain ⟨type, name, read, -, named⟩ := sound.typeOf_ok found
      rw [if_pos more, readIdx, ok_bind, read, ok_bind, named]
      have next := fun std dst => ih (j + 1) std dst (by omega) more
      cases type.isdst with
      | true =>
        cases dst with
        | none =>
          cases std with
          | none =>
            obtain ⟨std', dst', run, -, -⟩ := next none (some name)
            exact ⟨std', dst', run, by simp, by simp⟩
          | some std => exact ⟨_, _, rfl, fun _ => rfl, by simp⟩
        | some dst => exact next std (some dst)
      | false =>
        cases std with
        | none =>
          cases dst with
          | none =>
            obtain ⟨std', dst', run, -, -⟩ := next (some name) none
            exact ⟨std', dst', run, by simp, by simp⟩
          | some dst => exact ⟨_, _, rfl, by simp, fun _ => rfl⟩
        | some std => exact next (some std) dst
    · rw [if_neg more]
      exact ⟨std, dst, rfl, fun _ => rfl, fun _ => rfl⟩

theorem Sound.computeFound_ok (sound : file.Sound) (placed : file.Placed) {i : Nat}
    (positive : 1 ≤ i) (inside : i ≤ file.transitions.length) (std dst : Option (List UInt8))
    : ∃ found std' dst', file.computeFound i std dst = .ok (found, std', dst')
      ∧ file.Chosen found std' dst' := by
  obtain ⟨idx, readIdx, here⟩ := indexBefore_ok positive (placed.typeIdxs ▸ inside)
  obtain ⟨type, name, read, found, named⟩ := sound.typeOf_ok here
  unfold computeFound
  rw [readIdx, ok_bind, read, ok_bind, named, ok_bind]
  cases isdst : type.isdst with
  | true =>
    obtain ⟨std', dst', run, -, kept⟩ := sound.findOther_ok placed (file.transitions.length + 1) i
      std (some name) (by omega) inside
    rw [if_pos rfl, if_pos rfl, run]
    have same := kept rfl
    refine ⟨idx, _, dst', rfl, ?_, type, name, found, named, ?_⟩
    · rw [same]
      cases std' <;> rfl
    · rw [isdst, if_pos rfl, same]
  | false =>
    obtain ⟨std', dst', run, kept, -⟩ := sound.findOther_ok placed (file.transitions.length + 1) i
      (some name) dst (by omega) inside
    rw [if_neg (by decide), if_neg (by decide), run]
    have same := kept rfl
    refine ⟨idx, _, dst', rfl, ?_, type, name, found, named, ?_⟩
    · rw [same]
      rfl
    · rw [isdst, same]
      rfl

private theorem Chosen.useType_ok {i : Nat} {std dst : Option (List UInt8)} (chosen : file.Chosen i std dst)
    (tp : Tm)
    : ∃ result, file.useType i std dst tp = .ok result := by
  obtain ⟨set, type, name, found, named, same⟩ := chosen
  obtain ⟨std, rfl⟩ := Option.isSome_iff_exists.mp set
  have read : index file.types i = .ok type := by
    unfold index
    rw [found]
  unfold useType
  rw [show fillName (some std) _ = .ok (some std) from rfl, ok_bind, read, ok_bind, named, ok_bind]
  have zone : (if type.isdst = true then if dst.isNone = true then some std else dst else some std)
      = some name := by
    split_ifs at same ⊢ with _ unset
    · rw [same] at unset
      cases unset
    · exact same
    · exact same
  rw [zone, if_neg (by simp)]
  exact ⟨_, rfl⟩

theorem lastLeap_ok (n : Nat) (inside : n ≤ file.leaps.length)
    : ∃ result, file.lastLeap timer n = .ok result ∧ ∀ i, result = some i → i < n := by
  induction n with
  | zero => exact ⟨none, rfl, fun i no => by cases no⟩
  | succ n ih =>
    obtain ⟨leap, read, -⟩ := index_ok inside
    unfold lastLeap
    rw [read, ok_bind]
    split_ifs
    · obtain ⟨result, run, less⟩ := ih (by omega)
      exact ⟨result, run, fun i same => by have := less i same; omega⟩
    · refine ⟨some n, rfl, fun i same => ?_⟩
      cases same
      omega

theorem leapRun_ok (i : Nat) (hit : Int) (inside : i < file.leaps.length)
    : ∃ result, file.leapRun i hit = .ok result := by
  induction i generalizing hit with
  | zero => exact ⟨hit, rfl⟩
  | succ i ih =>
    obtain ⟨leap, read, -⟩ := index_ok inside
    obtain ⟨before, readBefore, -⟩ := index_ok (show i < file.leaps.length by omega)
    unfold leapRun
    rw [read, ok_bind, readBefore, ok_bind]
    split_ifs
    · exact ih (hit + 1) (by omega)
    · exact ⟨hit, rfl⟩

private theorem computeLeap_ok (file : TzFile) (timer : Int)
    : ∃ result, file.computeLeap timer = .ok result := by
  obtain ⟨result, run, less⟩ := @lastLeap_ok file timer file.leaps.length le_rfl
  unfold computeLeap
  rw [run, ok_bind]
  cases result with
  | none => exact ⟨_, rfl⟩
  | some i =>
    have inside := less i rfl
    obtain ⟨leap, read, -⟩ := index_ok inside
    obtain ⟨hit, runs⟩ := leapRun_ok i 1 inside
    obtain ⟨before, change⟩ : ∃ before, file.changeBefore i = .ok before := by
      unfold changeBefore
      split_ifs with zero
      · exact ⟨0, rfl⟩
      · obtain ⟨before, readBefore, -⟩ := @indexBefore_ok _ file.leaps i (by omega) inside.le
        rw [readBefore]
        exact ⟨_, rfl⟩
    dsimp only
    rw [read, ok_bind]
    split_ifs
    · rw [change, ok_bind]
      split_ifs
      · rw [runs]
        exact ⟨_, rfl⟩
      · exact ⟨_, rfl⟩
    · exact ⟨_, rfl⟩

theorem Placed.specNames_ok (placed : file.Placed) (some : file.transitions ≠ []) (rules : TzRules)
    : ∃ names, file.specNames rules = .ok names := by
  unfold specNames
  rw [if_neg (placed.zoneNames some)]
  exact ⟨_, rfl⟩

theorem fromType_ok {found : Except Fault (Nat × Option (List UInt8) × Option (List UInt8))}
    (chosen : ∃ i std dst, found = .ok (i, std, dst) ∧ file.Chosen i std dst) (tp : Tm)
    : ∃ result, file.fromType tp found = .ok result := by
  obtain ⟨i, std, dst, rfl, chosen⟩ := chosen
  obtain ⟨result, run⟩ := chosen.useType_ok tp
  rw [fromType, ok_bind]
  dsimp only
  rw [run]
  exact ⟨_, rfl⟩

theorem Sound.computeSpec_ok (sound : file.Sound) (placed : file.Placed)
    (some : file.transitions ≠ []) (timer : Int) (around : Int → UInt16) (tp : Tm) (rules : TzRules)
    (daylight : Bool)
    : ∃ result, file.computeSpec timer around tp rules daylight = .ok result := by
  unfold computeSpec
  cases (offtime timer 0 tp).join with
  | none =>
    exact fromType_ok (sound.computeFound_ok placed (List.length_pos_of_ne_nil some) le_rfl _ _) tp
  | some tm =>
    obtain ⟨names, run⟩ := placed.specNames_ok some rules
    rw [run]
    exact ⟨_, rfl⟩

theorem parseSpec_ruled (rulesFile : RulesFile) {tzspec : List UInt8}
    (ruled : tzsetNoRule tzspec = none)
    : file.parseSpec rulesFile tzspec = .ok (file, tzsetParseTz tzspec,
        (tzsetParseTz tzspec).std.offset ≠ (tzsetParseTz tzspec).dst.offset) := by
  rw [parseSpec, ruled]
  rfl

/-- The tables stay in use. -/
theorem Sound.computeLocal_ok (sound : file.Sound) (placed : file.Placed) (timer : Int)
    (around : Int → UInt16) (rulesFile : RulesFile) (tp : Tm)
    : ∃ result, file.computeLocal timer around rulesFile tp = .ok (file, result) := by
  obtain ⟨early, test, late⟩ := @orTest_ok file (decide (file.transitions.length = 0)) 0
    (fun t => decide (timer < t)) (fun some => Nat.pos_of_ne_zero (of_decide_eq_false some))
  unfold computeLocal
  dsimp only
  rw [test, ok_bind]
  cases early with
  | true =>
    obtain ⟨result, run⟩ := fromType_ok sound.computeBefore_ok tp
    rw [if_pos rfl, run]
    exact ⟨_, rfl⟩
  | false =>
    obtain ⟨some, after⟩ := late rfl
    have positive := Nat.pos_of_ne_zero (of_decide_eq_false some)
    obtain ⟨last, read, found⟩ := indexBefore_ok positive (le_refl file.transitions.length)
    rw [if_neg (by decide), read, ok_bind]
    split_ifs with passed
    · have some := List.ne_nil_of_length_pos positive
      have ruled := placed.ruled some
      cases spec : file.tzspec with
      | none =>
        obtain ⟨result, run⟩ :=
          fromType_ok (sound.computeFound_ok placed positive le_rfl none none) tp
        dsimp only
        rw [run]
        exact ⟨_, rfl⟩
      | some tzspec =>
        obtain ⟨result, run⟩ := sound.computeSpec_ok placed some timer around tp
          (tzsetParseTz tzspec) ((tzsetParseTz tzspec).std.offset ≠ (tzsetParseTz tzspec).dst.offset)
        dsimp only
        rw [parseSpec_ruled rulesFile (ruled tzspec spec), ok_bind]
        dsimp only
        rw [run]
        exact ⟨_, rfl⟩
    · have between : file.Between timer := by
        refine ⟨fun t here => not_lt.mp (of_decide_eq_false (after t here)), fun t here => ?_⟩
        rw [found] at here
        cases here
        omega
      obtain ⟨i, run, low, high⟩ := between.search_ok positive (guess timer last)
      obtain ⟨result, found⟩ := fromType_ok (sound.computeFound_ok placed low high none none) tp
      rw [run, ok_bind, found]
      exact ⟨_, rfl⟩

/-- Sound tables are accessed in bounds, for every time. -/
theorem Sound.compute_ok (sound : file.Sound) (placed : file.Placed) (timer : Int)
    (around : Int → UInt16) (rulesFile : RulesFile) (useLocaltime : Bool) (before : Computed)
    : ∃ after, file.compute timer around rulesFile useLocaltime before = .ok after := by
  obtain ⟨leap, runLeap⟩ := file.computeLeap_ok timer
  obtain ⟨result, run⟩ := sound.computeLocal_ok placed timer around rulesFile before.tm
  unfold compute
  cases useLocaltime with
  | true =>
    rw [if_pos rfl, run, ok_bind]
    dsimp only
    rw [runLeap]
    exact ⟨_, rfl⟩
  | false =>
    rw [if_neg (by decide), pure_bind]
    dsimp only
    rw [runLeap]
    exact ⟨_, rfl⟩

/-- From the last transition on, a string without a rule is parsed in memory that has been freed if there
is no rules file.
-/
theorem compute_freed {tzspec : List UInt8} {rules : TzRules} (some_ : file.transitions ≠ [])
    (spec : file.tzspec = some tzspec) (noRule : tzsetNoRule tzspec = some rules)
    (around : Int → UInt16) (before : Computed)
    : ∃ timer, file.compute timer around .missing true before = .error .freed := by
  have positive := List.length_pos_of_ne_nil some_
  obtain ⟨first, readFirst, -⟩ := index_ok positive
  obtain ⟨last, readLast, -⟩ := indexBefore_ok positive le_rfl
  refine ⟨max first last, ?_⟩
  have late : file.orTest (decide (file.transitions.length = 0)) 0
      (fun t => decide (max first last < t)) = .ok false := by
    rw [orTest, if_neg (by simpa using some_), readFirst]
    exact congrArg Except.ok (decide_eq_false (not_lt.mpr (le_max_left first last)))
  have freed : file.parseSpec .missing tzspec = .error .freed := by
    rw [parseSpec, noRule]
    rfl
  unfold compute computeLocal
  dsimp only
  rw [if_pos rfl, late, ok_bind, if_neg (by decide), readLast, ok_bind,
    if_pos (le_max_right first last), spec]
  dsimp only
  rw [freed]
  rfl

end TzFile

end Nglibc.Time
