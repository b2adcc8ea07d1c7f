import Nglibc.Time.TzDays
import Nglibc.Time.TzCache

/-! Daylight saving time by the latest change. `__tz_compute` consults the two changes of the
year of the time in GMT only.
-/

namespace Nglibc.Time

open Nglibc.Gregorian

inductive ChangeKind where
  | toDst
  | toStd
deriving DecidableEq

structure Change where
  kind : ChangeKind
  year : Int

/-- Daylight saving time starts by the rule for standard time. -/
def TzRules.of (rules : TzRules) : ChangeKind → TzRule
  | .toDst => rules.std
  | .toStd => rules.dst

def Change.time (rules : TzRules) (change : Change) : Int :=
  ruleTime (rules.of change.kind) change.year

@[simp] theorem Change.time_toDst (rules : TzRules) (year : Int)
    : Change.time rules ⟨.toDst, year⟩ = ruleTime rules.std year := rfl

@[simp] theorem Change.time_toStd (rules : TzRules) (year : Int)
    : Change.time rules ⟨.toStd, year⟩ = ruleTime rules.dst year := rfl

/-- The order of changes. At the same time, the later year comes later, and the end of daylight
saving time comes after its start.
-/
def Change.NotAfter (rules : TzRules) (change later : Change) : Prop :=
  change.time rules < later.time rules
  ∨ change.time rules = later.time rules ∧ (change.year < later.year
      ∨ change.year = later.year ∧ (change.kind = .toDst ∨ later.kind = .toStd))

def Latest (rules : TzRules) (t : Int) (change : Change) : Prop :=
  change.time rules ≤ t
  ∧ ∀ other : Change, other.time rules ≤ t → other.NotAfter rules change

def InDst (rules : TzRules) (t : Int) : Prop :=
  ∃ change, Latest rules t change ∧ change.kind = .toDst

/-- The years of the last start and of the last end of daylight saving time until a time. -/
structure LastYears (rules : TzRules) (t start stop : Int) : Prop where
  start : ∀ year, ruleTime rules.std year ≤ t ↔ year ≤ start
  stop : ∀ year, ruleTime rules.dst year ≤ t ↔ year ≤ stop

/-- The changes of a year tell which one of the last start and the last end came later. If only one of
them has come, the last change of the other kind is not later than that of its own; else the last ones
stand in the order of the year.
-/
structure YearDecides (rules : TzRules) (year start stop : Int) : Prop where
  started : stop < year ∧ year ≤ start → Change.NotAfter rules ⟨.toStd, stop⟩ ⟨.toDst, start⟩
  stopped : start < year ∧ year ≤ stop → Change.NotAfter rules ⟨.toDst, start⟩ ⟨.toStd, stop⟩
  both : (start < year ↔ stop < year) → (Change.NotAfter rules ⟨.toStd, stop⟩ ⟨.toDst, start⟩
      ↔ Change.NotAfter rules ⟨.toStd, year⟩ ⟨.toDst, year⟩)

/-- Rules of a zone whose changes stay in their years, in the same order in each year. -/
structure Ordinary (rules : TzRules) : Prop where
  own : ∀ change : Change, 86400 * newYear change.year ≤ change.time rules
    ∧ change.time rules < 86400 * newYear (change.year + 1)
  order : ∀ year later, ruleTime rules.dst year < ruleTime rules.std year ↔
    ruleTime rules.dst later < ruleTime rules.std later

def TzRules.WellFormed (around : Int → UInt16) (rules : TzRules) : Prop :=
  ∀ kind, (rules.of kind).WellFormed around

/-! The latest change -/

section

variable {around : Int → UInt16} {rules : TzRules} {t start stop : Int}

/-- The changes of a rule follow each other. -/
theorem ruleTime_strictMono {rule : TzRule} (dated : rule.Dated) : StrictMono (ruleTime rule) := by
  refine strictMono_int_of_lt_succ fun year => ?_
  have next := newYear_succ year
  have length := yearLength_bounds year
  suffices ruleDay rule year < ruleDay rule (year + 1) by
    unfold ruleTime
    omega
  unfold ruleDay
  cases type : rule.type with
  | J0 =>
    dsimp only
    omega
  | J1 =>
    dsimp only
    split_ifs <;> omega
  | M =>
    have month := dated.month type
    have first := monthLength_bounds (decide (IsLeap year)) month
    have second := monthLength_bounds (decide (IsLeap (year + 1))) month
    have close := monthStart_close (decide (IsLeap year)) (decide (IsLeap (year + 1)))
      (show rule.m - 1 ≤ 12 by omega)
    dsimp only
    omega

theorem Change.time_mono (formed : rules.WellFormed around) (kind : ChangeKind) {year later : Int}
    : Change.time rules ⟨kind, year⟩ ≤ Change.time rules ⟨kind, later⟩ ↔ year ≤ later :=
  (ruleTime_strictMono (formed kind).dated).le_iff_le

private theorem lastChange_exists (formed : rules.WellFormed around) (kind : ChangeKind) (t : Int)
    : ∃ year, Change.time rules ⟨kind, year⟩ ≤ t
      ∧ ∀ other, Change.time rules ⟨kind, other⟩ ≤ t → other ≤ year := by
  have near : ∀ year, 86400 * newYear year - 2 ^ 40 ≤ Change.time rules ⟨kind, year⟩
      ∧ Change.time rules ⟨kind, year⟩ ≤ 86400 * newYear year + 2 ^ 40 := by
    intro year
    have day := ruleDay_bounds (formed kind).dated year
    have secs := (formed kind).sized.secs
    have offset := (formed kind).sized.offset
    unfold Change.time ruleTime
    dsimp only
    omega
  have bounded : ∀ year, Change.time rules ⟨kind, year⟩ ≤ t → year ≤ max t 0 + 2 ^ 40 := by
    intro year passed
    have above := (near year).1
    unfold newYear leapsThrough at above
    omega
  have early : Change.time rules ⟨kind, min t 0 - 2 ^ 40⟩ ≤ t := by
    have below := (near (min t 0 - 2 ^ 40)).2
    unfold newYear leapsThrough at below
    omega
  exact Int.exists_greatest_of_bdd ⟨_, bounded⟩ ⟨_, early⟩

theorem Change.NotAfter.total (change other : Change)
    : change.NotAfter rules other ∨ other.NotAfter rules change := by
  unfold Change.NotAfter
  rcases lt_trichotomy (change.time rules) (other.time rules) with less | same | more
  · exact .inl (.inl less)
  · rcases lt_trichotomy change.year other.year with before | equal | after
    · exact .inl (.inr ⟨same, .inl before⟩)
    · cases kind : change.kind with
      | toDst => exact .inl (.inr ⟨same, .inr ⟨equal, .inl rfl⟩⟩)
      | toStd => exact .inr (.inr ⟨same.symm, .inr ⟨equal.symm, .inr rfl⟩⟩)
    · exact .inr (.inr ⟨same.symm, .inl after⟩)
  · exact .inr (.inl more)

theorem Change.NotAfter.trans {first second third : Change} (before : first.NotAfter rules second)
    (after : second.NotAfter rules third)
    : first.NotAfter rules third := by
  unfold Change.NotAfter at *
  grind

theorem Change.notAfter_of_le (formed : rules.WellFormed around) {kind : ChangeKind}
    {year later : Int} (le : year ≤ later)
    : Change.NotAfter rules ⟨kind, year⟩ ⟨kind, later⟩ := by
  rcases le.lt_or_eq with less | rfl
  · exact .inl (ruleTime_strictMono (formed kind).dated less)
  · exact (Change.NotAfter.total _ _).elim id id

theorem lastYears_exist (formed : rules.WellFormed around) (t : Int)
    : ∃ start stop, LastYears rules t start stop := by
  obtain ⟨start, startPassed, startLast⟩ := lastChange_exists formed .toDst t
  obtain ⟨stop, stopPassed, stopLast⟩ := lastChange_exists formed .toStd t
  refine ⟨start, stop, fun year => ⟨startLast year, fun le => ?_⟩, fun year => ⟨stopLast year, fun le => ?_⟩⟩
  · exact ((Change.time_mono formed .toDst).mpr le).trans startPassed
  · exact ((Change.time_mono formed .toStd).mpr le).trans stopPassed

/-- The last changes of both kinds decide. -/
theorem LastYears.inDst_iff (last : LastYears rules t start stop) (formed : rules.WellFormed around)
    : InDst rules t ↔ Change.NotAfter rules ⟨.toStd, stop⟩ ⟨.toDst, start⟩ := by
  constructor
  · rintro ⟨⟨kind, year⟩, ⟨passed, latest⟩, rfl⟩
    have before := latest ⟨.toStd, stop⟩ ((last.stop stop).mpr le_rfl)
    exact before.trans (Change.notAfter_of_le formed ((last.start year).mp passed))
  · intro order
    refine ⟨⟨.toDst, start⟩, ⟨(last.start start).mpr le_rfl, ?_⟩, rfl⟩
    rintro ⟨kind, year⟩ passed
    cases kind with
    | toDst => exact Change.notAfter_of_le formed ((last.start year).mp passed)
    | toStd => exact (Change.notAfter_of_le formed ((last.stop year).mp passed)).trans order

private theorem Change.NotAfter.antisymm {change other : Change} (before : change.NotAfter rules other)
    (after : other.NotAfter rules change)
    : change = other := by
  obtain ⟨kind, year⟩ := change
  obtain ⟨kind', year'⟩ := other
  unfold Change.NotAfter at before after
  dsimp only at before after
  obtain rfl : year = year' := by omega
  cases kind with
  | toDst =>
    cases kind' with
    | toDst => rfl
    | toStd =>
      simp only [reduceCtorEq, or_self, and_false, or_false] at after
      omega
  | toStd =>
    cases kind' with
    | toDst =>
      simp only [reduceCtorEq, or_self, and_false, or_false] at before
      omega
    | toStd => rfl

theorem notAfter_stop {start stop : Int}
    : Change.NotAfter rules ⟨.toDst, start⟩ ⟨.toStd, stop⟩
      ↔ ¬ Change.NotAfter rules ⟨.toStd, stop⟩ ⟨.toDst, start⟩ := by
  constructor
  · intro before after
    cases before.antisymm after
  · exact (Change.NotAfter.total _ _).resolve_right

/-! The year of the time -/

theorem notAfter_sameYear {year : Int}
    : Change.NotAfter rules ⟨.toStd, year⟩ ⟨.toDst, year⟩
      ↔ ruleTime rules.dst year < ruleTime rules.std year := by
  simp [Change.NotAfter]

/-- What `__tz_compute` takes from the changes of one year. -/
theorem LastYears.isDst_iff (last : LastYears rules t start stop) (std dst : TzRule) {year : Int}
    (startChange : std.change = ruleTime rules.std year)
    (stopChange : dst.change = ruleTime rules.dst year)
    : isDst ⟨std, dst⟩ t = true ↔ stop < year ∧ year ≤ start
        ∨ (start < year ↔ stop < year) ∧ Change.NotAfter rules ⟨.toStd, year⟩ ⟨.toDst, year⟩ := by
  have started := last.start year
  have stopped := last.stop year
  rw [notAfter_sameYear]
  unfold isDst
  dsimp only
  split_ifs <;> rw [decide_eq_true_iff] <;> omega

theorem localForm_isdst (computed : TzRules) (tm : Tm)
    : (localForm computed t tm).isdst = 1 ↔ isDst computed t = true := by
  unfold localForm
  split_ifs with dst <;> simp [dst]

/-- The year of a time decides for ordinary rules. -/
theorem Ordinary.decides (ordinary : Ordinary rules) {year : Int}
    (here : 86400 * newYear year ≤ t ∧ t < 86400 * newYear (year + 1))
    (last : LastYears rules t start stop)
    : YearDecides rules year start stop := by
  have passed (kind : ChangeKind) : Change.time rules ⟨kind, year - 1⟩ < 86400 * newYear year := by
    have ends := (ordinary.own ⟨kind, year - 1⟩).2
    rwa [show year - 1 + 1 = year by omega] at ends
  have toCome (kind : ChangeKind) : 86400 * newYear (year + 1) ≤ Change.time rules ⟨kind, year + 1⟩ :=
    (ordinary.own ⟨kind, year + 1⟩).1
  have begun (kind : ChangeKind) : 86400 * newYear year ≤ Change.time rules ⟨kind, year⟩ :=
    (ordinary.own ⟨kind, year⟩).1
  have startLow := (last.start (year - 1)).mp ((passed .toDst).le.trans here.1)
  have stopLow := (last.stop (year - 1)).mp ((passed .toStd).le.trans here.1)
  have startHigh : ¬ year + 1 ≤ start :=
    fun le => absurd ((last.start (year + 1)).mpr le) (here.2.trans_le (toCome .toDst)).not_ge
  have stopHigh : ¬ year + 1 ≤ stop :=
    fun le => absurd ((last.stop (year + 1)).mpr le) (here.2.trans_le (toCome .toStd)).not_ge
  refine ⟨fun only => ?_, fun only => ?_, fun same => ?_⟩
  · obtain ⟨rfl, rfl⟩ : stop = year - 1 ∧ start = year := by omega
    exact .inl ((passed .toStd).trans_le (begun .toDst))
  · obtain ⟨rfl, rfl⟩ : start = year - 1 ∧ stop = year := by omega
    exact .inl ((passed .toDst).trans_le (begun .toStd))
  · obtain rfl : start = stop := by omega
    rw [notAfter_sameYear, notAfter_sameYear]
    exact ordinary.order start year

end

/-- The string "WART4WARST,J1/0,J365/25", whose daylight saving time lasts all year. -/
def allYear : List UInt8 :=
  [87, 65, 82, 84, 52, 87, 65, 82, 83, 84, 44, 74, 49, 47, 48, 44, 74, 51, 54, 53, 47, 50, 53]

theorem allYear_wellFormed : (tzsetParseTz allYear).WellFormed (fun _ => 0) := by
  intro kind
  cases kind with
  | toDst =>
    exact ⟨⟨by decide, by decide, by decide, by decide, by decide⟩,
      ⟨by decide, by decide, by decide, by decide, by decide⟩, .inl rfl⟩
  | toStd =>
    exact ⟨⟨by decide, by decide, by decide, by decide, by decide⟩,
      ⟨by decide, by decide, by decide, by decide, by decide⟩, .inl rfl⟩

def newYearNight : Tm := ⟨0, 0, 1, 1, 0, 124, 1, 0, 0, 0, []⟩

theorem newYearNight_brokenDown : BrokenDown 1704070800 newYearNight := by
  refine ⟨?_, ?_, ?_, ?_, ?_, ?_, ?_, ?_, ?_, ?_⟩ <;> decide

/-- The string "AAA0BBB,J100/0,J200/0", with changes on April 10th and July 19th. -/
def summer : List UInt8 :=
  [65, 65, 65, 48, 66, 66, 66, 44, 74, 49, 48, 48, 47, 48, 44, 74, 50, 48, 48, 47, 48]

theorem summer_wellFormed : (tzsetParseTz summer).WellFormed (fun _ => 0) := by
  intro kind
  cases kind with
  | toDst =>
    exact ⟨⟨by decide, by decide, by decide, by decide, by decide⟩,
      ⟨by decide, by decide, by decide, by decide, by decide⟩, .inl rfl⟩
  | toStd =>
    exact ⟨⟨by decide, by decide, by decide, by decide, by decide⟩,
      ⟨by decide, by decide, by decide, by decide, by decide⟩, .inl rfl⟩

private theorem summer_ordinary : Ordinary (tzsetParseTz summer) := by
  have start (year : Int) : ruleTime (tzsetParseTz summer).std year
      = 86400 * (newYear year + 100 - 1 + if (100 : Nat) ≥ 60 ∧ IsLeap year then 1 else 0) - 0 + 0 := rfl
  have stop (year : Int) : ruleTime (tzsetParseTz summer).dst year
      = 86400 * (newYear year + 200 - 1 + if (200 : Nat) ≥ 60 ∧ IsLeap year then 1 else 0) - 3600 + 0 :=
    rfl
  constructor
  · rintro ⟨kind, year⟩
    have next := newYear_succ year
    have length := yearLength_bounds year
    cases kind with
    | toDst =>
      rw [Change.time_toDst, start]
      dsimp only
      split_ifs <;> omega
    | toStd =>
      rw [Change.time_toStd, stop]
      dsimp only
      split_ifs <;> omega
  · intro year later
    rw [start, stop, start, stop]
    split_ifs <;> omega

end Nglibc.Time
