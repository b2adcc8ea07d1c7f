import Nglibc.Time.Offtime

/-! Rules of POSIX time zones: `compute_change`, `__tz_compute` and `__tz_convert` of
`time/tzset.c`, as far as no zone file is used. An operation that overflows makes the computation
`none`.
-/

namespace Nglibc.Time

open Nglibc.Gregorian

inductive RuleType where
  | J0
  | J1
  | M
deriving DecidableEq

structure TzRule where
  name : List UInt8
  type : RuleType
  m : Nat
  n : Nat
  d : Nat
  secs : Int
  offset : Int
  change : Int
  computedFor : Int
deriving DecidableEq

structure TzRules where
  std : TzRule
  dst : TzRule
deriving DecidableEq

/-- January 1st, 0:00:00 GMT, as `compute_change` computes it with numbers of type `int`. -/
def yearStart (year : Int) : Option Int :=
  if year > 1970 then do
    let years ← int32 (year - 1970)
    let days ← int32 (years * 365)
    let days ← int32 (days + ((year - 1).tdiv 4 - 492))
    let days ← int32 (days - ((year - 1).tdiv 100 - 19))
    let days ← int32 (days + ((year - 1).tdiv 400 - 4))
    int64 (days * 86400)
  else some 0

/-- What stands at `__mon_yday[leap][month]`, in the memory around if there is no such month. -/
def monYdayAt (around : Int → UInt16) (leap : Bool) (month : Int) : Int :=
  let i := month + if leap then 13 else 0
  if 0 ≤ i ∧ i < 13 then monYday false i.toNat
  else if 13 ≤ i ∧ i < 26 then monYday true (i - 13).toNat
  else (around i).toNat

/-- The loop over weeks, for a month with `length` days. -/
def weekLoop (length : Int) : Nat → Int → Int
  | 0, d => d
  | weeks + 1, d => if d + 7 ≥ length then d else weekLoop length weeks (d + 7)

/-- The day of the week of the first day of a month, by Zeller's congruence. -/
def zeller (year : Int) (m : Nat) : Option Int := do
  let m1 : Int := (m + 9) % 12 + 1
  let yy0 ← int32 (if m ≤ 2 then year - 1 else year)
  let yy1 := yy0.tdiv 100
  let yy2 := yy0.tmod 100
  let sum ← int32 ((26 * m1 - 2).tdiv 10 + 1 + yy2 + yy2.tdiv 4 + yy1.tdiv 4)
  let sum ← int32 (sum - 2 * yy1)
  let dow := sum.tmod 7
  return if dow < 0 then dow + 7 else dow

def ruleDays (around : Int → UInt16) (rule : TzRule) (year : Int) : Option Int :=
  match rule.type with
  | .J1 => some (rule.d - 1 + if rule.d ≥ 60 ∧ isleap year = true then 1 else 0)
  | .J0 => some rule.d
  | .M => do
    let before := monYdayAt around (isleap year) (rule.m - 1)
    let length := monYdayAt around (isleap year) rule.m - before
    let dow ← zeller year rule.m
    let d := rule.d - dow
    let d := if d < 0 then d + 7 else d
    return before + weekLoop length (rule.n - 1) d

def changeTime (around : Int → UInt16) (rule : TzRule) (year : Int) : Option Int := do
  let t ← yearStart year
  let days ← ruleDays around rule year
  int64 (t + days * 86400 - rule.offset + rule.secs)

def computeChange (around : Int → UInt16) (rule : TzRule) (year : Int) : Option TzRule :=
  if year ≠ -1 ∧ rule.computedFor = year then some rule
  else (changeTime around rule year).map fun change =>
    { rule with change := change, computedFor := year }

/-- Whether a time is in daylight saving time. The changes of the southern hemisphere come in the
other order.
-/
def isDst (rules : TzRules) (timer : Int) : Bool :=
  if rules.std.change > rules.dst.change then
    decide (timer < rules.dst.change ∨ timer ≥ rules.std.change)
  else decide (timer ≥ rules.std.change ∧ timer < rules.dst.change)

/-- What `__tz_compute` sets for local time. -/
def localForm (rules : TzRules) (timer : Int) (tm : Tm) : Tm :=
  if isDst rules timer then
    { tm with isdst := 1, zone := rules.dst.name, gmtoff := rules.dst.offset }
  else { tm with isdst := 0, zone := rules.std.name, gmtoff := rules.std.offset }

def tzCompute (around : Int → UInt16) (rules : TzRules) (timer : Int) (tm : Tm)
    (useLocaltime : Bool)
    : Option (TzRules × Tm) := do
  let year ← int32 (1900 + tm.year)
  let std ← computeChange around rules.std year
  let dst ← computeChange around rules.dst year
  return (⟨std, dst⟩, if useLocaltime then localForm ⟨std, dst⟩ timer tm else tm)

def gmt : List UInt8 := [71, 77, 84]

/-- `__tz_convert` for rules that have been parsed. Inside, `none` is the failure with
`EOVERFLOW`.
-/
def tzConvert (around : Int → UInt16) (rules : TzRules) (timer : Int) (useLocaltime : Bool) (tp : Tm)
    : Option (TzRules × Option Tm) := do
  match ← offtime timer 0 tp with
  | none => return (rules, none)
  | some tm =>
    let (rules, tm) ← tzCompute around rules timer tm useLocaltime
    let tm := if useLocaltime then tm else { tm with isdst := 0, zone := gmt, gmtoff := 0 }
    let tm ← offtime timer tm.gmtoff tm
    return (rules, tm)

/-! `compute_change` computes with numbers of type `int` up to the year 5881459. -/

/-- The last year whose days since 1970 can be counted on the way to the result. -/
def lastRuleYear : Int := 5881459

variable {year : Int}

private theorem yearStart_eq (early : year ≤ lastRuleYear)
    : yearStart year = some (if year > 1970 then 86400 * newYear year else 0) := by
  unfold lastRuleYear at early
  unfold yearStart
  split_ifs with later
  · have by4 := ediv_eq_tdiv (year - 1) (show (0 : Int) < 4 by norm_num)
    have by100 := ediv_eq_tdiv (year - 1) (show (0 : Int) < 100 by norm_num)
    have by400 := ediv_eq_tdiv (year - 1) (show (0 : Int) < 400 by norm_num)
    have rem4 := (tdiv_tmod (year - 1) (show (0 : Int) < 4 by norm_num)).2.1 (by omega)
    have rem100 := (tdiv_tmod (year - 1) (show (0 : Int) < 100 by norm_num)).2.1 (by omega)
    have rem400 := (tdiv_tmod (year - 1) (show (0 : Int) < 400 by norm_num)).2.1 (by omega)
    simp only [Option.bind_eq_bind]
    rw [int32_some (by omega) (by omega), Option.bind_some, int32_some (by omega) (by omega),
      Option.bind_some, int32_some (by omega) (by omega), Option.bind_some,
      int32_some (by omega) (by omega), Option.bind_some, int32_some (by omega) (by omega),
      Option.bind_some, int64_some (by omega) (by omega)]
    refine congrArg some ?_
    unfold newYear leapsThrough
    omega
  · rfl

theorem yearStart_none (late : lastRuleYear < year) (int : year ≤ 2147483647)
    : yearStart year = none := by
  unfold lastRuleYear at late
  have by4 := ediv_eq_tdiv (year - 1) (show (0 : Int) < 4 by norm_num)
  have rem4 := (tdiv_tmod (year - 1) (show (0 : Int) < 4 by norm_num)).2.1 (by omega)
  rw [if_neg (by omega)] at by4
  unfold yearStart
  rw [if_pos (by omega), int32_some (by omega) (by omega), Option.bind_eq_bind, Option.bind_some]
  by_cases product : (year - 1970) * 365 ≤ 2147483647
  · rw [int32_some (by omega) product, Option.bind_some, int32_none (by omega)]
    rfl
  · rw [int32_none (by omega)]
    rfl

structure TzRule.Sized (rule : TzRule) : Prop where
  m : rule.m < 2 ^ 16
  n : rule.n < 2 ^ 16
  d : rule.d < 2 ^ 16
  secs : -2 ^ 31 ≤ rule.secs ∧ rule.secs < 2 ^ 31
  offset : -2 ^ 31 ≤ rule.offset ∧ rule.offset < 2 ^ 31

private theorem zeller_some (m : Nat) (int : -2147483648 < year ∧ year ≤ 2147483647)
    : ∃ dow, zeller year m = some dow ∧ 0 ≤ dow ∧ dow < 7 := by
  have weekday : ∀ sum : Int, 0 ≤ (if sum.tmod 7 < 0 then sum.tmod 7 + 7 else sum.tmod 7)
      ∧ (if sum.tmod 7 < 0 then sum.tmod 7 + 7 else sum.tmod 7) < 7 := by
    intro sum
    have week := tdiv_tmod sum (show (0 : Int) < 7 by norm_num)
    split_ifs <;> omega
  have quotient : ∀ a b : Int, 0 < b → -(a.natAbs : Int) ≤ a.tdiv b ∧ a.tdiv b ≤ a.natAbs := by
    intro a b _
    have less := Int.natAbs_tdiv_le_natAbs a b
    omega
  unfold zeller
  simp only [Option.bind_eq_bind]
  rw [int32_some (by split_ifs <;> omega) (by split_ifs <;> omega), Option.bind_some]
  generalize same : (if m ≤ 2 then year - 1 else year) = yy0
  have century : -21474836 ≤ yy0.tdiv 100 ∧ yy0.tdiv 100 ≤ 21474836
      ∧ -99 ≤ yy0.tmod 100 ∧ yy0.tmod 100 ≤ 99 := by
    have parts := tdiv_tmod yy0 (show (0 : Int) < 100 by norm_num)
    split_ifs at same <;> omega
  generalize yy0.tdiv 100 = yy1 at century
  generalize yy0.tmod 100 = yy2 at century
  have month := quotient (26 * (((m : Int) + 9) % 12 + 1) - 2) 10 (by norm_num)
  have first := quotient yy1 4 (by norm_num)
  have second := quotient yy2 4 (by norm_num)
  rw [int32_some (by omega) (by omega), Option.bind_some, int32_some (by omega) (by omega)]
  exact ⟨_, rfl, weekday _⟩

theorem weekLoop_bounds (length : Int) (weeks : Nat) (d : Int)
    : d ≤ weekLoop length weeks d ∧ weekLoop length weeks d ≤ max d length := by
  induction weeks generalizing d with
  | zero => exact ⟨le_rfl, le_max_left _ _⟩
  | succ weeks ih =>
    rw [weekLoop]
    split_ifs with full
    · exact ⟨le_rfl, le_max_left _ _⟩
    · have rest := ih (d + 7)
      omega

theorem monYdayAt_bounds (around : Int → UInt16) (leap : Bool) (month : Int)
    : 0 ≤ monYdayAt around leap month ∧ monYdayAt around leap month < 2 ^ 16 := by
  unfold monYdayAt
  generalize (month + if leap = true then 13 else 0) = i
  dsimp only
  split_ifs
  · exact monYday_bounds _ _
  · exact monYday_bounds _ _
  · have less := (around i).toNat_lt
    omega

variable {rule : TzRule}

section

variable (around : Int → UInt16)
include around

private theorem ruleDays_some (sized : rule.Sized) (int : -2147483648 < year ∧ year ≤ 2147483647)
    : ∃ days, ruleDays around rule year = some days ∧ -2 ^ 17 ≤ days ∧ days ≤ 2 ^ 18 := by
  have day := sized.d
  unfold ruleDays
  cases rule.type with
  | J0 => exact ⟨_, rfl, by omega, by omega⟩
  | J1 =>
    refine ⟨_, rfl, ?_⟩
    split_ifs <;> omega
  | M =>
    obtain ⟨dow, weekday, low, high⟩ := zeller_some rule.m int
    have before := monYdayAt_bounds around (isleap year) (rule.m - 1)
    have after := monYdayAt_bounds around (isleap year) rule.m
    rw [weekday, Option.bind_eq_bind]
    refine ⟨_, rfl, ?_⟩
    generalize first : (if (rule.d : Int) - dow < 0 then (rule.d : Int) - dow + 7
      else (rule.d : Int) - dow) = d
    have weeks := weekLoop_bounds (monYdayAt around (isleap year) rule.m
      - monYdayAt around (isleap year) (rule.m - 1)) (rule.n - 1) d
    split_ifs at first <;> omega

theorem changeTime_some (sized : rule.Sized) (int : -2147483648 < year) (early : year ≤ lastRuleYear)
    : ∃ days, ruleDays around rule year = some days ∧ -2 ^ 17 ≤ days ∧ days ≤ 2 ^ 18
      ∧ changeTime around rule year = some ((if year > 1970 then 86400 * newYear year else 0)
        + days * 86400 - rule.offset + rule.secs) := by
  have last : lastRuleYear = 5881459 := rfl
  obtain ⟨days, found, low, high⟩ := ruleDays_some around sized
    (show -2147483648 < year ∧ year ≤ 2147483647 by omega)
  have start : -2 ^ 60 ≤ (if year > 1970 then 86400 * newYear year else 0)
      ∧ (if year > 1970 then 86400 * newYear year else 0) ≤ 2 ^ 60 := by
    unfold newYear leapsThrough
    split_ifs <;> omega
  have secs := sized.secs
  have offset := sized.offset
  refine ⟨days, found, low, high, ?_⟩
  unfold changeTime
  rw [yearStart_eq early, Option.bind_eq_bind, Option.bind_some, found, Option.bind_some,
    int64_some (by omega) (by omega)]

theorem computeChange_some (sized : rule.Sized) (int : -2147483648 < year) (early : year ≤ lastRuleYear)
    : ∃ rule', computeChange around rule year = some rule' ∧ rule'.Sized
      ∧ rule'.computedFor = year := by
  unfold computeChange
  split_ifs with cached
  · exact ⟨rule, rfl, sized, cached.2⟩
  · obtain ⟨days, -, -, -, change⟩ := changeTime_some around sized int early
    rw [change]
    exact ⟨_, rfl, ⟨sized.m, sized.n, sized.d, sized.secs, sized.offset⟩, rfl⟩

theorem computeChange_none (cached : rule.computedFor ≤ lastRuleYear) (late : lastRuleYear < year)
    (int : year ≤ 2147483647)
    : computeChange around rule year = none := by
  unfold computeChange changeTime
  rw [if_neg (by omega), yearStart_none late int]
  rfl

end

end Nglibc.Time
