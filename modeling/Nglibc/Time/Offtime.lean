import Nglibc.Lib.CheckedInt
import Nglibc.Lib.Gregorian

/-! `__offtime` of `time/offtime.c`. An operation that overflows makes the computation `none`. -/

namespace Nglibc.Time

open Nglibc.Gregorian

structure Tm where
  sec : Int
  min : Int
  hour : Int
  mday : Int
  mon : Int
  year : Int
  wday : Int
  yday : Int
  isdst : Int
  gmtoff : Int
  zone : List UInt8
deriving DecidableEq

def isleap (year : Int) : Bool := year.tmod 4 == 0 && (year.tmod 100 != 0 || year.tmod 400 == 0)

def monYday (leap : Bool) (month : Nat) : Int := monthStart leap month

/-- The loop that makes `rem` nonnegative. -/
def borrowLoop : Nat → Int → Int → Option (Int × Int)
  | 0, _, _ => none
  | fuel + 1, rem, days =>
    if rem < 0 then do
      let rem ← int64 (rem + 86400)
      let days ← int64 (days - 1)
      borrowLoop fuel rem days
    else some (rem, days)

/-- The loop that makes `rem` less than a day. -/
def carryLoop : Nat → Int → Int → Option (Int × Int)
  | 0, _, _ => none
  | fuel + 1, rem, days =>
    if rem ≥ 86400 then do
      let rem ← int64 (rem - 86400)
      let days ← int64 (days + 1)
      carryLoop fuel rem days
    else some (rem, days)

def div (a b : Int) : Int := a.tdiv b - if a.tmod b < 0 then 1 else 0

def leapsThruEndOf (y : Int) : Option Int := do
  let part ← int64 (div y 4 - div y 100)
  int64 (part + div y 400)

def yearLoop : Nat → Int → Int → Option (Int × Int)
  | 0, _, _ => none
  | fuel + 1, y, days =>
    if days < 0 ∨ days ≥ (if isleap y then 366 else 365) then do
      let guess ← int64 (y + days.tdiv 365)
      let yg ← int64 (guess - if days.tmod 365 < 0 then 1 else 0)
      let years ← int64 (yg - y)
      let common ← int64 (years * 365)
      let leaps ← (int64 (yg - 1)).bind leapsThruEndOf
      let sum ← int64 (common + leaps)
      let before ← (int64 (y - 1)).bind leapsThruEndOf
      let sum ← int64 (sum - before)
      let days ← int64 (days - sum)
      yearLoop fuel yg days
    else some (y, days)

def monthLoop (leap : Bool) (days : Int) : Nat → Nat
  | 0 => 0
  | month + 1 => if days < monYday leap (month + 1) then monthLoop leap days month else month + 1

/-- `__offtime`. Inside, `none` is the failure with `EOVERFLOW`. -/
def offtime (t offset : Int) (tp : Tm) : Option (Option Tm) := do
  let rem ← int64 (t.tmod 86400 + offset)
  let (rem, days) ← borrowLoop (rem.natAbs + 1) rem (t.tdiv 86400)
  let (rem, days) ← carryLoop (rem.natAbs + 1) rem days
  let weekday ← int64 (4 + days)
  let wday := weekday.tmod 7
  let (y, yday) ← yearLoop (days.natAbs + 2) 1970 days
  let year ← int64 (y - 1900)
  if wrap 32 year ≠ year then return none
  let mon := monthLoop (isleap y) yday 11
  return some { tp with
    sec := (rem.tmod 3600).tmod 60
    min := (rem.tmod 3600).tdiv 60
    hour := rem.tdiv 3600
    mday := yday - monYday (isleap y) mon + 1
    mon := mon
    year := year
    wday := if wday < 0 then wday + 7 else wday
    yday := yday }

/-- The seconds of a broken-down time, where the year, the day of the year, the hour, the minute
and the second count.
-/
def seconds (year yday hour min sec : Int) : Int :=
  86400 * (newYear (year + 1900) + yday) + 3600 * hour + 60 * min + sec

/-- The normalized form of a time, all fields of which are in their ranges. -/
structure BrokenDown (t : Int) (tm : Tm) : Prop where
  time : seconds tm.year tm.yday tm.hour tm.min tm.sec = t
  sec : 0 ≤ tm.sec ∧ tm.sec < 60
  min : 0 ≤ tm.min ∧ tm.min < 60
  hour : 0 ≤ tm.hour ∧ tm.hour < 24
  yday : 0 ≤ tm.yday ∧ tm.yday < yearLength (tm.year + 1900)
  mon : 0 ≤ tm.mon ∧ tm.mon < 12
  mday : 1 ≤ tm.mday ∧ tm.yday = monthStart (isleap (tm.year + 1900)) tm.mon.toNat + tm.mday - 1
  last : tm.yday < monthStart (isleap (tm.year + 1900)) (tm.mon.toNat + 1)
  wday : tm.wday = (4 + t / 86400) % 7
  year : -2147483648 ≤ tm.year ∧ tm.year ≤ 2147483647

/-- The time falls in a year that `tm_year` can represent. -/
def Representable (t : Int) : Prop :=
  86400 * newYear (1900 - 2147483648) ≤ t ∧ t < 86400 * newYear (1900 + 2147483648)

theorem isleap_iff (year : Int) : isleap year = true ↔ IsLeap year := by
  unfold isleap IsLeap
  simp only [Bool.and_eq_true, Bool.or_eq_true, beq_iff_eq, bne_iff_ne, ne_eq, tmod_eq_zero]

theorem isleap_length (year : Int)
    : (if isleap year = true then (366 : Int) else 365) = yearLength year := by
  unfold yearLength
  simp only [isleap_iff]

theorem leapsThruEndOf_eq {y : Int} (lower : -2 ^ 60 ≤ y) (upper : y ≤ 2 ^ 60)
    : leapsThruEndOf y = some (leapsThrough y) := by
  unfold leapsThruEndOf div leapsThrough
  rw [← ediv_eq_tdiv y (by norm_num), ← ediv_eq_tdiv y (by norm_num),
    ← ediv_eq_tdiv y (by norm_num), int64_some (by omega) (by omega)]
  exact int64_some (by omega) (by omega)

variable {fuel : Nat}

theorem borrowLoop_eq {rem days : Int} (fuelled : (-rem).toNat < fuel)
    (small : -2 ^ 50 ≤ rem ∧ rem ≤ 2 ^ 50) (few : -2 ^ 50 ≤ days + rem ∧ days ≤ 2 ^ 50)
    : ∃ rem' days', borrowLoop fuel rem days = some (rem', days')
      ∧ rem' + 86400 * days' = rem + 86400 * days ∧ 0 ≤ rem' ∧ (rem' < 86400 ∨ rem' = rem) := by
  induction fuel generalizing rem days with
  | zero => omega
  | succ fuel ih =>
    rw [borrowLoop]
    split_ifs with negative
    · rw [int64_some (by omega) (by omega), int64_some (by omega) (by omega)]
      obtain ⟨rem', days', loop, same, nonneg, less⟩ :=
        @ih (rem + 86400) (days - 1) (by omega) (by omega) (by omega)
      exact ⟨rem', days', loop, by omega, nonneg, by omega⟩
    · exact ⟨rem, days, rfl, rfl, by omega, .inr rfl⟩

theorem carryLoop_eq {rem days : Int} (fuelled : rem.toNat < fuel) (nonneg : 0 ≤ rem)
    (small : rem ≤ 2 ^ 50) (few : -2 ^ 51 ≤ days ∧ days + rem ≤ 2 ^ 51)
    : ∃ rem' days', carryLoop fuel rem days = some (rem', days')
      ∧ rem' + 86400 * days' = rem + 86400 * days ∧ 0 ≤ rem' ∧ rem' < 86400 := by
  induction fuel generalizing rem days with
  | zero => omega
  | succ fuel ih =>
    rw [carryLoop]
    split_ifs with full
    · rw [int64_some (by omega) (by omega), int64_some (by omega) (by omega)]
      obtain ⟨rem', days', loop, same, range⟩ :=
        @ih (rem - 86400) (days + 1) (by omega) (by omega) (by omega) (by omega)
      exact ⟨rem', days', loop, by omega, range⟩
    · exact ⟨rem, days, rfl, rfl, nonneg, by omega⟩

def daysLeft (y days : Int) : Int :=
  days - (days / 365 * 365 + leapsThrough (y + days / 365 - 1) - leapsThrough (y - 1))

theorem newYear_daysLeft (y days : Int)
    : newYear (y + days / 365) + daysLeft y days = newYear y + days := by
  unfold newYear daysLeft
  omega

theorem leapsThrough_between {y k : Int} (nonneg : 0 ≤ k)
    : 0 ≤ leapsThrough (y + k) - leapsThrough y
      ∧ 4 * (leapsThrough (y + k) - leapsThrough y) ≤ k + 3 := by
  unfold leapsThrough
  omega

/-- Either the guess is right, or there are fewer years left than before. -/
theorem daysLeft_less {y days : Int} (outside : days < 0 ∨ days ≥ yearLength y)
    : (0 ≤ daysLeft y days ∧ daysLeft y days < yearLength (y + days / 365))
      ∨ (daysLeft y days / 365).natAbs < (days / 365).natAbs := by
  have here := yearLength_bounds y
  have there := yearLength_bounds (y + days / 365)
  unfold daysLeft
  generalize years : days / 365 = k at *
  rcases lt_trichotomy k 0 with down | rfl | up
  · have leaps := @leapsThrough_between (y + k - 1) (-k) (by omega)
    rw [show y + k - 1 + -k = y - 1 by omega] at leaps
    by_cases one : k = -1
    · subst one
      left
      have last := leapsThrough_succ (y + -1)
      rw [show y - 1 = y + -1 by omega]
      unfold yearLength
      split_ifs at last ⊢ <;> omega
    · right
      omega
  · omega
  · have leaps := @leapsThrough_between (y - 1) k (by omega)
    rw [show y - 1 + k = y + k - 1 by omega] at leaps
    by_cases one : k = 1
    · subst one
      left
      have last := leapsThrough_succ y
      rw [show y + 1 - 1 = y by omega]
      unfold yearLength at outside here
      split_ifs at last outside here <;> omega
    · right
      omega

private theorem yearLoop_step {y days : Int} (outside : days < 0 ∨ days ≥ yearLength y)
    (around : -2 ^ 52 ≤ y ∧ y ≤ 2 ^ 52) (small : (days / 365).natAbs ≤ 2 ^ 42)
    : yearLoop (fuel + 1) y days = yearLoop fuel (y + days / 365) (daysLeft y days) := by
  have leaps : ∀ year, -2 ^ 53 ≤ year → year ≤ 2 ^ 53 →
      -2 ^ 53 ≤ leapsThrough year ∧ leapsThrough year ≤ 2 ^ 53 := by
    intro year lower upper
    unfold leapsThrough
    omega
  have before := leaps (y - 1) (by omega) (by omega)
  have after := leaps (y + days / 365 - 1) (by omega) (by omega)
  have truncated := tdiv_tmod days (show (0 : Int) < 365 by norm_num)
  have guess : y + days.tdiv 365 - (if days.tmod 365 < 0 then 1 else 0) = y + days / 365 := by
    omega
  have years : y + days / 365 - y = days / 365 := by omega
  rw [yearLoop, isleap_length, if_pos outside, int64_some (by omega) (by omega),
    Option.bind_eq_bind, Option.bind_some, guess, int64_some (by omega) (by omega),
    Option.bind_some, years, int64_some (by omega) (by omega), Option.bind_some,
    int64_some (by omega) (by omega), Option.bind_some, int64_some (by omega) (by omega),
    Option.bind_some, leapsThruEndOf_eq (by omega) (by omega), Option.bind_some,
    int64_some (by omega) (by omega), Option.bind_some, int64_some (by omega) (by omega),
    Option.bind_some, leapsThruEndOf_eq (by omega) (by omega), Option.bind_some,
    int64_some (by omega) (by omega), Option.bind_some, int64_some (by omega) (by omega)]
  rfl

private theorem yearLoop_eq {y days : Int} (some : 0 < fuel)
    (fuelled : (0 ≤ days ∧ days < yearLength y) ∨ (days / 365).natAbs < fuel)
    (small : (days / 365).natAbs ≤ 2 ^ 42) (near : -2 ^ 50 ≤ newYear y + days ∧ newYear y + days ≤ 2 ^ 50)
    : ∃ y' days', yearLoop fuel y days = Option.some (y', days')
      ∧ newYear y' + days' = newYear y + days ∧ 0 ≤ days' ∧ days' < yearLength y' := by
  induction fuel generalizing y days with
  | zero => omega
  | succ fuel ih =>
    by_cases outside : days < 0 ∨ days ≥ yearLength y
    · have less := daysLeft_less outside
      have same := newYear_daysLeft y days
      have short := yearLength_bounds (y + days / 365)
      have long := yearLength_bounds y
      have around : -2 ^ 52 ≤ y ∧ y ≤ 2 ^ 52 := by
        unfold newYear leapsThrough at near
        omega
      rw [yearLoop_step outside around small, ← same]
      refine ih ?_ ?_ ?_ ?_
      · omega
      · omega
      · omega
      · omega
    · rw [yearLoop, isleap_length, if_neg outside]
      exact ⟨y, days, rfl, rfl, by omega, by omega⟩

theorem monYday_bounds (leap : Bool) (month : Nat)
    : 0 ≤ monYday leap month ∧ monYday leap month < 2 ^ 16 := by
  rcases lt_or_ge month 13 with inside | outside
  · revert leap month
    decide
  · unfold monYday monthStart
    have none : ∀ days : List Int, days.length = 13 → days.getD month 0 = 0 := by
      intro days size
      rw [List.getD_eq_getElem?_getD, List.getElem?_eq_none (by omega), Option.getD_none]
    rw [none _ rfl, none _ rfl]
    split_ifs <;> decide

theorem monthLoop_eq (leap : Bool) {days : Int} (nonneg : 0 ≤ days) (n : Nat)
    (before : days < monYday leap (n + 1))
    : monthLoop leap days n ≤ n ∧ monYday leap (monthLoop leap days n) ≤ days
      ∧ days < monYday leap (monthLoop leap days n + 1) := by
  induction n with
  | zero =>
    refine ⟨Nat.le_refl 0, ?_, before⟩
    cases leap <;> exact nonneg
  | succ n ih =>
    rw [monthLoop]
    split_ifs with earlier
    · obtain ⟨less, found⟩ := ih earlier
      exact ⟨by omega, found⟩
    · exact ⟨le_rfl, by omega, before⟩

theorem yearLength_eq_monYday (year : Int) : yearLength year = monYday (isleap year) 12 := by
  rw [← isleap_length]
  cases isleap year <;> rfl

/-- The fields that `__offtime` sets for a day, a time of the day and a year. -/
def Tm.set (tp : Tm) (rem days y yday : Int) : Tm :=
  { tp with
    sec := (rem.tmod 3600).tmod 60
    min := (rem.tmod 3600).tdiv 60
    hour := rem.tdiv 3600
    mday := yday - monYday (isleap y) (monthLoop (isleap y) yday 11) + 1
    mon := monthLoop (isleap y) yday 11
    year := y - 1900
    wday := if (4 + days).tmod 7 < 0 then (4 + days).tmod 7 + 7 else (4 + days).tmod 7
    yday := yday }

/-- The day and the time of the day, and the year of the day. -/
theorem offtime_steps {t offset : Int} (tp : Tm) (long : -2 ^ 63 ≤ t ∧ t < 2 ^ 63)
    (short : -2 ^ 40 ≤ offset ∧ offset ≤ 2 ^ 40)
    : ∃ y yday, newYear y + yday = (t + offset) / 86400 ∧ 0 ≤ yday ∧ yday < yearLength y
      ∧ offtime t offset tp = if wrap 32 (y - 1900) ≠ y - 1900 then some none
        else some (some (tp.set ((t + offset) % 86400) ((t + offset) / 86400) y yday)) := by
  have truncated := tdiv_tmod t (show (0 : Int) < 86400 by norm_num)
  obtain ⟨rem₁, days₁, borrow, same₁, nonneg, below⟩ :=
    @borrowLoop_eq ((t.tmod 86400 + offset).natAbs + 1) (t.tmod 86400 + offset) (t.tdiv 86400)
      (by omega) (by omega) (by omega)
  obtain ⟨rem, days, carry, same₂, low, high⟩ :=
    @carryLoop_eq (rem₁.natAbs + 1) rem₁ days₁ (by omega) nonneg (by omega) (by omega)
  have whole : days = (t + offset) / 86400 ∧ rem = (t + offset) % 86400 := by omega
  obtain ⟨y, yday, loop, same, first, last⟩ :=
    @yearLoop_eq (days.natAbs + 2) 1970 days (by omega) (by omega) (by omega)
      (by rw [newYear_1970]; omega)
  rw [newYear_1970] at same
  have near : -2 ^ 52 ≤ y ∧ y ≤ 2 ^ 52 := by
    have short := yearLength_bounds y
    unfold newYear leapsThrough at same
    omega
  refine ⟨y, yday, by omega, first, last, ?_⟩
  rw [← whole.1, ← whole.2]
  unfold offtime
  simp only [Option.bind_eq_bind]
  rw [int64_some (by omega) (by omega), Option.bind_some, borrow, Option.bind_some]
  rw [carry, Option.bind_some]
  rw [int64_some (by omega) (by omega), Option.bind_some, loop, Option.bind_some]
  rw [int64_some (by omega) (by omega)]
  rfl

/-- The fields set from day and second are those of the time broken down. -/
theorem Tm.set_brokenDown (tp : Tm) {t y yday : Int} (day : newYear y + yday = t / 86400)
    (first : 0 ≤ yday) (last : yday < yearLength y)
    (year : -2147483648 ≤ y - 1900 ∧ y - 1900 ≤ 2147483647)
    : BrokenDown t (tp.set (t % 86400) (t / 86400) y yday) := by
  have hours := tdiv_tmod (t % 86400) (show (0 : Int) < 3600 by norm_num)
  have minutes := tdiv_tmod ((t % 86400).tmod 3600) (show (0 : Int) < 60 by norm_num)
  have weekday := tdiv_tmod (4 + t / 86400) (show (0 : Int) < 7 by norm_num)
  have back : y - 1900 + 1900 = y := by omega
  obtain ⟨months, begun, ends⟩ := monthLoop_eq (isleap y) first 11
    (by rw [← yearLength_eq_monYday]; exact last)
  unfold Tm.set
  constructor
  · unfold seconds
    dsimp only
    rw [back]
    omega
  · dsimp only
    omega
  · dsimp only
    omega
  · dsimp only
    omega
  · rw [back]
    exact ⟨first, last⟩
  · dsimp only
    omega
  · dsimp only
    rw [back, Int.toNat_natCast]
    unfold monYday at begun ⊢
    omega
  · rw [back]
    exact ends
  · dsimp only
    split_ifs <;> omega
  · exact year

/-- `__offtime` breaks down every time in a year that can be represented, and fails for others. -/
theorem offtime_eq {t offset : Int} (tp : Tm) (long : -2 ^ 63 ≤ t ∧ t < 2 ^ 63)
    (short : -2 ^ 40 ≤ offset ∧ offset ≤ 2 ^ 40)
    : (Representable (t + offset) → ∃ tm, offtime t offset tp = some (some tm)
        ∧ BrokenDown (t + offset) tm
        ∧ tm.isdst = tp.isdst ∧ tm.gmtoff = tp.gmtoff ∧ tm.zone = tp.zone)
      ∧ (¬ Representable (t + offset) → offtime t offset tp = some none) := by
  obtain ⟨y, yday, day, first, last, run⟩ := offtime_steps tp long short
  have ends := newYear_succ y
  have range : Representable (t + offset) ↔ -2147483648 ≤ y - 1900 ∧ y - 1900 ≤ 2147483647 := by
    unfold Representable
    constructor
    · rintro ⟨low, high⟩
      by_contra outside
      rcases lt_or_ge y (1900 - 2147483648) with before | after
      · have := newYear_mono (show y + 1 ≤ 1900 - 2147483648 by omega)
        omega
      · have := newYear_mono (show 1900 + 2147483648 ≤ y by omega)
        omega
    · rintro ⟨low, high⟩
      have := newYear_mono (show 1900 - 2147483648 ≤ y by omega)
      have := newYear_mono (show y + 1 ≤ 1900 + 2147483648 by omega)
      omega
  rw [run, range, ← wrap32_eq_iff]
  constructor
  · intro inside
    rw [if_neg (not_not.mpr inside)]
    exact ⟨_, rfl, tp.set_brokenDown day first last ((wrap32_eq_iff _).mp inside), rfl, rfl, rfl⟩
  · intro outside
    rw [if_pos outside]

theorem BrokenDown.year_lt {t : Int} {tm : Tm} (down : BrokenDown t tm) (year : Int)
    : 1900 + tm.year < year ↔ t < 86400 * newYear year := by
  have time := down.time
  obtain ⟨sec, min, hour, yday⟩ := And.intro down.sec (And.intro down.min
    (And.intro down.hour down.yday))
  have ends := newYear_succ (tm.year + 1900)
  unfold seconds at time
  constructor
  · intro early
    have := newYear_mono (show tm.year + 1900 + 1 ≤ year by omega)
    omega
  · intro before
    by_contra late
    have := newYear_mono (show year ≤ tm.year + 1900 by omega)
    omega

/-- A year of the calendar has the time in it. -/
def InYear (t year : Int) : Prop := 86400 * newYear year ≤ t ∧ t < 86400 * newYear (year + 1)

theorem InYear.eq {t year other : Int} (inYear : InYear t year) (inOther : InYear t other)
    : other = year := by
  obtain ⟨low, high⟩ := inYear
  obtain ⟨low', high'⟩ := inOther
  rcases lt_trichotomy other year with before | same | after
  · have := newYear_mono (show other + 1 ≤ year by omega)
    omega
  · exact same
  · have := newYear_mono (show year + 1 ≤ other by omega)
    omega

theorem monthStart_mono (leap : Bool) {month later : Nat} (le : month ≤ later) (known : later ≤ 12)
    : monthStart leap month ≤ monthStart leap later := by
  have all : ∀ leap, ∀ later ≤ 12, ∀ month ≤ later, monthStart leap month ≤ monthStart leap later := by
    decide
  exact all leap later known month le

/-- A time has only one normalized form. -/
theorem BrokenDown.unique {t : Int} {tm tm' : Tm} (down : BrokenDown t tm) (down' : BrokenDown t tm')
    : tm' = { tm with isdst := tm'.isdst, gmtoff := tm'.gmtoff, zone := tm'.zone } := by
  have year : tm'.year = tm.year := by
    have le := (down.year_lt (1901 + tm.year)).trans (down'.year_lt _).symm
    have ge := (down.year_lt (1901 + tm'.year)).trans (down'.year_lt _).symm
    omega
  have time := down.time
  have time' := down'.time
  have clock := And.intro down.sec (And.intro down.min down.hour)
  have clock' := And.intro down'.sec (And.intro down'.min down'.hour)
  unfold seconds at time time'
  rw [year] at time'
  have yday : tm'.yday = tm.yday := by omega
  have mday := down.mday
  have mday' := down'.mday
  have last := down.last
  have last' := down'.last
  rw [year] at mday' last'
  have mon : tm'.mon = tm.mon := by
    have known := down.mon
    have known' := down'.mon
    rcases lt_trichotomy tm'.mon tm.mon with before | same | after
    · have := monthStart_mono (isleap (tm.year + 1900))
        (show tm'.mon.toNat + 1 ≤ tm.mon.toNat by omega) (by omega)
      omega
    · exact same
    · have := monthStart_mono (isleap (tm.year + 1900))
        (show tm.mon.toNat + 1 ≤ tm'.mon.toNat by omega) (by omega)
      omega
  rw [mon] at mday'
  have wday := down'.wday.trans down.wday.symm
  cases tm
  cases tm'
  dsimp only at *
  congr 1 <;> omega

/-- `__offtime` fails exactly for the times in a year that does not fit in `tm_year`, and finds the
one normalized form of the others. No operation on the way overflows.
-/
theorem offtime_exact {t offset : Int} (tp : Tm) (long : -2 ^ 63 ≤ t ∧ t < 2 ^ 63)
    (short : -1000000 ≤ offset ∧ offset ≤ 1000000)
    : ∃ year, InYear (t + offset) year ∧ (∀ other, InYear (t + offset) other → other = year)
      ∧ if -2147483648 ≤ year - 1900 ∧ year - 1900 ≤ 2147483647
        then ∃ tm, offtime t offset tp = some (some tm) ∧ tm.year = year - 1900
          ∧ BrokenDown (t + offset) tm
          ∧ (∀ tm', BrokenDown (t + offset) tm' →
            tm' = { tm with isdst := tm'.isdst, gmtoff := tm'.gmtoff, zone := tm'.zone })
          ∧ tm.isdst = tp.isdst ∧ tm.gmtoff = tp.gmtoff ∧ tm.zone = tp.zone
        else offtime t offset tp = some none := by
  obtain ⟨year, yday, day, first, last, run⟩ := @offtime_steps t offset tp long (by omega)
  have ends := newYear_succ year
  have inYear : InYear (t + offset) year := ⟨by omega, by omega⟩
  refine ⟨year, inYear, fun other => inYear.eq, ?_⟩
  rw [run]
  split_ifs with fits wide wide
  · exact absurd ((wrap32_eq_iff _).mpr fits) wide
  · have down := tp.set_brokenDown day first last fits
    exact ⟨_, rfl, rfl, down, fun tm' => down.unique, rfl, rfl, rfl⟩
  · rfl
  · exact absurd ((wrap32_eq_iff _).mp (not_not.mp wide)) fits

/-- The last time of 64 bits. -/
theorem offtime_exact_last
    : offtime 9223372036854775807 1000000 ⟨0, 0, 0, 0, 0, 0, 0, 0, 0, 0, []⟩ = some none := by
  obtain ⟨year, ⟨-, before⟩, -, result⟩ := @offtime_exact 9223372036854775807 1000000
    ⟨0, 0, 0, 0, 0, 0, 0, 0, 0, 0, []⟩ (by norm_num) (by norm_num)
  unfold newYear leapsThrough at before
  rwa [if_neg (by omega)] at result

end Nglibc.Time
