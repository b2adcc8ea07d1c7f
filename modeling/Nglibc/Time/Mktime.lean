import Nglibc.Time.Offtime

/-! `__mktime_internal` of `time/mktime.c`, for a conversion function that may keep a state. An
operation that overflows makes the computation `none`.
-/

namespace Nglibc.Time

open Nglibc.Gregorian

variable {σ : Type}

/-- A conversion of type `struct tm *(*) (const __time64_t *, struct tm *)`, from a state to a
state. Inside, `none` is the failure with `EOVERFLOW`.
-/
abbrev Convert (σ : Type) := σ → Int → Option (σ × Option Tm)

/-- `leapyear`, for a year from 1900 on. -/
def leapyear (year : Int) : Bool := year % 4 == 0 && (year.tmod 100 != 0 || year.tdiv 100 % 4 == 1)

def isdstDiffer (a b : Int) : Bool := (decide (a = 0) != decide (b = 0)) && decide (0 ≤ a ∧ 0 ≤ b)

def sum64 (terms : List Int) : Option Int := terms.foldlM (fun sum x => int64 (sum + x)) 0

def sum32 (terms : List Int) : Option Int := terms.foldlM (fun sum x => int32 (sum + x)) 0

def fours (year : Int) : Option Int := int32 (year / 4 + 475 - if year % 4 = 0 then 1 else 0)

def hundreds (a4 : Int) : Int := (a4 + if a4 < 0 then 1 else 0).tdiv 25 - if a4 < 0 then 1 else 0

def ydhmsDiff (year1 yday1 hour1 min1 sec1 year0 yday0 hour0 min0 sec0 : Int) : Option Int := do
  let a4 ← fours year1
  let b4 ← fours year0
  let a100 := hundreds a4
  let b100 := hundreds b4
  let by4 ← int32 (a4 - b4)
  let by100 ← int32 (a100 - b100)
  let by400 ← int32 (a100 / 4 - b100 / 4)
  let interveningLeapDays ← sum32 [by4, -by100, by400]
  let years ← int64 (year1 - year0)
  let days ← sum64 [365 * years, yday1, -yday0, interveningLeapDays]
  let hours ← sum64 [24 * days, hour1, -hour0]
  let minutes ← sum64 [60 * hours, min1, -min0]
  sum64 [60 * minutes, sec1, -sec0]

def longIntAvg (a b : Int) : Int := a / 2 + b / 2 + if a % 2 = 1 ∨ b % 2 = 1 then 1 else 0

/-- The binary search of `ranged_convert`. -/
def searchLoop (convert : Convert σ) : Nat → σ → Int → Int → Option Tm
    → Option (σ × Option (Int × Tm))
  | 0, _, _, _, _ => none
  | fuel + 1, z, bad, ok, oktm =>
    let mid := longIntAvg ok bad
    if mid = ok ∨ mid = bad then
      some (z, (oktm.filter fun tm => decide (0 ≤ tm.sec)).map fun tm => (ok, tm))
    else do
      match ← convert z mid with
      | (z, some tm) => searchLoop convert fuel z bad mid (some tm)
      | (z, none) => searchLoop convert fuel z mid ok oktm

/-- `ranged_convert`: the time that was converted and its form. Every value of type `long_int` is
in the range of `__time64_t`.
-/
def rangedConvert (convert : Convert σ) (z : σ) (t : Int) : Option (σ × Option (Int × Tm)) := do
  match ← convert z t with
  | (z, some tm) => return (z, some (t, tm))
  | (z, none) => searchLoop convert (t.natAbs + 1) z t 0 none

/-- The time requested, with the month carried to the year. -/
structure Requested where
  year : Int
  yday : Int
  hour : Int
  min : Int
  sec : Int
  isdst : Int

def tmDiff (req : Requested) (tm : Tm) : Option Int :=
  ydhmsDiff req.year req.yday req.hour req.min req.sec tm.year tm.yday tm.hour tm.min tm.sec

/-- How the loop over probes ends: with a match, with an oscillation or with a failure. -/
inductive ProbeEnd where
  | matched (t : Int) (tm : Tm)
  | oscillates (t : Int) (tm : Tm)
  | failed

/-- Whether the probe at `t` shows that there is no match. -/
def oscillating (req : Requested) (t t1 t2 : Int) (dst2 : Bool) (tm : Tm) : Bool :=
  decide (t = t1 ∧ t ≠ t2)
    && (decide (tm.isdst < 0)
      || if req.isdst < 0 then !dst2 || decide (tm.isdst ≠ 0)
        else decide (req.isdst ≠ 0) != decide (tm.isdst ≠ 0))

/-- The loop of `__mktime_internal`, with the probes that remain. -/
def probeLoop (convert : Convert σ) (req : Requested)
    : Nat → σ → Int → Int → Int → Bool → Option (σ × ProbeEnd)
  | 0, z, _, _, _, _ => some (z, .failed)
  | remaining + 1, z, t, t1, t2, dst2 => do
    match ← rangedConvert convert z t with
    | (z, none) => return (z, .failed)
    | (z, some (t, tm)) =>
      let dt ← tmDiff req tm
      if dt = 0 then return (z, .matched t tm)
      else if oscillating req t t1 t2 dst2 tm then return (z, .oscillates t tm)
      else if remaining = 0 then return (z, .failed)
      else
        let next ← int64 (t + dt)
        probeLoop convert req remaining z next t2 t (decide (tm.isdst ≠ 0))

/-- The distances at which neighbours are probed. -/
def strides : List Int := (List.range 381).flatMap fun k => [-601200 * (k + 1), 601200 * (k + 1)]

inductive NeighbourEnd where
  | found (t : Int) (tm : Tm)
  | failed
  | notFound

/-- The search for a neighbouring time with the requested `tm_isdst`. -/
def neighbourLoop (convert : Convert σ) (req : Requested) (t : Int)
    : List Int → σ → Option (σ × NeighbourEnd)
  | [], z => some (z, .notFound)
  | delta :: deltas, z =>
    match int64 (t + delta) with
    | none => neighbourLoop convert req t deltas z
    | some ot => do
      match ← rangedConvert convert z ot with
      | (z, none) => return (z, .failed)
      | (z, some (ot, otm)) =>
        if isdstDiffer req.isdst otm.isdst then neighbourLoop convert req t deltas z
        else
          let dt ← tmDiff req otm
          let gt ← int64 (ot + dt)
          match ← convert z gt with
          | (z, some tm) => return (z, .found gt tm)
          | (z, none) => neighbourLoop convert req t deltas z

/-- What `__mktime_internal` returns: the value, whether it fails with `EOVERFLOW`, what it leaves
in `*tp` and in `*offset`.
-/
structure MktimeResult where
  value : Int
  overflow : Bool
  tm : Tm
  offset : Int
deriving DecidableEq

/-- The time requested, with its seconds between 0 and 59. -/
def requested (tp : Tm) : Option Requested := do
  let negative : Int := if tp.mon.tmod 12 < 0 then 1 else 0
  let monYears ← int32 (tp.mon.tdiv 12 - negative)
  let year ← int64 (tp.year + monYears)
  let month := tp.mon.tmod 12 + 12 * negative
  let yday ← int64 (monYday (leapyear year) month.toNat - 1 + tp.mday)
  return {
    year := year
    yday := yday
    hour := tp.hour
    min := tp.min
    sec := if tp.sec < 0 then 0 else if 59 < tp.sec then 59 else tp.sec
    isdst := tp.isdst }

/-- The end of `__mktime_internal`, from `offset_found` on. -/
def offsetFound (convert : Convert σ) (tp : Tm) (req : Requested) (t0 guess : Int) (z : σ)
    (t : Int) (tm : Tm)
    : Option (σ × MktimeResult) := do
  let offset := wrap 64 (wrap 64 (t - t0) - guess)
  if tp.sec ≠ tm.sec then
    let adjustment := (if req.sec = 0 ∧ tm.sec = 60 then 1 else 0) - req.sec + tp.sec
    match int64 (t + adjustment) with
    | none => return (z, ⟨-1, true, tp, offset⟩)
    | some t =>
      match ← convert z t with
      | (z, none) => return (z, ⟨-1, true, tp, offset⟩)
      | (z, some tm) => return (z, ⟨t, false, tm, offset⟩)
  else return (z, ⟨t, false, tm, offset⟩)

def mktimeInternal (convert : Convert σ) (z : σ) (tp : Tm) (offset : Int)
    : Option (σ × MktimeResult) := do
  let req ← requested tp
  let guess := wrap 32 (-offset)
  let t0 ← ydhmsDiff req.year req.yday req.hour req.min req.sec 70 0 0 0 guess
  match ← probeLoop convert req 6 z t0 t0 t0 false with
  | (z, .failed) => return (z, ⟨-1, true, tp, offset⟩)
  | (z, .oscillates t tm) => offsetFound convert tp req t0 guess z t tm
  | (z, .matched t tm) =>
    if isdstDiffer req.isdst tm.isdst then
      let difference : Int := (if req.isdst = 0 then 1 else 0) - if tm.isdst = 0 then 1 else 0
      match ← neighbourLoop convert req t strides z with
      | (z, .failed) => return (z, ⟨-1, true, tp, offset⟩)
      | (z, .found t tm) => offsetFound convert tp req t0 guess z t tm
      | (z, .notFound) =>
        let t ← int64 (t + 3600 * difference)
        match ← convert z t with
        | (z, none) => return (z, ⟨-1, true, tp, offset⟩)
        | (z, some tm) => offsetFound convert tp req t0 guess z t tm
    else offsetFound convert tp req t0 guess z t tm

end Nglibc.Time

/-! Differences of broken-down times are exact, and the requested time keeps its value when its
month is carried to the year.
-/

namespace Nglibc.Time

open Nglibc.Gregorian

theorem fours_eq {year : Int} (lower : -2 ^ 32 ≤ year) (upper : year ≤ 2 ^ 32)
    : fours year = some ((year + 1899) / 4) := by
  have same : year / 4 + 475 - (if year % 4 = 0 then 1 else 0) = (year + 1899) / 4 := by
    split_ifs <;> omega
  unfold fours
  rw [same]
  exact int32_some (by omega) (by omega)

theorem hundreds_eq (a4 : Int) : hundreds a4 = a4 / 25 := by
  unfold hundreds
  have truncated := tdiv_tmod (a4 + if a4 < 0 then 1 else 0) (show (0 : Int) < 25 by norm_num)
  split_ifs at truncated ⊢ <;> omega

theorem sum32_three {a b c : Int} (first : -2 ^ 31 ≤ a ∧ a < 2 ^ 31)
    (second : -2 ^ 31 ≤ a + b ∧ a + b < 2 ^ 31) (third : -2 ^ 31 ≤ a + b + c ∧ a + b + c < 2 ^ 31)
    : sum32 [a, b, c] = some (a + b + c) := by
  simp only [sum32, List.foldlM_cons, List.foldlM_nil, zero_add]
  rw [int32_some (by omega) (by omega), Option.bind_eq_bind, Option.bind_some,
    int32_some (by omega) (by omega), Option.bind_some, int32_some (by omega) (by omega)]
  rfl

theorem sum64_three {a b c : Int} (first : -2 ^ 61 ≤ a ∧ a ≤ 2 ^ 61)
    (second : -2 ^ 61 ≤ b ∧ b ≤ 2 ^ 61) (third : -2 ^ 61 ≤ c ∧ c ≤ 2 ^ 61)
    : sum64 [a, b, c] = some (a + b + c) := by
  simp only [sum64, List.foldlM_cons, List.foldlM_nil, zero_add]
  rw [int64_some (by omega) (by omega), Option.bind_eq_bind, Option.bind_some,
    int64_some (by omega) (by omega), Option.bind_some, int64_some (by omega) (by omega)]
  rfl

theorem sum64_four {a b c d : Int} (first : -2 ^ 60 ≤ a ∧ a ≤ 2 ^ 60)
    (second : -2 ^ 60 ≤ b ∧ b ≤ 2 ^ 60) (third : -2 ^ 60 ≤ c ∧ c ≤ 2 ^ 60)
    (fourth : -2 ^ 60 ≤ d ∧ d ≤ 2 ^ 60)
    : sum64 [a, b, c, d] = some (a + b + c + d) := by
  simp only [sum64, List.foldlM_cons, List.foldlM_nil, zero_add]
  rw [int64_some (by omega) (by omega), Option.bind_eq_bind, Option.bind_some,
    int64_some (by omega) (by omega), Option.bind_some, int64_some (by omega) (by omega),
    Option.bind_some, int64_some (by omega) (by omega)]
  rfl

/-- Fields of a struct that differences are taken of. -/
structure Fields (year yday hour min sec : Int) : Prop where
  year : -2 ^ 31 - 2 ^ 28 ≤ year ∧ year ≤ 2 ^ 31 + 2 ^ 28
  yday : -2 ^ 32 ≤ yday ∧ yday ≤ 2 ^ 32
  hour : -2 ^ 31 ≤ hour ∧ hour < 2 ^ 31
  min : -2 ^ 31 ≤ min ∧ min < 2 ^ 31
  sec : -2 ^ 31 ≤ sec ∧ sec < 2 ^ 31

theorem leapDays_eq (year1 year0 : Int)
    : (year1 + 1899) / 4 - (year0 + 1899) / 4 + -((year1 + 1899) / 4 / 25 - (year0 + 1899) / 4 / 25)
        + ((year1 + 1899) / 4 / 25 / 4 - (year0 + 1899) / 4 / 25 / 4)
      = leapsThrough (year1 + 1899) - leapsThrough (year0 + 1899) := by
  unfold leapsThrough
  omega

theorem ydhmsDiff_eq {year1 yday1 hour1 min1 sec1 year0 yday0 hour0 min0 sec0 : Int}
    (fields1 : Fields year1 yday1 hour1 min1 sec1) (fields0 : Fields year0 yday0 hour0 min0 sec0)
    : ydhmsDiff year1 yday1 hour1 min1 sec1 year0 yday0 hour0 min0 sec0
      = some (seconds year1 yday1 hour1 min1 sec1 - seconds year0 yday0 hour0 min0 sec0) := by
  obtain ⟨y1, d1, h1, m1, s1⟩ := fields1
  obtain ⟨y0, d0, h0, m0, s0⟩ := fields0
  have leaps := leapDays_eq year1 year0
  unfold ydhmsDiff
  simp only [Option.bind_eq_bind]
  rw [fours_eq (by omega) (by omega), Option.bind_some, fours_eq (by omega) (by omega),
    Option.bind_some]
  simp only [hundreds_eq]
  rw [int32_some (by omega) (by omega), Option.bind_some, int32_some (by omega) (by omega),
    Option.bind_some, int32_some (by omega) (by omega), Option.bind_some,
    sum32_three (by omega) (by omega) (by omega), Option.bind_some,
    int64_some (by omega) (by omega), Option.bind_some,
    sum64_four (by omega) (by omega) (by omega) (by omega), Option.bind_some,
    sum64_three (by omega) (by omega) (by omega), Option.bind_some,
    sum64_three (by omega) (by omega) (by omega), Option.bind_some,
    sum64_three (by omega) (by omega) (by omega)]
  unfold seconds newYear
  rw [show year1 + 1900 - 1 = year1 + 1899 by omega, show year0 + 1900 - 1 = year0 + 1899 by omega]
  refine congrArg some ?_
  omega

end Nglibc.Time
