import Mathlib.Tactic

/-! The proleptic Gregorian calendar. Days are counted from January 1st, 1970. -/

namespace Nglibc.Gregorian

def IsLeap (year : Int) : Prop := year % 4 = 0 ∧ (year % 100 ≠ 0 ∨ year % 400 = 0)

instance (year : Int) : Decidable (IsLeap year) := inferInstanceAs (Decidable (_ ∧ _))

def yearLength (year : Int) : Int := if IsLeap year then 366 else 365

theorem yearLength_bounds (year : Int) : 365 ≤ yearLength year ∧ yearLength year ≤ 366 := by
  unfold yearLength
  split_ifs <;> omega

/-- The number of leap years from year 1 on that end not later than `year`. -/
def leapsThrough (year : Int) : Int := year / 4 - year / 100 + year / 400

def newYear (year : Int) : Int := 365 * (year - 1970) + leapsThrough (year - 1) - 477

theorem newYear_1970 : newYear 1970 = 0 := by decide

theorem leapsThrough_succ (year : Int)
    : leapsThrough year = leapsThrough (year - 1) + if IsLeap year then 1 else 0 := by
  unfold leapsThrough IsLeap
  split_ifs with leap
  · omega
  · omega

theorem newYear_succ (year : Int) : newYear (year + 1) = newYear year + yearLength year := by
  unfold newYear yearLength
  rw [show year + 1 - 1 = year by omega, leapsThrough_succ year]
  split_ifs <;> omega

theorem newYear_mono {year later : Int} (le : year ≤ later) : newYear year ≤ newYear later := by
  unfold newYear leapsThrough
  omega

/-- How many days come before a month of the year, from 0 to 12. -/
def monthStart (leap : Bool) (month : Nat) : Int :=
  if leap then [0, 31, 60, 91, 121, 152, 182, 213, 244, 274, 305, 335, 366].getD month 0
  else [0, 31, 59, 90, 120, 151, 181, 212, 243, 273, 304, 334, 365].getD month 0

end Nglibc.Gregorian
