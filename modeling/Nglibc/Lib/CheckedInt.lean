import Mathlib.Tactic

/-! Arithmetic on signed machine integers, where a result that does not fit is undefined. -/

namespace Nglibc

/-- A value of `w` bits, `none` if it does not fit. -/
def fits (w : Nat) (x : Int) : Option Int :=
  if -2 ^ (w - 1) ≤ x ∧ x < 2 ^ (w - 1) then some x else none

def int32 (x : Int) : Option Int := fits 32 x

def int64 (x : Int) : Option Int := fits 64 x

theorem int32_some {x : Int} (lower : -2147483648 ≤ x) (upper : x ≤ 2147483647)
    : int32 x = some x := by
  unfold int32 fits
  rw [if_pos (by norm_num; omega)]

theorem int64_some {x : Int} (lower : -9223372036854775808 ≤ x) (upper : x ≤ 9223372036854775807)
    : int64 x = some x := by
  unfold int64 fits
  rw [if_pos (by norm_num; omega)]

theorem int32_none {x : Int} (outside : x < -2147483648 ∨ 2147483647 < x) : int32 x = none := by
  unfold int32 fits
  rw [if_neg (by norm_num; omega)]

/-- The value of the low `w` bits as a signed integer. -/
def wrap (w : Nat) (x : Int) : Int := (x + 2 ^ (w - 1)) % 2 ^ w - 2 ^ (w - 1)

theorem wrap32_bounds (x : Int) : -2147483648 ≤ wrap 32 x ∧ wrap 32 x ≤ 2147483647 := by
  unfold wrap
  omega

theorem wrap32_eq_iff (x : Int) : wrap 32 x = x ↔ -2147483648 ≤ x ∧ x ≤ 2147483647 := by
  unfold wrap
  omega

/-- Division that truncates, for a positive divisor. -/
theorem tdiv_tmod (a : Int) {b : Int} (positive : 0 < b)
    : b * a.tdiv b + a.tmod b = a ∧ (0 ≤ a → 0 ≤ a.tmod b ∧ a.tmod b < b)
      ∧ (a < 0 → -b < a.tmod b ∧ a.tmod b ≤ 0) := by
  refine ⟨Int.mul_tdiv_add_tmod a b, fun nonneg => ?_, fun negative => ?_⟩
  · exact ⟨Int.tmod_nonneg b nonneg, Int.tmod_lt_of_pos a positive⟩
  · have flipped := Int.tmod_lt_of_pos (-a) positive
    have sign := Int.tmod_nonneg b (show 0 ≤ -a by omega)
    rw [Int.neg_tmod] at flipped sign
    omega

theorem tmod_eq_zero {a b : Int} : a.tmod b = 0 ↔ a % b = 0 := by
  rw [← Int.dvd_iff_tmod_eq_zero, Int.dvd_iff_emod_eq_zero]

/-- Division that rounds down, by one that truncates. -/
theorem ediv_eq_tdiv (a : Int) {b : Int} (positive : 0 < b)
    : a / b = a.tdiv b - if a.tmod b < 0 then 1 else 0 := by
  obtain ⟨whole, nonneg, negative⟩ := tdiv_tmod a positive
  have unique := @Int.ediv_emod_unique a b (if a.tmod b < 0 then a.tmod b + b else a.tmod b)
    (a.tdiv b - if a.tmod b < 0 then 1 else 0) positive
  refine (unique.mpr ?_).1
  rcases le_or_gt 0 a with up | down
  · obtain ⟨low, high⟩ := nonneg up
    rw [if_neg (by omega), if_neg (by omega), sub_zero]
    omega
  · split_ifs with below
    · rw [mul_sub]
      omega
    · rw [sub_zero]
      omega

end Nglibc
