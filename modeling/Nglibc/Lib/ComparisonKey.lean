import Mathlib.Tactic

/-! Comparison functions whose result has the sign of a comparison of keys. -/

namespace Nglibc

open List

variable {α κ : Type} [LinearOrder κ]

/-- `r` is negative when `a` is before `b` and positive when `b` is before `a`. -/
structure SignOf (r : Int) (a b : κ) : Prop where
  neg : r < 0 ↔ a < b
  pos : 0 < r ↔ b < a

namespace SignOf

variable {r : Int} {a b c : κ}

theorem zero (sign : SignOf r a b) : r = 0 ↔ a = b := by
  have split : r = 0 ↔ ¬ r < 0 ∧ ¬ 0 < r := by omega
  rw [split, sign.neg, sign.pos, not_lt, not_lt]
  exact ⟨fun both => le_antisymm both.2 both.1, fun same => ⟨same.ge, same.le⟩⟩

theorem le (sign : SignOf r a b) : r ≤ 0 ↔ a ≤ b := by
  rw [← not_lt, sign.pos, not_lt]

theorem refl (a : κ) : SignOf 0 a a :=
  ⟨iff_of_false (lt_irrefl 0) (lt_irrefl a), iff_of_false (lt_irrefl 0) (lt_irrefl a)⟩

theorem of_lt (below : r < 0) (lt : a < b) : SignOf r a b :=
  ⟨iff_of_true below lt, iff_of_false (lt_asymm below) (lt_asymm lt)⟩

theorem of_gt (above : 0 < r) (gt : b < a) : SignOf r a b :=
  ⟨iff_of_false (lt_asymm above) (lt_asymm gt), iff_of_true above gt⟩

/-- Equal first keys do not count. -/
theorem cons_iff {rest more : List κ} : SignOf r (a :: rest) (a :: more) ↔ SignOf r rest more := by
  constructor
  · rintro ⟨neg, pos⟩
    exact ⟨by rw [neg, cons_lt_cons_self], by rw [pos, cons_lt_cons_self]⟩
  · rintro ⟨neg, pos⟩
    exact ⟨by rw [neg, cons_lt_cons_self], by rw [pos, cons_lt_cons_self]⟩

variable {rest more : List κ}

theorem head (sign : SignOf r a b) (differ : a ≠ b)
    : SignOf r (a :: rest) (b :: more) := by
  rcases lt_or_gt_of_ne differ with lt | gt
  · exact of_lt (sign.neg.mpr lt) (cons_lt_cons_iff.mpr (.inl lt))
  · exact of_gt (sign.pos.mpr gt) (cons_lt_cons_iff.mpr (.inl gt))

/-- Equal keys behind the first ones do not count. -/
theorem cons_insert (sign : SignOf r (a :: rest) (b :: more))
    : SignOf r (a :: c :: rest) (b :: c :: more) := by
  constructor
  · rw [sign.neg, cons_lt_cons_iff, cons_lt_cons_iff, cons_lt_cons_self]
  · rw [sign.pos, cons_lt_cons_iff, cons_lt_cons_iff, cons_lt_cons_self]

/-- First keys may be replaced by others in the same order. -/
theorem cons_mono {rest more : List κ} {f : κ → κ} (mono : StrictMono f)
    (sign : SignOf r (a :: rest) (b :: more)) : SignOf r (f a :: rest) (f b :: more) := by
  constructor
  · rw [sign.neg, cons_lt_cons_iff, cons_lt_cons_iff, mono.lt_iff_lt,
      mono.injective.eq_iff]
  · rw [sign.pos, cons_lt_cons_iff, cons_lt_cons_iff, mono.lt_iff_lt,
      mono.injective.eq_iff]

/-- The difference of two numbers decides for first keys in the same order. -/
theorem of_sub {c d i j : Nat} {rest more : List Nat} (lt : c < d → i < j) (gt : d < c → j < i)
    (differ : c ≠ d) : SignOf ((c : Int) - d) (i :: rest) (j :: more) := by
  rcases lt_or_gt_of_ne differ with below | above
  · exact .head (.of_lt (by omega) (lt below)) (lt below).ne
  · exact .head (.of_gt (by omega) (gt above)) (gt above).ne'

end SignOf

/-- A comparison by keys orders its arguments totally. -/
theorem SignOf.total {cmp : α → α → Int} {key : α → κ} (sign : ∀ a b, SignOf (cmp a b) (key a) (key b))
    : (∀ a b, (cmp a b < 0 ↔ 0 < cmp b a)) ∧ ∀ a b c, cmp a b ≤ 0 → cmp b c ≤ 0 → cmp a c ≤ 0 := by
  constructor
  · intro a b
    rw [(sign a b).neg, (sign b a).pos]
  · intro a b c ab bc
    rw [(sign a b).le] at ab
    rw [(sign b c).le] at bc
    rw [(sign a c).le]
    exact le_trans ab bc

end Nglibc
