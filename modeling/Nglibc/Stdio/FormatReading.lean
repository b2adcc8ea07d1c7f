import Mathlib.Data.Nat.Digits.Lemmas
import Nglibc.Stdio.FormatText

/-! The reader of directives reads a conversion specification back as it was written. -/

namespace Nglibc.Stdio

open List

variable {F : Type}

theorem isdigit_iff (u : Nat) : isdigit u = true ↔ 48 ≤ u ∧ u ≤ 57 := by
  simp [isdigit]

theorem digitUnit_eq (d : Nat) : digitUnit d = 48 + d := rfl

theorem isdigit_digitUnit {d : Nat} (small : d < 10) : isdigit (digitUnit d) = true := by
  rw [isdigit_iff, digitUnit_eq]
  omega

/-- What stands behind a number: the end, or a unit that is no digit. -/
def NoDigit (s : List Nat) : Prop := isdigit (s.getD 0 0) = false

/-- A number that does not fit an `int` is -1. -/
def clampInt (n : Nat) : Int := if (n : Int) ≤ intMax then n else -1

theorem getint_stop {i : Int} {s : List Nat} (stop : NoDigit s) : getint i s = (i, s) := by
  cases s with
  | nil => rfl
  | cons u rest =>
    have no : isdigit u = false := stop
    rw [getint, no]
    rfl

variable {c : Conversion} {tail : List Nat} {ds : List Nat}

theorem getint_overflow (digits : ∀ d ∈ ds, d < 10) (stop : NoDigit tail)
    : getint (-1) (ds.map digitUnit ++ tail) = (-1, tail) := by
  induction ds with
  | nil => exact getint_stop stop
  | cons d ds ih =>
    have small := digits d mem_cons_self
    have digit := isdigit_digitUnit small
    rw [map_cons, cons_append, getint, if_pos digit]
    exact ih (fun d member => digits d (mem_cons_of_mem _ member))

theorem le_foldl_digits (ds : List Nat) (n : Nat)
    : n ≤ ds.foldl (fun n d => 10 * n + d) n := by
  induction ds generalizing n with
  | nil => exact Nat.le_refl n
  | cons d ds ih => exact Nat.le_trans (by omega) (ih (10 * n + d))

/-- By induction on the digits. -/
theorem getint_digits (digits : ∀ d ∈ ds, d < 10) (stop : NoDigit tail) {n : Nat}
    (fits : (n : Int) ≤ intMax)
    : getint n (ds.map digitUnit ++ tail)
      = (clampInt (ds.foldl (fun n d => 10 * n + d) n), tail) := by
  induction ds generalizing n with
  | nil => rw [map_nil, nil_append, getint_stop stop, foldl_nil, clampInt, if_pos fits]
  | cons d ds ih =>
    have small := digits d mem_cons_self
    have rest : ∀ d ∈ ds, d < 10 := fun d member => digits d (mem_cons_of_mem _ member)
    have digit := isdigit_digitUnit small
    have value : ((digitUnit d : Nat) : Int) - (('0'.toNat : Nat) : Int) = d := by
      change ((48 + d : Nat) : Int) - 48 = d
      omega
    rw [map_cons, cons_append, getint, if_pos digit, foldl_cons]
    simp only [value]
    by_cases past : ((10 * n + d : Nat) : Int) ≤ intMax
    · rw [if_neg (by unfold intMax at *; omega)]
      have next := ih rest past
      push_cast at next
      exact next
    · rw [if_pos (by unfold intMax at *; omega), getint_overflow rest stop, clampInt, if_neg]
      have grows := le_foldl_digits ds (10 * n + d)
      omega

def NoFlag (s : List Nat) : Prop := ∀ fl u rest, s = u :: rest → Flags.set fl u = none

def Flags.add (fl : Flags) : Flag → Flags
  | .alt => { fl with alt := true }
  | .zero => { fl with zero := true }
  | .left => { fl with left := true }
  | .space => { fl with padPos := true }
  | .plus => { fl with markPos := true }
  | .group => { fl with grouped := true }

theorem Flags.set_unit (fl : Flags) (flag : Flag) : fl.set flag.unit = some (fl.add flag) := by
  cases flag <;> rfl

theorem readFlags_units (flags : List Flag) (stop : NoFlag tail) (fl : Flags)
    : readFlags fl (flags.map Flag.unit ++ tail) = (flags.foldl Flags.add fl, tail) := by
  induction flags generalizing fl with
  | nil =>
    cases tail with
    | nil => rfl
    | cons u rest =>
      rw [map_nil, nil_append, readFlags, stop fl u rest rfl]
      rfl
  | cons flag flags ih =>
    rw [map_cons, cons_append, readFlags, Flags.set_unit]
    exact ih (fl.add flag)

theorem foldl_add (flags : List Flag) (fl : Flags)
    : flags.foldl Flags.add fl
      = ⟨fl.alt || decide (Flag.alt ∈ flags), fl.zero || decide (Flag.zero ∈ flags),
        fl.left || decide (Flag.left ∈ flags), fl.padPos || decide (Flag.space ∈ flags),
        fl.markPos || decide (Flag.plus ∈ flags), fl.grouped || decide (Flag.group ∈ flags)⟩ := by
  induction flags generalizing fl with
  | nil => simp
  | cons flag flags ih =>
    rw [foldl_cons, ih]
    cases flag <;> simp [Flags.add]

theorem readFlags_flagSet (c : Conversion) (stop : NoFlag tail)
    : readFlags .none (c.flags.map Flag.unit ++ tail) = (c.flagSet false, tail) := by
  rw [readFlags_units c.flags stop, foldl_add]
  simp [Flags.none, Conversion.flagSet]

def Modifier.pre : Modifier → Pre
  | .none => .bare
  | .hh => .hh
  | .h => .h
  | .l => .l
  | .ll => .ll
  | .j => .j
  | .z => .zt
  | .t => .zt
  | .bigL => .bigL

theorem readSpecifier_units {m : Modifier} {conv : Conv} {type : ArgType}
    (legal : argType m conv = some type) (rest : List Nat)
    : readSpecifier .bare (m.units ++ conv.letter.toNat :: rest)
      = .ok (m.pre, type, conv.letter, rest) := by
  cases conv with
  | fp kind upper =>
    match kind with
    | 0 | 1 | 2 | 3 => cases upper <;> cases m <;> cases legal <;> rfl
  | _ => cases m <;> cases legal <;> rfl

def firstUnit (s : List Nat) : Nat := s.getD 0 0

@[simp] theorem firstUnit_cons (u : Nat) (s : List Nat) : firstUnit (u :: s) = u := rfl

theorem letter_range (conv : Conv) : 65 ≤ conv.letter.toNat ∧ conv.letter.toNat ≤ 122 := by
  cases conv with
  | fp kind upper =>
    match kind with
    | 0 | 1 | 2 | 3 => cases upper <;> decide
  | _ => decide

def Conversion.specifierUnits (c : Conversion) (rest : List Nat) : List Nat :=
  c.modifier.units ++ c.conv.letter.toNat :: rest

theorem first_specifierUnits (c : Conversion) (rest : List Nat)
    : 65 ≤ firstUnit (c.specifierUnits rest) ∧ firstUnit (c.specifierUnits rest) ≤ 122 := by
  have range := letter_range c.conv
  unfold Conversion.specifierUnits
  cases c.modifier with
  | none => exact range
  | _ => simp [Modifier.units, firstUnit]

def Conversion.precisionOn (c : Conversion) (rest : List Nat) : List Nat :=
  precisionUnits c.prec ++ c.specifierUnits rest

theorem first_precisionOn (c : Conversion) (rest : List Nat)
    : firstUnit (c.precisionOn rest) = 46
      ∨ 65 ≤ firstUnit (c.precisionOn rest) ∧ firstUnit (c.precisionOn rest) ≤ 122 := by
  unfold Conversion.precisionOn precisionUnits
  split
  · exact .inr (first_specifierUnits c rest)
  · exact .inl rfl

def Conversion.widthOn (c : Conversion) (rest : List Nat) : List Nat :=
  c.width.units ++ c.precisionOn rest

theorem first_digits (isWidth : (Amount.digits ds).IsWidth)
    : ∃ d more, ds = d :: more ∧ 0 < d ∧ d < 10 := by
  cases ds with
  | nil => exact absurd rfl isWidth.2
  | cons d more =>
    exact ⟨d, more, rfl, Nat.pos_of_ne_zero isWidth.2, isWidth.1 d mem_cons_self⟩

theorem first_widthOn (isWidth : c.width.IsWidth) (rest : List Nat)
    : firstUnit (c.widthOn rest) = 42 ∨ firstUnit (c.widthOn rest) = 46
      ∨ 49 ≤ firstUnit (c.widthOn rest) ∧ firstUnit (c.widthOn rest) ≤ 57
      ∨ 65 ≤ firstUnit (c.widthOn rest) ∧ firstUnit (c.widthOn rest) ≤ 122 := by
  unfold Conversion.widthOn
  cases width : c.width with
  | none =>
    have first := first_precisionOn c rest
    simp only [Amount.units, nil_append]
    omega
  | digits ds =>
    rw [width] at isWidth
    obtain ⟨d, more, rfl, positive, small⟩ := first_digits isWidth
    simp only [Amount.units, map_cons, cons_append, firstUnit_cons, digitUnit_eq]
    omega
  | next => exact .inl rfl
  | numbered k => exact .inl rfl

theorem noDigit_iff (s : List Nat) : NoDigit s ↔ firstUnit s < 48 ∨ 57 < firstUnit s := by
  have digit := isdigit_iff (firstUnit s)
  change isdigit (firstUnit s) = false ↔ _
  rw [← Bool.not_eq_true, digit]
  omega

theorem noDigit_precisionOn (c : Conversion) (rest : List Nat) : NoDigit (c.precisionOn rest) := by
  have first := first_precisionOn c rest
  rw [noDigit_iff]
  omega

theorem noDigit_specifierUnits (c : Conversion) (rest : List Nat)
    : NoDigit (c.specifierUnits rest) := by
  have first := first_specifierUnits c rest
  rw [noDigit_iff]
  omega

theorem set_eq_none {u : Nat}
    (other : u ≠ 35 ∧ u ≠ 48 ∧ u ≠ 45 ∧ u ≠ 32 ∧ u ≠ 43 ∧ u ≠ 39) (fl : Flags)
    : fl.set u = none := by
  obtain ⟨h1, h2, h3, h4, h5, h6⟩ := other
  simp [Flags.set, h1, h2, h3, h4, h5, h6]

theorem noFlag_widthOn (isWidth : c.width.IsWidth) (rest : List Nat)
    : NoFlag (c.widthOn rest) := by
  intro fl u more start
  have first := first_widthOn isWidth rest
  rw [start, firstUnit_cons] at first
  apply set_eq_none
  omega

def Conversion.flagsOn (c : Conversion) (rest : List Nat) : List Nat :=
  c.flags.map Flag.unit ++ c.widthOn rest

theorem flagUnit_range (flag : Flag) : flag.unit ≠ 36 ∧ flag.unit ≠ 37 ∧ flag.unit ≤ 48 := by
  cases flag <;> decide

theorem first_flags_append (flags : List Flag) {u : Nat} (stop : firstUnit tail ≠ u)
    (other : ∀ flag : Flag, flag.unit ≠ u)
    : firstUnit (flags.map Flag.unit ++ tail) ≠ u := by
  cases flags with
  | nil => exact stop
  | cons flag flags => exact other flag

/-- Without a number there is no digit with a `$` behind it at the start. -/
theorem flagsOn_noPosition (isWidth : c.width.IsWidth) (rest : List Nat)
    : ¬ (isdigit ((c.flagsOn rest).getD 0 0) = true ∧ (c.flagsOn rest).getD 1 0 = '$'.toNat) := by
  rintro ⟨digit, dollar⟩
  rw [isdigit_iff] at digit
  have first := first_widthOn isWidth rest
  unfold Conversion.flagsOn at digit dollar
  cases written : c.flags with
  | cons flag flags =>
    rw [written] at dollar
    refine first_flags_append flags ?_ (fun flag => (flagUnit_range flag).1) dollar
    omega
  | nil =>
    rw [written] at digit dollar
    unfold Conversion.widthOn at digit dollar
    have precision := first_precisionOn c rest
    cases width : c.width with
    | none =>
      rw [width] at digit
      change 48 ≤ firstUnit (c.precisionOn rest) ∧ firstUnit (c.precisionOn rest) ≤ 57 at digit
      omega
    | digits ds =>
      rw [width] at dollar isWidth
      obtain ⟨d, more, rfl, positive, small⟩ := first_digits isWidth
      cases more with
      | nil =>
        change firstUnit (c.precisionOn rest) = 36 at dollar
        omega
      | cons e more =>
        change 48 + e = 36 at dollar
        omega
    | next =>
      rw [width] at digit
      exact absurd (show 48 ≤ 42 from digit.1) (by decide)
    | numbered k =>
      rw [width] at digit
      exact absurd (show 48 ≤ 42 from digit.1) (by decide)

def OneDigit (k : Nat) : Prop := 1 ≤ k ∧ k ≤ 9

theorem decimal_oneDigit {k : Nat} (one : OneDigit k) : decimal k = [digitUnit k] := by
  obtain ⟨low, high⟩ := one
  rw [decimal, Nat.digits_of_lt 10 k (by omega) (by omega)]
  rfl

variable {k : Nat}

/-- A larger number is written with at least two digits. -/
theorem decimal_digits (large : 10 ≤ k)
    : ∃ d e more, decimal k = (d :: e :: more).map digitUnit ∧ 0 < d
      ∧ ∀ x ∈ d :: e :: more, x < 10 := by
  have nonzero : Nat.digits 10 k ≠ [] := Nat.digits_ne_nil_iff_ne_zero.mpr (by omega)
  have long : 2 ≤ (Nat.digits 10 k).length := (Nat.lt_digits_length_iff (by omega) k).mpr (by omega)
  have last := Nat.getLast_digit_ne_zero 10 (show k ≠ 0 by omega)
  have small : ∀ x ∈ (Nat.digits 10 k).reverse, x < 10 := fun x member =>
    Nat.digits_lt_base (by omega) (mem_reverse.mp member)
  have head : (Nat.digits 10 k).reverse.head? = some ((Nat.digits 10 k).getLast nonzero) := by
    rw [head?_reverse, getLast?_eq_some_getLast nonzero]
  rw [← length_reverse] at long
  unfold decimal
  match shape : (Nat.digits 10 k).reverse, long with
  | d :: e :: more, _ =>
    rw [shape] at small head
    rw [← Option.some.inj head] at last
    exact ⟨d, e, more, rfl, Nat.pos_of_ne_zero last, small⟩

theorem readPosition_flagsOn (isWidth : c.width.IsWidth) (rest : List Nat) (core : Core F)
    : readPosition (c.flagsOn rest) core = (none, c.flagsOn rest, core) := by
  unfold readPosition
  rw [if_neg (flagsOn_noPosition isWidth rest)]

theorem readPosition_number (one : OneDigit k) (s : List Nat) (core : Core F)
    : readPosition (decimal k ++ '$'.toNat :: s) core
      = (some k, s, { core with l10n := true }) := by
  have digit := isdigit_digitUnit (Nat.lt_succ_of_le one.2)
  rw [decimal_oneDigit one]
  unfold readPosition
  rw [if_pos ⟨digit, rfl⟩]
  simp [digitUnit]

theorem readFlags_flagsOn (isWidth : c.width.IsWidth) (rest : List Nat)
    : readFlags .none (c.flagsOn rest) = (c.flagSet false, c.widthOn rest) :=
  readFlags_flagSet c (noFlag_widthOn isWidth rest)

theorem readWidth_none (width : c.width = .none) (f : Bool) (fl : Flags) (rest : List Nat) (core : Core F)
    : readWidth f fl (c.widthOn rest) core = .ok (fl, 0, c.precisionOn rest, core) := by
  have first := first_precisionOn c rest
  have noStar : (c.precisionOn rest).getD 0 0 ≠ '*'.toNat := by
    change firstUnit (c.precisionOn rest) ≠ 42
    omega
  unfold Conversion.widthOn readWidth
  rw [width, Amount.units, nil_append, if_neg noStar, getint_stop (noDigit_precisionOn c rest)]
  rfl

theorem readWidth_digits (width : c.width = .digits ds) (isWidth : c.width.IsWidth) (f : Bool) (fl : Flags)
    (rest : List Nat) (core : Core F)
    : readWidth f fl (c.widthOn rest) core
      = if (ofDigits ds : Int) ≤ intMax then .ok (fl, ofDigits ds, c.precisionOn rest, core)
        else .error (.errno .eoverflow) := by
  rw [width] at isWidth
  have small := isWidth.1
  have read := getint_digits small (noDigit_precisionOn c rest) (n := 0) (by decide)
  obtain ⟨d, more, rfl, positive, lt⟩ := first_digits isWidth
  have noStar : (c.widthOn rest).getD 0 0 ≠ '*'.toNat := by
    unfold Conversion.widthOn
    rw [width]
    change 48 + d ≠ 42
    omega
  unfold readWidth
  rw [if_neg noStar]
  unfold Conversion.widthOn
  rw [width, Amount.units]
  rw [show (0 : Int) = ((0 : Nat) : Int) from rfl, read, ← ofDigits]
  unfold clampInt
  by_cases fits : (ofDigits (d :: more) : Int) ≤ intMax
  · simp only [if_pos fits]
    rw [if_neg (by omega)]
  · simp only [if_neg fits]
    rfl

theorem readWidth_next (width : c.width = .next) (f : Bool) (fl : Flags) (rest : List Nat) {core : Core F}
    (unnumbered : core.l10n = false)
    : readWidth f fl (c.widthOn rest) core = (do
        let (w, core) ← core.star f
        let (fl, w) ← negateWidth fl w
        pure (fl, w, c.precisionOn rest, core)) := by
  have stop := noDigit_precisionOn c rest
  have noNumber : ¬ (isdigit ((c.widthOn rest).getD 1 0) = true
      ∧ (c.widthOn rest).getD 2 0 = '$'.toNat) := by
    rintro ⟨digit, -⟩
    unfold Conversion.widthOn at digit
    rw [width] at digit
    exact absurd (show isdigit ((c.precisionOn rest).getD 0 0) = true from digit)
      (by rw [stop]; decide)
  unfold readWidth
  rw [if_neg noNumber, unnumbered]
  unfold Conversion.widthOn
  rw [width]
  rfl

theorem readWidth_numbered (width : c.width = .numbered k) (one : OneDigit k) (f : Bool) (fl : Flags)
    (rest : List Nat) (core : Core F)
    : readWidth f fl (c.widthOn rest) core = (do
        let (w, core) ← Core.starAt f k { core with l10n := true }
        let (fl, w) ← negateWidth fl w
        pure (fl, w, c.precisionOn rest, core)) := by
  have digit := isdigit_digitUnit (Nat.lt_succ_of_le one.2)
  have written : c.widthOn rest = '*'.toNat :: digitUnit k :: '$'.toNat :: c.precisionOn rest := by
    unfold Conversion.widthOn
    rw [width, Amount.units, decimal_oneDigit one]
    rfl
  unfold readWidth
  rw [written, if_pos (by rfl), if_pos ⟨digit, rfl⟩]
  simp [digitUnit]

theorem readPrecision_none (prec : c.prec = .none) (f : Bool) (rest : List Nat) (core : Core F)
    : readPrecision f (c.precisionOn rest) core = .ok (-1, false, c.specifierUnits rest, core) := by
  have first := first_specifierUnits c rest
  have noDot : (c.specifierUnits rest).getD 0 0 ≠ '.'.toNat := by
    change firstUnit (c.specifierUnits rest) ≠ 46
    omega
  have written : c.precisionOn rest = c.specifierUnits rest := by
    unfold Conversion.precisionOn precisionUnits
    rw [if_pos prec, nil_append]
  unfold readPrecision
  rw [written, if_neg (fun h => noDot h.1), if_neg noDot]

theorem precisionOn_some (prec : c.prec ≠ .none) (rest : List Nat)
    : c.precisionOn rest = '.'.toNat :: (c.prec.units ++ c.specifierUnits rest) := by
  unfold Conversion.precisionOn precisionUnits
  rw [if_neg prec, cons_append]

theorem readPrecision_digits (prec : c.prec = .digits ds) (isPrecision : c.prec.IsPrecision) (f : Bool)
    (rest : List Nat) (core : Core F)
    : readPrecision f (c.precisionOn rest) core
      = .ok (clampInt (ofDigits ds), true, c.specifierUnits rest, core) := by
  rw [prec] at isPrecision
  have read := getint_digits isPrecision (noDigit_specifierUnits c rest) (n := 0) (by decide)
  have first := first_specifierUnits c rest
  have noStar : (ds.map digitUnit ++ c.specifierUnits rest).getD 0 0 ≠ '*'.toNat := by
    cases ds with
    | nil =>
      change firstUnit (c.specifierUnits rest) ≠ 42
      omega
    | cons d more =>
      change 48 + d ≠ 42
      omega
  rw [precisionOn_some (by rw [prec]; exact Amount.noConfusion), prec, Amount.units]
  unfold readPrecision
  rw [if_neg (fun h => noStar h.2), drop_one, tail_cons,
    show (0 : Int) = ((0 : Nat) : Int) from rfl, read]
  rfl

theorem readPrecision_next (prec : c.prec = .next) (f : Bool) (rest : List Nat) {core : Core F}
    (unnumbered : core.l10n = false)
    : readPrecision f (c.precisionOn rest) core = (core.star f).map
        (fun (p, core) => (p, decide (p ≥ 0), c.specifierUnits rest, core)) := by
  have stop := noDigit_specifierUnits c rest
  rw [precisionOn_some (by rw [prec]; exact Amount.noConfusion), prec]
  unfold readPrecision
  rw [if_pos ⟨rfl, rfl⟩, if_neg, unnumbered]
  · rfl
  · rintro ⟨digit, -⟩
    exact absurd (show isdigit ((c.specifierUnits rest).getD 0 0) = true from digit)
      (by rw [stop]; decide)

theorem readPrecision_numbered (prec : c.prec = .numbered k) (one : OneDigit k) (f : Bool)
    (rest : List Nat) (core : Core F)
    : readPrecision f (c.precisionOn rest) core = (core.starAt f k).map
        (fun (p, core) => (p, decide (p ≥ 0), c.specifierUnits rest, core)) := by
  have digit := isdigit_digitUnit (Nat.lt_succ_of_le one.2)
  have written : c.precisionOn rest
      = '.'.toNat :: '*'.toNat :: digitUnit k :: '$'.toNat :: c.specifierUnits rest := by
    rw [precisionOn_some (by rw [prec]; exact Amount.noConfusion), prec, Amount.units,
      decimal_oneDigit one]
    rfl
  unfold readPrecision
  rw [written, if_pos ⟨rfl, rfl⟩, if_pos ⟨digit, rfl⟩]
  simp [digitUnit]

end Nglibc.Stdio
