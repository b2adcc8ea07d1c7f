import Mathlib.Data.List.TakeWhile
import Nglibc.Stdio.FormatArguments

/-! The pieces that `printf_core` writes for a conversion, put together, are the text of the
conversion, and the length that it counts is the length of that text. Only the padding of wide
strings with the flag `0` is lost.
-/

namespace Nglibc.Stdio

open List

variable {F : Type}

/-! Padding and digits -/

theorem flatten_pad (c : Char) (w l : Int) (fl : Flags)
    : (pad c w l fl).flatten
      = if fl.left ∨ fl.zero then [] else List.replicate (w - l).toNat c.toUInt8 := by
  unfold pad
  by_cases skipped : fl.left ∨ fl.zero
  · rw [if_pos skipped, if_pos (by
      rcases skipped with left | zero
      · exact .inl left
      · exact .inr (.inl zero))]
    rfl
  · rw [if_neg skipped]
    by_cases wide : l ≥ w
    · rw [if_pos (.inr (.inr wide)), show (w - l).toNat = 0 by omega]
      rfl
    · rw [if_neg (by
        rintro (left | zero | above)
        · exact skipped (.inl left)
        · exact skipped (.inr zero)
        · exact wide above)]
      rw [flatten_append, flatten_replicate_replicate, flatten_singleton,
        replicate_append_replicate, Nat.div_add_mod']

theorem digitsLoop_eq {base : Nat} (large : 1 < base) (digit : Nat → UInt8) {fuel x : Nat}
    (enough : x < base ^ fuel) (tail : List UInt8)
    : digitsLoop base digit fuel x tail = (Nat.digits base x).reverse.map digit ++ tail := by
  induction fuel generalizing x tail with
  | zero =>
    rw [show x = 0 by simpa using enough, Nat.digits_zero]
    rfl
  | succ fuel ih =>
    rw [digitsLoop]
    by_cases zero : x = 0
    · rw [zero, Nat.digits_zero]
      rfl
    · have smaller : x / base < base ^ fuel := by
        rw [Nat.div_lt_iff_lt_mul (by omega)]
        exact enough
      rw [if_neg zero, ih smaller, Nat.digits_def' large (Nat.pos_of_ne_zero zero),
        reverse_cons, map_append, append_assoc]
      rfl

theorem map_digits_congr {base : Nat} (large : 1 < base) {f g : Nat → UInt8}
    (same : ∀ d < base, f d = g d) (x : Nat)
    : (Nat.digits base x).reverse.map f = (Nat.digits base x).reverse.map g := by
  refine map_congr_left (fun d member => same d ?_)
  exact Nat.digits_lt_base large (mem_reverse.mp member)

theorem lt_pow_64 (base : Nat) (large : 2 ≤ base) (x : BitVec 64) : x.toNat < base ^ 64 :=
  Nat.lt_of_lt_of_le x.isLt (Nat.pow_le_pow_left large 64)

theorem fmtX_eq (x : BitVec 64) (upper : Bool)
    : fmtX x (if upper then 0 else 32) = numeral 16 upper x.toNat := by
  unfold fmtX numeral
  rw [digitsLoop_eq (by omega) _ (lt_pow_64 16 (by omega) x), append_nil]
  refine map_digits_congr (by omega) ?_ _
  cases upper <;> decide

theorem fmtO_eq (x : BitVec 64) : fmtO x = numeral 8 false x.toNat := by
  unfold fmtO numeral
  rw [digitsLoop_eq (by omega) _ (lt_pow_64 8 (by omega) x), append_nil]
  exact map_digits_congr (by omega) (by decide) _

theorem fmtU_eq (x : BitVec 64) : fmtU x = numeral 10 false x.toNat := by
  unfold fmtU numeral
  rw [digitsLoop_eq (by omega) _ (lt_pow_64 10 (by omega) x), append_nil]
  exact map_digits_congr (by omega) (by decide) _

theorem numeral_eq_nil {base : Nat} {upper : Bool} {x : Nat} : numeral base upper x = [] ↔ x = 0 := by
  rw [numeral, map_eq_nil_iff, reverse_eq_nil_iff, Nat.digits_eq_nil_iff_eq_zero]

/-! Fields -/

/-- A text behind a prefix, filled up to a width. -/
def fieldText (fl : Flags) (w : Nat) (pre : List UInt8) (digits : Nat) (a : List UInt8)
    : List UInt8 :=
  let body := zeros (digits - a.length) ++ a
  let n := w - (pre.length + body.length)
  if fl.left then pre ++ body ++ spaces n
  else if fl.zero then pre ++ zeros n ++ body
  else spaces n ++ (pre ++ body)

theorem length_fieldText (fl : Flags) (w : Nat) (pre : List UInt8) (digits : Nat) (a : List UInt8)
    : (fieldText fl w pre digits a).length = max w (pre.length + max digits a.length) := by
  unfold fieldText zeros spaces
  split
  · simp only [length_append, length_replicate]
    omega
  · split <;> (simp only [length_append, length_replicate]; omega)

/-- What the conversion of a text leads to, `cnt` bytes behind the start: the text is written,
or it does not fit.
-/
def Yields (cnt : Int) (text written : List UInt8)
    (result : Except Fault (List (List UInt8) × Int))
    : Prop :=
  (cnt + text.length ≤ intMax →
    ∃ pieces, result = .ok (pieces, text.length) ∧ pieces.flatten = written)
  ∧ (intMax < cnt + text.length →
    (∃ e, result = .error e) ∨ ∃ pieces l, result = .ok (pieces, l) ∧ l > intMax - cnt)

variable {fl : Flags} {lay : Layout} {cnt : Int} {a : List UInt8} {p : Option Int} {wc : BitVec 32}

/-- Padding, prefix, zeros and digits, on the side that the flags ask for. -/
theorem putField_yields (exclusive : fl.left = true → fl.zero = false) (w : Nat) (p : Int)
    (pre a : List UInt8) (start : 0 ≤ cnt)
    : Yields cnt (fieldText fl w pre p.toNat a) (fieldText fl w pre p.toNat a)
        (putField cnt fl w p pre a) := by
  have length := length_fieldText fl w pre p.toNat a
  unfold putField
  generalize digits : (if p < a.length then (a.length : Int) else p) = d
  constructor
  · intro fits
    rw [if_neg (by omega)]
    generalize width : (if (w : Int) < pre.length + d then (pre.length : Int) + d else w) = w'
    have wide : w' = max w (pre.length + max p.toNat a.length : Nat) := by
      rw [← width]
      split <;> omega
    have fill : (w' - (pre.length + d)).toNat
        = w - (pre.length + (zeros (p.toNat - a.length) ++ a).length) := by
      rw [length_append, zeros, length_replicate]
      omega
    have lead : (d - a.length).toNat = p.toNat - a.length := by omega
    rw [if_neg (by omega)]
    refine ⟨_, congrArg (fun n : Int => Except.ok (_, n)) (by rw [length, wide]), ?_⟩
    simp only [flatten_append, flatten_pad, flatten_singleton, fill, lead, fieldText]
    cases left : fl.left with
    | true => simp [exclusive left, Flags.none, zeros, spaces]
    | false =>
      cases fl.zero with
      | true =>
        simp [Flags.none, zeros]
        rw [← append_assoc, replicate_append_replicate]
      | false => simp [Flags.none, zeros, spaces]
  · intro past
    refine .inl ⟨.errno .eoverflow, ?_⟩
    by_cases long : d > intMax - pre.length
    · rw [if_pos long]
    · rw [if_neg long, if_pos]
      split <;> omega

def Layout.fits (lay : Layout) (fl : Flags) : Prop :=
  fl.left = lay.left ∧ (fl.zero = true ↔ lay.zero = true ∧ lay.left = false ∧ lay.prec = none)

theorem Layout.fits.exclusive (fits : lay.fits fl)
    : fl.left = true → fl.zero = false := by
  intro left
  rw [fits.1] at left
  by_contra zero
  rw [Bool.not_eq_false, fits.2, left] at zero
  cases zero.2.1

theorem fieldText_number (fits : lay.fits fl) (least : Nat) (pre a : List UInt8)
    : fieldText fl lay.width pre least a = lay.number least pre a := by
  unfold fieldText Layout.number Layout.justify
  rw [fits.1]
  cases left : lay.left with
  | true => simp
  | false =>
    by_cases zero : fl.zero = true
    · have filled := fits.2.mp zero
      rw [if_neg Bool.false_ne_true, if_pos zero, if_pos ⟨filled.1, Bool.false_ne_true, filled.2.2⟩]
    · rw [if_neg Bool.false_ne_true, if_neg zero, if_neg]
      · simp
      · rintro ⟨flag, -, none⟩
        exact zero (fits.2.mpr ⟨flag, left, none⟩)

theorem fieldText_justify (left : fl.left = lay.left) (zero : fl.zero = false) {least : Nat}
    (a : List UInt8) (short : least ≤ a.length)
    : fieldText fl lay.width [] least a = lay.justify a := by
  unfold fieldText Layout.justify
  simp [left, zero, zeros, Nat.sub_eq_zero_of_le short]

/-- How a precision is handed to an integer conversion that shows at least `least` digits. -/
def Shows (p : Int) (xp : Bool) (least : Nat) : Prop := p < 0 ∧ xp = false ∧ least = 1 ∨ p = least

/-- Sign, prefix, zeros and digits of an integer, in the order of its layout. -/
theorem putInteger_yields {p : Int} {xp : Bool} {least : Nat} (shows : Shows p xp least) (width : Nat)
    (sameWidth : lay.width = width) (fits : lay.fits (if xp then { fl with zero := false } else fl))
    (x : BitVec 64) (pre : List UInt8) (digits : a = [] ↔ x = 0) (start : 0 ≤ cnt)
    : Yields cnt (lay.number least pre a) (lay.number least pre a)
        (putInteger cnt fl width p xp x pre a) := by
  subst sameWidth
  unfold putInteger
  rw [if_neg (by
    rintro ⟨counts, negative⟩
    rcases shows with ⟨-, no, -⟩ | same
    · rw [no] at counts
      cases counts
    · omega)]
  generalize (if xp = true then { fl with zero := false } else fl) = fl' at fits ⊢
  rw [← fieldText_number fits least pre a]
  have yields := fun q => @putField_yields _ cnt fits.exclusive lay.width q pre a start
  by_cases zero : x = 0
  · have empty := digits.mpr zero
    subst empty
    by_cases none : p = 0
    · rw [if_pos ⟨zero, none⟩]
      have same : least = (0 : Int).toNat := by
        rcases shows with ⟨negative, -⟩ | same
        · omega
        · omega
      rw [same, none]
      exact yields 0
    · rw [if_neg (fun h => none h.2), if_pos zero]
      have same : least = (max p ((([] : List UInt8).length : Int) + 1)).toNat := by
        simp only [length_nil]
        rcases shows with ⟨negative, -, one⟩ | same <;> omega
      rw [same]
      exact yields _
  · have nonempty : 1 ≤ a.length := by
      rw [Nat.one_le_iff_ne_zero]
      intro empty
      exact zero (digits.mp (length_eq_zero_iff.mp empty))
    rw [if_neg (fun h => zero h.1), if_neg zero]
    have same : fieldText fl' lay.width pre least a
        = fieldText fl' lay.width pre (max p ((a.length : Int) + 0)).toNat a := by
      have zerosSame : least - a.length = (max p ((a.length : Int) + 0)).toNat - a.length := by
        rcases shows with ⟨negative, -, one⟩ | same <;> omega
      unfold fieldText
      rw [zerosSame]
    rw [same]
    exact yields _

def layoutPrecision (p : Option Int) : Option Nat :=
  p.bind (fun p => if p < 0 then none else some p.toNat)

/-- What a precision means to the layout and to the directive: it is none, or an `int`, or too
large.
-/
theorem precision_cases (p : Option Int)
    : (layoutPrecision p = none ∧ precisionInt p < 0 ∧ precisionCounts p = false)
      ∨ ∃ n : Nat, layoutPrecision p = some n ∧ precisionCounts p = true
        ∧ ((n : Int) ≤ intMax ∧ precisionInt p = n ∨ intMax < n ∧ precisionInt p = -1) := by
  cases p with
  | none => exact .inl ⟨rfl, by decide, rfl⟩
  | some q =>
    by_cases negative : q < 0
    · refine .inl ⟨by simp [layoutPrecision, negative], ?_, ?_⟩
      · rw [precisionInt, if_pos (by unfold intMax; omega)]
        exact negative
      · simpa [precisionCounts] using negative
    · refine .inr ⟨q.toNat, by simp [layoutPrecision, negative], ?_, ?_⟩
      · simp only [precisionCounts, decide_eq_true_eq]
        omega
      · rw [precisionInt]
        by_cases small : q ≤ intMax
        · exact .inl ⟨by omega, by omega⟩
        · rw [if_neg small]
          exact .inr ⟨by omega, rfl⟩

theorem length_number (lay : Layout) (least : Nat) (pre a : List UInt8)
    : (lay.number least pre a).length = max lay.width (pre.length + max least a.length) := by
  have fits : lay.fits ⟨false, lay.zero && !lay.left && lay.prec.isNone, lay.left, false, false,
      false⟩ := by
    refine ⟨rfl, ?_⟩
    simp [and_assoc]
  rw [← fieldText_number fits, length_fieldText]

theorem fits_precision (left : fl.left = lay.left) (zero : fl.zero = (lay.zero && !lay.left)) {xp : Bool}
    (counts : xp = lay.prec.isSome)
    : lay.fits (if xp then { fl with zero := false } else fl) := by
  cases prec : lay.prec with
  | none =>
    rw [prec] at counts
    rw [counts]
    refine ⟨left, ?_⟩
    rw [if_neg (by simp), zero, prec]
    simp
  | some n =>
    rw [prec] at counts
    rw [counts]
    refine ⟨left, ?_⟩
    rw [prec]
    simp

theorem refused_yields {least : Nat} {pre a : List UInt8} (large : intMax < least) (start : 0 ≤ cnt)
    {e : Fault} {written : List UInt8}
    : Yields cnt (lay.number least pre a) written (.error e) := by
  have length := length_number lay least pre a
  refine ⟨?_, fun _ => .inl ⟨e, rfl⟩⟩
  intro fits
  omega

theorem number_yields (precision : lay.prec = layoutPrecision p) (left : fl.left = lay.left)
    (zero : fl.zero = (lay.zero && !lay.left)) (x : BitVec 64) (pre : List UInt8) (digits : a = [] ↔ x = 0)
    (start : 0 ≤ cnt)
    : Yields cnt (lay.number lay.least pre a) (lay.number lay.least pre a)
        (putInteger cnt fl lay.width (precisionInt p) (precisionCounts p) x pre a) := by
  rcases precision_cases p with ⟨none, negative, counts⟩ | ⟨n, some, counts, value⟩
  · have shows : Shows (precisionInt p) (precisionCounts p) lay.least := by
      refine .inl ⟨negative, counts, ?_⟩
      rw [Layout.least, precision, none]
      rfl
    refine putInteger_yields shows lay.width rfl ?_ x pre digits start
    exact fits_precision left zero (by rw [counts, precision, none]; rfl)
  · have least : lay.least = n := by
      rw [Layout.least, precision, some]
      rfl
    rcases value with ⟨small, value⟩ | ⟨large, value⟩
    · have shows : Shows (precisionInt p) (precisionCounts p) lay.least :=
        .inr (by rw [value, least])
      refine putInteger_yields shows lay.width rfl ?_ x pre digits start
      exact fits_precision left zero (by rw [counts, precision, some]; rfl)
    · unfold putInteger
      rw [if_pos ⟨counts, by rw [value]; decide⟩]
      exact refused_yields (by rw [least]; exact large) start

/-- An octal number with the flag `#`. -/
theorem octal_yields (precision : lay.prec = layoutPrecision p) (left : fl.left = lay.left)
    (zero : fl.zero = (lay.zero && !lay.left)) (x : BitVec 64) (digits : a = [] ↔ x = 0) (start : 0 ≤ cnt)
    (small : ∀ n, lay.prec = some n → (n : Int) ≤ intMax)
    : Yields cnt (lay.number (max lay.least (a.length + 1)) [] a)
        (lay.number (max lay.least (a.length + 1)) [] a)
        (putInteger cnt fl lay.width
          (if precisionInt p < a.length + 1 then (a.length : Int) + 1 else precisionInt p)
          (precisionCounts p) x [] a) := by
  have counts : precisionCounts p = lay.prec.isSome := by
    rcases precision_cases p with ⟨none, -, counts⟩ | ⟨n, some, counts, -⟩
    · rw [counts, precision, none]
      rfl
    · rw [counts, precision, some]
      rfl
  refine putInteger_yields (.inr ?_) lay.width rfl (fits_precision left zero counts) x [] digits
    start
  rcases precision_cases p with ⟨none, negative, -⟩ | ⟨n, some, -, value⟩
  · rw [Layout.least, precision, none]
    simp only [Option.getD_none]
    split <;> omega
  · have bound := small n (by rw [precision, some])
    rw [Layout.least, precision, some]
    simp only [Option.getD_some]
    rcases value with ⟨-, value⟩ | ⟨large, -⟩
    · split <;> omega
    · omega

theorem toSizeT_negative {n : Int} (negative : n < 0) (bound : -(2 ^ 63) ≤ n) : toSizeT n > 16 := by
  unfold toSizeT
  omega

/-- A pointer, which a precision gives at least 16 digits. -/
theorem pointer_yields (precision : lay.prec = (layoutPrecision p).map (max 16))
    (bound : -(2 ^ 63) ≤ precisionInt p) (left : fl.left = lay.left)
    (zero : fl.zero = (lay.zero && !lay.left)) (x : BitVec 64) (pre : List UInt8) (digits : a = [] ↔ x = 0)
    (start : 0 ≤ cnt)
    : Yields cnt (lay.number lay.least pre a) (lay.number lay.least pre a)
        (putInteger cnt fl lay.width
          (if toSizeT (precisionInt p) > 2 * 8 then precisionInt p else 2 * 8)
          (precisionCounts p) x pre a) := by
  -- the precision as it is used is one of at least 16
  have used : ∃ q, lay.prec = layoutPrecision q
      ∧ (if toSizeT (precisionInt p) > 2 * 8 then precisionInt p else 2 * 8) = precisionInt q
      ∧ precisionCounts p = precisionCounts q := by
    rcases precision_cases p with ⟨none, negative, unused⟩ | ⟨n, some, counts, value⟩
    · refine ⟨p, by rw [precision, none]; rfl, ?_, rfl⟩
      rw [if_pos (toSizeT_negative negative bound)]
    · refine ⟨Option.some (max 16 n : Nat), ?_, ?_, ?_⟩
      · rw [precision, some]
        simp [layoutPrecision]
        omega
      · rw [precisionInt]
        rcases value with ⟨small, value⟩ | ⟨large, value⟩
        · have same : toSizeT (n : Int) = n := toSizeT_natCast (by unfold intMax at small; omega)
          have fits : ((max 16 n : Nat) : Int) ≤ intMax := by
            unfold intMax at *
            omega
          rw [value]
          split <;> omega
        · rw [value, if_pos (toSizeT_negative (by decide) (by decide)), if_neg (by omega)]
      · rw [counts, precisionCounts]
        exact (decide_eq_true (by omega)).symm
  obtain ⟨q, precision', value, counts⟩ := used
  rw [value, counts]
  exact number_yields precision' left zero x pre digits start

/-! Strings -/

theorem length_justify (lay : Layout) (text : List UInt8)
    : (lay.justify text).length = max lay.width text.length := by
  unfold Layout.justify spaces
  split <;> (rw [length_append, length_replicate]; omega)

/-- A text that is padded with spaces. -/
theorem justify_yields (left : fl.left = lay.left) {least : Nat} (a : List UInt8)
    (short : least ≤ a.length) (start : 0 ≤ cnt)
    : Yields cnt (lay.justify a) (lay.justify a)
        (putField cnt { fl with zero := false } lay.width least [] a) := by
  have yields := @putField_yields { fl with zero := false } cnt (fun _ => rfl) lay.width least []
    a start
  have same : fieldText { fl with zero := false } lay.width [] least a = lay.justify a :=
    @fieldText_justify { fl with zero := false } lay left rfl least a short
  rwa [Int.toNat_natCast, same] at yields

theorem strnlen_eq (b : List UInt8) (n : Nat) : strnlen b n = min (stringBytes b).length n := rfl

theorem getD_stringBytes (b : List UInt8) : b.getD (stringBytes b).length 0 = 0 := by
  unfold stringBytes
  induction b with
  | nil => rfl
  | cons c b ih =>
    by_cases zero : c = 0
    · rw [zero]
      rfl
    · rw [takeWhile_cons_of_pos (by simp [zero])]
      exact ih

theorem getD_stringBytes_lt {b : List UInt8} {n : Nat} (inside : n < (stringBytes b).length)
    : b.getD n 0 ≠ 0 := by
  have member : (stringBytes b)[n] ∈ stringBytes b := getElem_mem inside
  have nonzero := mem_takeWhile_imp member
  have same : b[n]? = some (stringBytes b)[n] := by
    have prefixed : stringBytes b <+: b := takeWhile_prefix _
    rw [List.IsPrefix.getElem prefixed inside, getElem?_eq_getElem]
  rw [getD_eq_getElem?_getD, same]
  simpa using nonzero

theorem take_stringBytes (b : List UInt8) (n : Nat)
    : b.take (min (stringBytes b).length n) = (stringBytes b).take n := by
  have whole : b.take (stringBytes b).length = stringBytes b :=
    (prefix_iff_eq_take.mp (List.takeWhile_prefix _)).symm
  rw [Nat.min_comm, ← take_take, whole]

/-- A string, cut by the precision and padded on its side. -/
theorem string_yields (precision : lay.prec = layoutPrecision p) (left : fl.left = lay.left)
    (b : List UInt8) (start : 0 ≤ cnt)
    : Yields cnt (lay.string b) (lay.string b) (putString cnt fl lay.width (precisionInt p) b) := by
  -- without a precision, or with one that is too large, at most `INT_MAX` bytes are read
  have unlimited : ∀ text : List UInt8, lay.string b = lay.justify text → precisionInt p < 0 →
      ((stringBytes b).length ≤ intMax.toNat → text = stringBytes b) →
      (intMax.toNat < (stringBytes b).length → intMax.toNat < text.length) →
      Yields cnt (lay.string b) (lay.string b) (putString cnt fl lay.width (precisionInt p) b) := by
    intro text same negative whole long
    unfold putString
    rw [if_pos negative, strnlen_eq, same]
    by_cases short : (stringBytes b).length ≤ intMax.toNat
    · rw [if_neg, Nat.min_eq_left short, whole short]
      · have taken := take_stringBytes b (stringBytes b).length
        rw [Nat.min_self, take_length] at taken
        rw [taken]
        exact justify_yields left _ le_rfl start
      · rw [Nat.min_eq_left short, getD_stringBytes]
        exact fun h => h.2 rfl
    · rw [if_pos ⟨negative, by
        exact getD_stringBytes_lt (by omega)⟩]
      have length := length_justify lay text
      refine ⟨?_, fun _ => .inl ⟨_, rfl⟩⟩
      intro fits
      omega
  rcases precision_cases p with ⟨none, negative, -⟩ | ⟨n, some, -, value⟩
  · refine unlimited (stringBytes b) ?_ negative (fun _ => rfl) (fun long => long)
    rw [Layout.string, precision, none]
  · have same : lay.string b = lay.justify ((stringBytes b).take n) := by
      rw [Layout.string, precision, some]
    rcases value with ⟨small, value⟩ | ⟨large, value⟩
    · unfold putString
      rw [value, if_neg (fun h => absurd h.1 (by omega)), if_neg (by omega), strnlen_eq,
        Int.toNat_natCast, take_stringBytes, same]
      refine justify_yields left _ ?_ start
      rw [length_take, Nat.min_comm]
    · refine unlimited _ same (by rw [value]; decide) ?_ ?_
      · intro short
        exact take_of_length_le (by omega)
      · intro long
        have positive : 0 ≤ intMax := by decide
        rw [length_take]
        omega

/-! Wide strings -/

theorem wc2mb_invalid (invalid : scalar wc = none)
    : (wc2mb wc).1 = ilseqValue := by
  have notChar : ¬ wc.toNat.isValidChar := by
    intro valid
    unfold scalar at invalid
    rw [dif_pos valid] at invalid
    cases invalid
  unfold wc2mb
  rw [if_pos (by bv_omega)]
  rw [if_neg (by bv_omega), if_neg (by bv_omega), if_neg (by bv_omega)]

theorem wc2mb_scalar {c : Char} (valid : scalar wc = some c)
    : wc2mb wc = ((String.utf8EncodeChar c).length, String.utf8EncodeChar c) := by
  by_cases isChar : wc.toNat.isValidChar
  · rw [scalar, dif_pos isChar] at valid
    cases valid
    have same := wc2mb_encode (Char.ofNatAux wc.toNat isChar)
    have value : (Char.ofNatAux wc.toNat isChar).val.toBitVec = wc := rfl
    rwa [value] at same
  · rw [scalar, dif_neg isChar] at valid
    cases valid

theorem length_encode (c : Char)
    : 1 ≤ (String.utf8EncodeChar c).length ∧ (String.utf8EncodeChar c).length ≤ 4 := by
  rw [String.length_utf8EncodeChar]
  exact ⟨Char.utf8Size_pos c, Char.utf8Size_le_four c⟩

/-- How the next wide character is taken. -/
theorem wideBytes_cons (limit : Nat) (nonzero : wc ≠ 0) (ws : List (BitVec 32))
    : wideBytes limit (wc :: ws) = if limit = 0 then .ok []
        else
          match scalar wc with
          | none => .error (.errno .eilseq)
          | some c =>
            let bytes := String.utf8EncodeChar c
            if bytes.length ≤ limit then
              (wideBytes (limit - bytes.length) ws).map (fun pieces => bytes :: pieces)
            else .ok [] := by
  rw [wideBytes]
  by_cases zero : limit = 0
  · rw [if_pos (.inl zero), if_pos zero]
  · rw [if_neg (not_or.mpr ⟨zero, nonzero⟩), if_neg zero]
    cases valid : scalar wc with
    | none =>
      have failed := wc2mb_invalid valid
      rcases result : wc2mb wc with ⟨l, bytes⟩
      rw [result] at failed
      dsimp only at failed ⊢
      rw [if_pos failed]
    | some c =>
      have length := length_encode c
      rw [wc2mb_scalar valid]
      dsimp only
      rw [if_neg (by unfold ilseqValue; omega)]

theorem encodeWide_cons (limit : Option Nat) (nonzero : wc ≠ 0) (ws : List (BitVec 32))
    : encodeWide limit (wc :: ws) = if limit = some 0 then some []
        else
          match scalar wc with
          | none => none
          | some c =>
            let bytes := String.utf8EncodeChar c
            match limit with
            | none => (encodeWide none ws).map (fun more => bytes ++ more)
            | some n =>
              if bytes.length ≤ n then
                (encodeWide (some (n - bytes.length)) ws).map (fun more => bytes ++ more)
              else some [] := by
  rw [encodeWide]
  by_cases zero : limit = some 0
  · rw [if_pos (.inr zero), if_pos zero]
  · rw [if_neg (not_or.mpr ⟨nonzero, zero⟩)]
    exact (if_neg zero).symm

/-- The pieces of a text, or an error where there is no text. -/
inductive Collects : Except Fault (List (List UInt8)) → Option (List UInt8) → Prop where
  | failed (e : Fault) : Collects (.error e) none
  | text (pieces : List (List UInt8)) : Collects (.ok pieces) (some pieces.flatten)

theorem Collects.cons {result : Except Fault (List (List UInt8))} {text : Option (List UInt8)}
    (collects : Collects result text) (bytes : List UInt8)
    : Collects (result.map fun pieces => bytes :: pieces) (text.map fun more => bytes ++ more) := by
  cases collects with
  | failed e => exact .failed e
  | text pieces => exact .text (bytes :: pieces)

/-- With a limit both stop at the same character. By induction on the string. -/
theorem wideBytes_limited (limit : Nat) (ws : List (BitVec 32))
    : Collects (wideBytes limit ws) (encodeWide (some limit) ws) := by
  induction ws generalizing limit with
  | nil => exact .text []
  | cons wc ws ih =>
    by_cases end' : wc = 0
    · rw [encodeWide, if_pos (.inl end'), wideBytes, if_pos (.inr end')]
      exact .text []
    · rw [encodeWide_cons _ end', wideBytes_cons _ end']
      by_cases zero : limit = 0
      · rw [if_pos zero, if_pos (by rw [zero])]
        exact .text []
      · rw [if_neg zero, if_neg (by simpa using zero)]
        cases scalar wc with
        | none => exact .failed _
        | some c =>
          dsimp only
          by_cases room : (String.utf8EncodeChar c).length ≤ limit
          · rw [if_pos room, if_pos room]
            exact (ih _).cons _
          · rw [if_neg room, if_neg room]
            exact .text []

/-- Without a limit the code has a very large one. By induction on the string. -/
theorem wideBytes_unlimited (limit : Nat) (ws : List (BitVec 32))
    : (∃ pieces, wideBytes limit ws = .ok pieces ∧ limit < pieces.flatten.length + 4
        ∧ ∀ bytes, encodeWide none ws = some bytes → limit < bytes.length + 4)
      ∨ Collects (wideBytes limit ws) (encodeWide none ws) := by
  induction ws generalizing limit with
  | nil => exact .inr (.text [])
  | cons wc ws ih =>
    by_cases end' : wc = 0
    · rw [encodeWide, if_pos (.inl end'), wideBytes, if_pos (.inr end')]
      exact .inr (.text [])
    · rw [encodeWide_cons _ end', wideBytes_cons _ end']
      by_cases zero : limit = 0
      · refine .inl ⟨[], by rw [if_pos zero], by simp [zero], fun bytes _ => by omega⟩
      · rw [if_neg zero]
        cases scalar wc with
        | none => exact .inr (.failed _)
        | some c =>
          have length := length_encode c
          dsimp only
          by_cases room : (String.utf8EncodeChar c).length ≤ limit
          · rw [if_pos room]
            refine (ih (limit - (String.utf8EncodeChar c).length)).imp ?_ fun rest => rest.cons _
            rintro ⟨pieces, run, long, text⟩
            refine ⟨String.utf8EncodeChar c :: pieces, by rw [run]; rfl, ?_, ?_⟩
            · rw [flatten_cons, length_append]
              omega
            · intro bytes encoded
              obtain ⟨more, found, rfl⟩ := Option.map_eq_some_iff.mp encoded
              have longer := text more found
              rw [length_append]
              omega
          · rw [if_neg room]
            refine .inl ⟨[], rfl, by simp only [flatten_nil, length_nil]; omega, ?_⟩
            intro bytes encoded
            omega

/-- A result that is an error where there is no text, and else the text with its padding unless
the flag `0` loses it.
-/
def WideYields (cnt : Int) (lay : Layout) (text : Option (List UInt8))
    (result : Except Fault (List (List UInt8) × Int))
    : Prop :=
  match text with
  | none => ∃ e, result = .error e
  | some bytes =>
    Yields cnt (lay.justify bytes)
      (if lay.zero = true ∧ lay.left = false then bytes else lay.justify bytes) result

private theorem putWide_yields (left : fl.left = lay.left) (zero : fl.zero = (lay.zero && !lay.left)) {p : Int}
    {ws : List (BitVec 32)} {pieces : List (List UInt8)}
    (collected : wideBytes (toSizeT p) ws = .ok pieces) (start : 0 ≤ cnt)
    : Yields cnt (lay.justify pieces.flatten)
        (if lay.zero = true ∧ lay.left = false then pieces.flatten
          else lay.justify pieces.flatten)
        (putWide fl lay.width p ws) := by
  have length := length_justify lay pieces.flatten
  unfold putWide
  rw [collected]
  simp only [bind, Except.bind]
  by_cases long : (pieces.flatten.length : Int) > intMax
  · rw [if_pos long]
    refine ⟨fun fits => by omega, fun _ => .inl ⟨_, rfl⟩⟩
  · rw [if_neg long]
    have value : max (lay.width : Int) pieces.flatten.length
        = ((lay.justify pieces.flatten).length : Nat) := by omega
    refine ⟨fun fits => ⟨_, congrArg (fun n : Int => Except.ok (_, n)) value, ?_⟩, fun past =>
      .inr ⟨_, _, rfl, by omega⟩⟩
    have fill : ((lay.width : Int) - pieces.flatten.length).toNat
        = lay.width - pieces.flatten.length := by omega
    simp only [flatten_append, flatten_pad, fill, left, zero]
    unfold Layout.justify
    cases lay.left <;> cases lay.zero <;> simp [spaces]

theorem putWide_long {w p : Int} {ws : List (BitVec 32)} {pieces : List (List UInt8)}
    (collected : wideBytes (toSizeT p) ws = .ok pieces) (long : intMax < pieces.flatten.length)
    : putWide fl w p ws = .error (.errno .eoverflow) := by
  unfold putWide
  rw [collected]
  simp only [bind, Except.bind]
  rw [if_pos long]

theorem putWide_error {w p : Int} {ws : List (BitVec 32)} {e : Fault}
    (failed : wideBytes (toSizeT p) ws = .error e)
    : putWide fl w p ws = .error e := by
  unfold putWide
  rw [failed]
  rfl

theorem putWide_collected (left : fl.left = lay.left) (zero : fl.zero = (lay.zero && !lay.left))
    {p : Int} {ws : List (BitVec 32)} {text : Option (List UInt8)}
    (collects : Collects (wideBytes (toSizeT p) ws) text) (start : 0 ≤ cnt)
    : WideYields cnt lay text (putWide fl lay.width p ws) := by
  generalize result : wideBytes (toSizeT p) ws = r at collects
  cases collects with
  | failed e => exact ⟨e, putWide_error result⟩
  | text pieces => exact putWide_yields left zero result start

theorem wide_unlimited (left : fl.left = lay.left) (zero : fl.zero = (lay.zero && !lay.left)) {p : Int}
    (negative : p < 0) (bound : -(2 ^ 63) ≤ p) (ws : List (BitVec 32)) (start : 0 ≤ cnt)
    : WideYields cnt lay (encodeWide none ws) (putWide fl lay.width p ws) := by
  have huge : 2 ^ 63 ≤ toSizeT p := by
    unfold toSizeT
    omega
  rcases wideBytes_unlimited (toSizeT p) ws with ⟨pieces, run, long, text⟩ | rest
  · have failed := @putWide_long fl lay.width p ws pieces run (by unfold intMax; omega)
    rw [failed]
    cases encoded : encodeWide none ws with
    | none => exact ⟨_, rfl⟩
    | some bytes =>
      have longer := text bytes encoded
      have length := length_justify lay bytes
      refine ⟨fun fits => ?_, fun _ => .inl ⟨_, rfl⟩⟩
      unfold intMax at fits
      omega
  · exact putWide_collected left zero rest start

theorem wide_limited (left : fl.left = lay.left) (zero : fl.zero = (lay.zero && !lay.left)) {n : Nat}
    (small : (n : Int) ≤ intMax) (ws : List (BitVec 32)) (start : 0 ≤ cnt)
    : WideYields cnt lay (encodeWide (some n) ws) (putWide fl lay.width n ws) := by
  have limit : toSizeT (n : Int) = n := toSizeT_natCast (by unfold intMax at small; omega)
  refine putWide_collected left zero ?_ start
  rw [limit]
  exact wideBytes_limited n ws

end Nglibc.Stdio
