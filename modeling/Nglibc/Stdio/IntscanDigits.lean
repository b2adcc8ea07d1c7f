import Nglibc.Stdio.Intscan

/-! The digit loops of `__intscan` add up the longest run of digits that fits 64 bits. -/

namespace Nglibc.Stdio

/-- The number that digits of a base denote, behind the digits of `acc`. -/
def magnitude (base : Nat) (digits : List UInt8) (acc : Nat) : Nat :=
  digits.foldl (fun m b => m * base + digitOf b) acc

def isDigitOf (base : Nat) (b : UInt8) : Bool := digitOf b < base

theorem magnitude_append (base : Nat) (digits more : List UInt8) (acc : Nat)
    : magnitude base (digits ++ more) acc = magnitude base more (magnitude base digits acc) :=
  List.foldl_append

variable {base : Nat}

theorem magnitude_ge (several : 2 ≤ base) (digits : List UInt8) (acc : Nat)
    : acc ≤ magnitude base digits acc := by
  induction digits generalizing acc with
  | nil => exact Nat.le_refl acc
  | cons b digits ih =>
    have step : acc ≤ acc * base + digitOf b :=
      Nat.le_trans (Nat.le_mul_of_pos_right acc (by omega)) (Nat.le_add_right _ _)
    exact Nat.le_trans step (ih _)

/-- A loop that adds digits to a number below `bound`. -/
structure AddsDigits (base bound : Nat) (keep : Int → Nat → Bool) (step : Nat → Int → Nat) : Prop where
  digit : ∀ (b : UInt8) x, keep b.toNat x = true → digitOf b < base
  step : ∀ (b : UInt8) x, keep b.toNat x = true → step x b.toNat = x * base + digitOf b
  bound : ∀ (b : UInt8) x, keep b.toNat x = true → x * base + digitOf b < bound

/-- By induction on the bytes. -/
theorem AddsDigits.takeLoop {base bound : Nat} {keep : Int → Nat → Bool} {step : Nat → Int → Nat}
    (adds : AddsDigits base bound keep step) (l : List UInt8) {x : Nat} (small : x < bound)
    : ∃ digits, l = digits ++ (Stdio.takeLoop keep step l x).2
      ∧ (∀ b ∈ digits, isDigitOf base b = true)
      ∧ (Stdio.takeLoop keep step l x).1 = magnitude base digits x
      ∧ (Stdio.takeLoop keep step l x).1 < bound
      ∧ ∀ b more, (Stdio.takeLoop keep step l x).2 = b :: more
        → keep b.toNat (Stdio.takeLoop keep step l x).1 = false := by
  induction l generalizing x with
  | nil => exact ⟨[], rfl, nofun, rfl, small, nofun⟩
  | cons b l ih =>
    rw [Stdio.takeLoop]
    by_cases kept : keep b.toNat x = true
    · have digit := adds.digit b x kept
      have below := adds.bound b x kept
      rw [if_pos kept, adds.step b x kept]
      obtain ⟨digits, split, all, sum, small', ends⟩ := ih below
      refine ⟨b :: digits, ?_, ?_, sum, small', ends⟩
      · rw [List.cons_append, ← split]
      · rintro d (_ | ⟨_, member⟩)
        · exact decide_eq_true digit
        · exact all d member
    · rw [if_neg kept]
      refine ⟨[], rfl, nofun, rfl, small, ?_⟩
      rintro b' more ⟨⟩
      exact eq_false_of_ne_true kept

def AddedUp (base : Nat) (l : List UInt8) (y : Nat) (rest : List UInt8) : Prop :=
  ∃ digits, l = digits ++ rest ∧ (∀ b ∈ digits, isDigitOf base b = true)
    ∧ y = magnitude base digits 0 ∧ y < 2 ^ 64
    ∧ ∀ b more, rest = b :: more → digitOf b < base → 2 ^ 64 ≤ y * base + digitOf b

/-- The loops in `unsigned` and `unsigned long long` together. -/
theorem AddsDigits.addedUp {keep keep' : Int → Nat → Bool} {step step' : Nat → Int → Nat}
    (first : AddsDigits base (2 ^ 32) keep step) (second : AddsDigits base (2 ^ 64) keep' step')
    (stops : ∀ (b : UInt8) y, keep' b.toNat y = false → digitOf b < base → 2 ^ 64 ≤ y * base + digitOf b)
    (l : List UInt8)
    : AddedUp base l (Stdio.takeLoop keep' step' (Stdio.takeLoop keep step l 0).2
          (Stdio.takeLoop keep step l 0).1).1
        (Stdio.takeLoop keep' step' (Stdio.takeLoop keep step l 0).2
          (Stdio.takeLoop keep step l 0).1).2 := by
  obtain ⟨digits, split, all, sum, small, -⟩ := first.takeLoop l (Nat.two_pow_pos 32)
  obtain ⟨more, split', all', sum', small', ends⟩ := second.takeLoop (Stdio.takeLoop keep step l 0).2
    (Nat.lt_trans small (by decide))
  refine ⟨digits ++ more, ?_, ?_, ?_, small', fun b rest_ stop digit => ?_⟩
  · rw [List.append_assoc, ← split', ← split]
  · intro b member
    rcases List.mem_append.mp member with early | late
    · exact all b early
    · exact all' b late
  · rw [sum', magnitude_append, ← sum]
  · exact stops b _ (ends b rest_ stop) digit

/-! The loops for each kind of base -/

theorem decimalVal_toNat (b : UInt8)
    : decimalVal b.toNat < 10 ∧ decimalVal b.toNat = digitOf b
      ∨ ¬ decimalVal b.toNat < 10 ∧ ¬ digitOf b < 10 := by
  have all : ∀ n : Fin 256,
      decimalVal (n.val : Int) < 10 ∧ decimalVal (n.val : Int) = digitOf (UInt8.ofNat n)
      ∨ ¬ decimalVal (n.val : Int) < 10 ∧ ¬ digitOf (UInt8.ofNat n) < 10 := by
    decide +kernel
  have one := all ⟨b.toNat, b.toNat_lt⟩
  rw [UInt8.ofNat_toNat] at one
  exact one

theorem shiftIn {y bs d width : Nat} (fits : y < 2 ^ (width - bs)) (digit : d < 2 ^ bs)
    (room : bs ≤ width)
    : (y <<< bs) % 2 ^ width ||| d = y * 2 ^ bs + d ∧ y * 2 ^ bs + d < 2 ^ width := by
  have bound : (y + 1) * 2 ^ bs ≤ 2 ^ width := by
    calc (y + 1) * 2 ^ bs ≤ 2 ^ (width - bs) * 2 ^ bs := Nat.mul_le_mul_right _ fits
      _ = 2 ^ width := by rw [← Nat.pow_add, Nat.sub_add_cancel room]
  rw [Nat.add_mul] at bound
  have below : y * 2 ^ bs < 2 ^ width := by omega
  rw [Nat.shiftLeft_eq, Nat.mod_eq_of_lt below, Nat.mul_comm, ← Nat.two_pow_add_eq_or_of_lt digit]
  exact ⟨rfl, by rw [Nat.mul_comm]; omega⟩

theorem decimal_adds
    : AddsDigits 10 (2 ^ 32) (fun c x => decimalVal c < 10 && x ≤ uintMax / 10 - 1)
      (fun x c => (x * 10 + decimalVal c) % 2 ^ 32) := by
  have kept (b : UInt8) (x : Nat)
      (keep : (decimalVal b.toNat < 10 && x ≤ uintMax / 10 - 1 : Bool) = true)
      : decimalVal b.toNat < 10 ∧ x ≤ (2 ^ 32 - 1) / 10 - 1 := by
    rw [Bool.and_eq_true, decide_eq_true_eq, decide_eq_true_eq] at keep
    exact keep
  refine ⟨fun b x keep => ?_, fun b x keep => ?_, fun b x keep => ?_⟩
  all_goals
    obtain ⟨small, below⟩ := kept b x keep
    rcases decimalVal_toNat b with ⟨_, same⟩ | ⟨large, _⟩
    · omega
    · exact absurd small large

private theorem decimal_adds_long
    : AddsDigits 10 (2 ^ 64) (fun c y => decimalVal c < 10 && y ≤ ullongMax / 10
          && (10 * y) % 2 ^ 64 ≤ ullongMax - decimalVal c)
        (fun y c => (y * 10 + decimalVal c) % 2 ^ 64)
      ∧ ∀ (b : UInt8) y, (decimalVal b.toNat < 10 && y ≤ ullongMax / 10
          && (10 * y) % 2 ^ 64 ≤ ullongMax - decimalVal b.toNat : Bool) = false
        → digitOf b < 10 → 2 ^ 64 ≤ y * 10 + digitOf b := by
  have kept (b : UInt8) (y : Nat)
      : (decimalVal b.toNat < 10 && y ≤ ullongMax / 10
          && (10 * y) % 2 ^ 64 ≤ ullongMax - decimalVal b.toNat : Bool) = true
        ↔ decimalVal b.toNat < 10 ∧ y ≤ (2 ^ 64 - 1) / 10
          ∧ (10 * y) % 2 ^ 64 ≤ 2 ^ 64 - 1 - decimalVal b.toNat := by
    rw [Bool.and_eq_true, Bool.and_eq_true, decide_eq_true_eq, decide_eq_true_eq, decide_eq_true_eq,
      ullongMax, and_assoc]
  refine ⟨⟨fun b y keep => ?_, fun b y keep => ?_, fun b y keep => ?_⟩, fun b y keep digit => ?_⟩
  case refine_4 =>
    have stop : ¬ _ := fun all => ne_true_of_eq_false keep ((kept b y).mpr all)
    rcases decimalVal_toNat b with ⟨_, same⟩ | ⟨_, large⟩
    · omega
    · exact absurd digit large
  all_goals
    obtain ⟨small, below, fits⟩ := (kept b y).mp keep
    rcases decimalVal_toNat b with ⟨_, same⟩ | ⟨large, _⟩
    · omega
    · exact absurd small large

/-- The magic string gives the number of bits of a digit. -/
theorem bitShift_spec (low : 2 ≤ base) (high : base ≤ 36) (power : base &&& (base - 1) = 0)
    : 1 ≤ bitShift base ∧ bitShift base ≤ 5 ∧ base = 2 ^ bitShift base := by
  have all : ∀ n : Fin 37, 2 ≤ n.val → n.val &&& (n.val - 1) = 0
      → 1 ≤ bitShift n ∧ bitShift n ≤ 5 ∧ n.val = 2 ^ bitShift n := by
    decide
  exact all ⟨base, by omega⟩ low power

private theorem binary_adds (low : 2 ≤ base) (high : base ≤ 36) (power : base &&& (base - 1) = 0)
    : AddsDigits base (2 ^ 32) (fun c x => digitVal c < base && x ≤ uintMax / 32)
      (fun x c => x <<< bitShift base % 2 ^ 32 ||| digitVal c) := by
  obtain ⟨one, five, value⟩ := bitShift_spec low high power
  have kept (b : UInt8) (x : Nat) (keep : (digitVal b.toNat < base && x ≤ uintMax / 32 : Bool) = true)
      : digitOf b < base ∧ x < 2 ^ (32 - bitShift base) := by
    have room : 2 ^ 27 ≤ 2 ^ (32 - bitShift base) := Nat.pow_le_pow_right (by decide) (by omega)
    rw [Bool.and_eq_true, decide_eq_true_eq, decide_eq_true_eq, digitVal_toNat, uintMax] at keep
    omega
  refine ⟨fun b x keep => (kept b x keep).1, fun b x keep => ?_, fun b x keep => ?_⟩
  all_goals
    obtain ⟨digit, fits⟩ := kept b x keep
    have shifted := shiftIn fits (value ▸ digit) (by omega)
    rw [← value] at shifted
  · rw [digitVal_toNat]
    exact shifted.1
  · exact shifted.2

/-- The numbers that keep their bits when a digit is shifted in. -/
theorem le_ullongMax_shiftRight {y bs : Nat} (room : bs ≤ 64)
    : y ≤ ullongMax >>> bs ↔ y < 2 ^ (64 - bs) := by
  have split : 2 ^ 64 = 2 ^ (64 - bs) * 2 ^ bs := by
    rw [← Nat.pow_add, Nat.sub_add_cancel room]
  have positive : 0 < 2 ^ bs := Nat.two_pow_pos bs
  rw [ullongMax, Nat.shiftRight_eq_div_pow, Nat.le_div_iff_mul_le positive,
    Nat.le_sub_one_iff_lt (Nat.two_pow_pos 64), split]
  exact Nat.mul_lt_mul_right positive

private theorem binary_adds_long (low : 2 ≤ base) (high : base ≤ 36) (power : base &&& (base - 1) = 0)
    : AddsDigits base (2 ^ 64) (fun c y => digitVal c < base && y ≤ ullongMax >>> bitShift base)
        (fun y c => y <<< bitShift base % 2 ^ 64 ||| digitVal c)
      ∧ ∀ (b : UInt8) y, (digitVal b.toNat < base && y ≤ ullongMax >>> bitShift base : Bool) = false
        → digitOf b < base → 2 ^ 64 ≤ y * base + digitOf b := by
  obtain ⟨one, five, value⟩ := bitShift_spec low high power
  have kept (b : UInt8) (y : Nat)
      : (digitVal b.toNat < base && y ≤ ullongMax >>> bitShift base : Bool) = true
        ↔ digitOf b < base ∧ y < 2 ^ (64 - bitShift base) := by
    rw [Bool.and_eq_true, decide_eq_true_eq, decide_eq_true_eq, digitVal_toNat,
      le_ullongMax_shiftRight (by omega)]
  refine ⟨⟨fun b y keep => ((kept b y).mp keep).1, fun b y keep => ?_, fun b y keep => ?_⟩,
    fun b y keep digit => ?_⟩
  case refine_3 =>
    have stop : 2 ^ (64 - bitShift base) ≤ y := by
      apply Nat.not_lt.mp
      intro fits
      exact ne_true_of_eq_false keep ((kept b y).mpr ⟨digit, fits⟩)
    calc
      2 ^ 64 = 2 ^ (64 - bitShift base) * 2 ^ bitShift base := by
        rw [← Nat.pow_add, Nat.sub_add_cancel (by omega)]
      _ ≤ y * base := Nat.mul_le_mul stop (Nat.le_of_eq value.symm)
      _ ≤ y * base + digitOf b := Nat.le_add_right _ _
  all_goals
    obtain ⟨digit, fits⟩ := (kept b y).mp keep
    have shifted := shiftIn fits (value ▸ digit) (by omega)
    rw [← value] at shifted
  · rw [digitVal_toNat]
    exact shifted.1
  · exact shifted.2

theorem general_adds (high : base ≤ 36)
    : AddsDigits base (2 ^ 32) (fun c x => digitVal c < base && x ≤ uintMax / 36 - 1)
      (fun x c => (x * base + digitVal c) % 2 ^ 32) := by
  have kept (b : UInt8) (x : Nat)
      (keep : (digitVal b.toNat < base && x ≤ uintMax / 36 - 1 : Bool) = true)
      : digitOf b < base ∧ x * base + digitOf b < 2 ^ 32 := by
    rw [Bool.and_eq_true, decide_eq_true_eq, decide_eq_true_eq, digitVal_toNat, uintMax] at keep
    have most : x * base ≤ x * 36 := Nat.mul_le_mul_left x high
    omega
  refine ⟨fun b x keep => (kept b x keep).1, fun b x keep => ?_, fun b x keep => (kept b x keep).2⟩
  rw [digitVal_toNat, Nat.mod_eq_of_lt (kept b x keep).2]

private theorem general_adds_long (low : 2 ≤ base)
    : AddsDigits base (2 ^ 64) (fun c y => digitVal c < base && y ≤ ullongMax / base
          && (base * y) % 2 ^ 64 ≤ ullongMax - digitVal c)
        (fun y c => (y * base + digitVal c) % 2 ^ 64)
      ∧ ∀ (b : UInt8) y, (digitVal b.toNat < base && y ≤ ullongMax / base
          && (base * y) % 2 ^ 64 ≤ ullongMax - digitVal b.toNat : Bool) = false
        → digitOf b < base → 2 ^ 64 ≤ y * base + digitOf b := by
  have kept (b : UInt8) (y : Nat)
      : (digitVal b.toNat < base && y ≤ ullongMax / base
          && (base * y) % 2 ^ 64 ≤ ullongMax - digitVal b.toNat : Bool) = true
        ↔ digitOf b < base ∧ y * base + digitOf b < 2 ^ 64 := by
    rw [Bool.and_eq_true, Bool.and_eq_true, decide_eq_true_eq, decide_eq_true_eq, decide_eq_true_eq,
      digitVal_toNat, Nat.le_div_iff_mul_le (by omega), Nat.mul_comm base y, ullongMax]
    have digit : digitOf b ≤ 255 := by
      unfold digitOf
      have small := b.toNat_lt
      split
      · omega
      · split
        · omega
        · split <;> omega
    omega
  refine ⟨⟨fun b y keep => ((kept b y).mp keep).1, fun b y keep => ?_,
    fun b y keep => ((kept b y).mp keep).2⟩, fun b y keep digit => ?_⟩
  · rw [digitVal_toNat, Nat.mod_eq_of_lt ((kept b y).mp keep).2]
  · apply Nat.not_lt.mp
    intro fits
    exact ne_true_of_eq_false keep ((kept b y).mpr ⟨digit, fits⟩)

/-! Digits from a stream -/

variable {W : Type} {refills : W → List (List UInt8)} {value : UInt8 → Int}
  {uflow : Streambuf W → Int × Streambuf W} {lim fuel base : Nat} {whole : List (UInt8 × Bool)}
  {c : Int} {f : Scanbuf W} {rest : List UInt8}

theorem takeLoop_length {α : Type} (keep : Int → α → Bool) (step : α → Int → α) (l : List UInt8) (a : α)
    : (takeLoop keep step l a).2.length ≤ l.length := by
  induction l generalizing a with
  | nil => exact Nat.le_refl _
  | cons b l ih =>
    rw [takeLoop]
    split
    · exact Nat.le_succ_of_le (ih _)
    · exact Nat.le_refl _

theorem takeLoop_skip {keep : Int → Bool} {skips : UInt8 → Bool}
    (same : ∀ b : UInt8, keep b.toNat = skips b) (l : List UInt8)
    : (takeLoop (fun c _ => keep c) (fun a _ => a) l ()).2 = l.dropWhile skips := by
  induction l with
  | nil => rfl
  | cons b l ih =>
    rw [takeLoop, same, List.dropWhile_cons]
    split
    · exact ih
    · rfl

section

variable (refill : Refill refills value uflow)
include refill

theorem Reached.skip (faithful : Faithful value) (reached : Reached refills value lim whole rest c f)
    (enough : rest.length < fuel) (keep : Int → Bool) (skips : UInt8 → Bool)
    (same : ∀ b : UInt8, keep b.toNat = skips b) (ends : keep eofValue = false)
    : ∃ c' f',
        Stdio.scanWhile uflow (fun c _ => keep c) (fun a _ => a) fuel c () f = some (c', (), f')
        ∧ Reached refills value lim whole (rest.dropWhile skips) c' f' := by
  obtain ⟨c', f', run, reached'⟩ := reached.scanWhile refill faithful (fun c _ => keep c)
    (fun a _ => a) (fun _ => ends) enough ()
  rw [takeLoop_skip same] at reached'
  exact ⟨c', f', run, reached'⟩

/-- The loop in `unsigned` and the one in `unsigned long long`. -/
theorem Reached.addsUp {keep keep' : Int → Nat → Bool} {step step' : Nat → Int → Nat}
    (faithful : Faithful value) (reached : Reached refills value lim whole rest c f)
    (enough : rest.length < fuel) (first : AddsDigits base (2 ^ 32) keep step)
    (ends : ∀ x, keep eofValue x = false)
    (second : AddsDigits base (2 ^ 64) keep' step'
      ∧ ∀ (b : UInt8) y, keep' b.toNat y = false → digitOf b < base → 2 ^ 64 ≤ y * base + digitOf b)
    (ends' : ∀ y, keep' eofValue y = false)
    : ∃ c' y rest' f', ((Stdio.scanWhile uflow keep step fuel c 0 f).bind fun (c, x, f) =>
          Stdio.scanWhile uflow keep' step' fuel c x f) = some (c', y, f')
        ∧ Reached refills value lim whole rest' c' f' ∧ AddedUp base rest y rest' := by
  obtain ⟨c', f', run, reached'⟩ := reached.scanWhile refill faithful keep step ends enough 0
  have shorter := takeLoop_length keep step rest 0
  obtain ⟨c'', f'', run', reached''⟩ :=
    reached'.scanWhile refill faithful keep' step' ends' (Nat.lt_of_le_of_lt shorter enough)
      (takeLoop keep step rest 0).1
  refine ⟨c'', _, _, f'', ?_, reached'', first.addedUp second.1 second.2 rest⟩
  rw [run]
  exact run'

/-- Each of the three digit loops adds up the digits of its base. -/
theorem Reached.number (faithful : Faithful value) (reached : Reached refills value lim whole rest c f)
    (enough : rest.length < fuel) (low : 2 ≤ base) (high : base ≤ 36)
    : ∃ c' y rest' f', (if base = 10 then intscanDecimal uflow fuel c f
          else if base &&& (base - 1) = 0 then intscanBinary uflow fuel base c f
          else intscanGeneral uflow fuel base c f) = some (c', y, f')
        ∧ Reached refills value lim whole rest' c' f' ∧ AddedUp base rest y rest' := by
  have none (x : Bool) : (decide (decimalVal eofValue < 10) && x) = false := by
    have eof : ¬ decimalVal eofValue < 10 := by decide
    rw [decide_eq_false eof, Bool.false_and]
  have none' (x : Bool) : (decide (digitVal eofValue < base) && x) = false := by
    have eof : ¬ digitVal eofValue < base := by
      rw [digitVal_eof]
      omega
    rw [decide_eq_false eof, Bool.false_and]
  by_cases decimal : base = 10
  · subst decimal
    refine reached.addsUp refill faithful enough decimal_adds (fun x => none _) decimal_adds_long
      (fun y => ?_)
    exact none _
  · rw [if_neg decimal]
    by_cases power : base &&& (base - 1) = 0
    · rw [if_pos power]
      exact reached.addsUp refill faithful enough (binary_adds low high power) (fun x => none' _)
        (binary_adds_long low high power) (fun y => none' _)
    · rw [if_neg power]
      refine reached.addsUp refill faithful enough (general_adds high) (fun x => none' _)
        (general_adds_long low) (fun y => ?_)
      rw [Bool.and_assoc]
      exact none' _

end

def intscanValue (neg : Bool) (m : Nat) : Nat × Option IntscanErrno :=
  if m < 2 ^ 64 then (if neg then (2 ^ 64 - m) % 2 ^ 64 else m, none)
  else (ullongMax, some .erange)

theorem intscanDone_ullongMax {neg : Bool} {y : Nat} {errno : Option IntscanErrno} (small : y < 2 ^ 64)
    : intscanDone ullongMax neg y errno f
      = ⟨if neg then (2 ^ 64 - y) % 2 ^ 64 else y, errno, shunget f⟩ := by
  have odd : ¬ (y ≥ ullongMax ∧ ullongMax &&& 1 = 0 ∧ (!neg) = true) := by
    intro all
    exact absurd all.2.1 (by decide)
  have most : ¬ (y ≥ ullongMax ∧ y > ullongMax) := by
    unfold ullongMax
    omega
  simp only [intscanDone]
  rw [if_neg odd, if_neg most]

/-- The digits from `c` on. -/
theorem Reached.digits (refill : Refill refills value uflow) (faithful : Faithful value)
    (reached : Reached refills value lim whole rest c f) (enough : rest.length < fuel)
    (low : 2 ≤ base) (high : base ≤ 36) (neg : Bool)
    : ∃ c' f', intscanDigits uflow fuel base ullongMax neg c f
          = some ⟨(intscanValue neg (magnitude base (rest.takeWhile (isDigitOf base)) 0)).1,
            (intscanValue neg (magnitude base (rest.takeWhile (isDigitOf base)) 0)).2, Stdio.shunget f'⟩
        ∧ Reached refills value lim whole (rest.dropWhile (isDigitOf base)) c' f' := by
  obtain ⟨c', y, rest', f', run, reached', digits, rfl, all, rfl, small, full⟩ :=
    reached.number refill faithful enough low high
  rw [intscanDigits, run, Option.bind_some, List.takeWhile_append_of_pos all,
    List.dropWhile_append_of_pos all]
  by_cases more : ∃ b tail, rest' = b :: tail ∧ digitOf b < base
  · -- the next digit does not fit
    obtain ⟨b, tail, rfl, digit⟩ := more
    have isDigit : isDigitOf base b = true := decide_eq_true digit
    have exceeds := full b tail rfl digit
    have decimal : ¬ (base = 10 ∧ decimalVal b.toNat ≥ 10) := by
      rintro ⟨rfl, large⟩
      rcases decimalVal_toNat b with ⟨small, _⟩ | ⟨_, none⟩
      · exact absurd small (Nat.not_lt.mpr large)
      · exact none digit
    have large : ¬ magnitude base (digits ++ (b :: tail).takeWhile (isDigitOf base)) 0 < 2 ^ 64 := by
      rw [magnitude_append, List.takeWhile_cons, if_pos isDigit]
      exact Nat.not_lt.mpr (Nat.le_trans exceeds (magnitude_ge low _ _))
    rw [List.length_append] at enough
    have left : (b :: tail).length < fuel := Nat.lt_of_le_of_lt (Nat.le_add_left _ _) enough
    have eof : ¬ digitVal eofValue < base := by
      rw [digitVal_eof]
      omega
    obtain ⟨c'', f'', run', reached''⟩ := reached'.skip refill faithful left
      (fun c => decide (digitVal c < base)) (isDigitOf base)
      (fun b => by simp only [digitVal_toNat, isDigitOf]) (decide_eq_false eof)
    have read := reached'.byte
    subst read
    refine ⟨c'', f'', ?_, reached''⟩
    simp only
    rw [if_neg decimal, if_pos (by rw [digitVal_toNat]; exact digit), run',
      intscanValue, if_neg large]
    exact congrArg some (intscanDone_ullongMax (by decide))
  · -- no digit is left
    have none : rest'.takeWhile (isDigitOf base) = [] ∧ rest'.dropWhile (isDigitOf base) = rest' := by
      cases rest' with
      | nil => exact ⟨rfl, rfl⟩
      | cons b tail =>
        have other : ¬ isDigitOf base b = true :=
          fun digit => more ⟨b, tail, rfl, of_decide_eq_true digit⟩
        rw [List.takeWhile_cons, List.dropWhile_cons, if_neg other, if_neg other]
        exact ⟨rfl, rfl⟩
    have stop : ¬ digitVal c' < base := by
      cases rest' with
      | nil =>
        rw [reached'.eof, digitVal_eof]
        omega
      | cons b tail =>
        rw [reached'.byte, digitVal_toNat]
        exact fun digit => more ⟨b, tail, rfl, digit⟩
    refine ⟨c', f', ?_, by rw [none.2]; exact reached'⟩
    simp only
    rw [none.1, List.append_nil, intscanValue, if_pos small, if_neg stop, ite_self,
      intscanDone_ullongMax small]

end Nglibc.Stdio
