import Nglibc.Stdio.IntscanDigits

/-! `__intscan` reads the subject sequence of a number and leaves what follows it, unless the byte behind
the number is one that the stream takes for the end.
-/

namespace Nglibc.Stdio

open List

/-! The subject sequence -/

/-- The sign, base and digits of a number at the start of a byte string, and the bytes behind it. -/
structure Subject where
  neg : Bool
  base : Nat
  digits : List UInt8
  rest : List UInt8

def isSpaceByte (b : UInt8) : Bool := b = 32 || (9 ≤ b && b ≤ 13)

def signOf : List UInt8 → Bool × List UInt8
  | [] => (false, [])
  | b :: rest => if b = 45 then (true, rest) else if b = 43 then (false, rest) else (false, b :: rest)

/-- The base of a number and its digits, behind the prefix `0x` if the base allows one. -/
def prefixOf (base : Nat) (l : List UInt8) : Nat × List UInt8 :=
  if (base = 0 ∨ base = 16) ∧ (l.take 2 = [48, 120] ∨ l.take 2 = [48, 88]) then (16, l.drop 2)
  else (if base = 0 then (if l.head? = some 48 then 8 else 10) else base, l)

def unsignedSubject (neg : Bool) (base : Nat) (l : List UInt8) : Subject :=
  let (base, l) := prefixOf base l
  ⟨neg, base, l.takeWhile (isDigitOf base), l.dropWhile (isDigitOf base)⟩

def subject (base : Nat) (l : List UInt8) : Subject :=
  unsignedSubject (signOf (l.dropWhile isSpaceByte)).1 base (signOf (l.dropWhile isSpaceByte)).2

def Subject.magnitude (s : Subject) : Nat := Stdio.magnitude s.base s.digits 0

variable {W : Type} {refills : W → List (List UInt8)} {value : UInt8 → Int}
  {uflow : Streambuf W → Int × Streambuf W} {lim fuel base : Nat} {whole : List (UInt8 × Bool)}
  {c : Int} {f : Scanbuf W} {rest : List UInt8}

def Outcome (refills : W → List (List UInt8)) (value : UInt8 → Int) (lim : Nat)
    (whole : List (UInt8 × Bool)) (s : Subject) (r : IntscanResult W)
    : Prop :=
  s.digits ≠ [] ∧ (r.ret, r.errno) = intscanValue s.neg s.magnitude
    ∧ LeftBehind refills value lim whole s.rest r.f
  ∨ s.digits = [] ∧ r.ret = 0 ∧ r.errno ≠ some .erange
    ∧ ∃ f', r.f = shlim 0 f' ∧ LeftBehind refills value lim whole s.rest f'

theorem Reached.char_iff (reached : Reached refills value lim whole rest c f) (b : UInt8)
    : c = b.toNat ↔ rest.head? = some b := by
  cases rest with
  | nil =>
    rw [reached.eof, eofValue]
    constructor
    · omega
    · intro none
      cases none
  | cons b' rest =>
    rw [reached.byte, head?_cons, Option.some.injEq, Int.ofNat_inj]
    exact UInt8.toNat_inj

private theorem Reached.digit_iff (reached : Reached refills value lim whole rest c f) (high : base ≤ 36)
    : digitVal c < base ↔ rest.takeWhile (isDigitOf base) ≠ [] := by
  cases rest with
  | nil =>
    rw [reached.eof, digitVal_eof]
    exact iff_of_false (by omega) (fun none => none rfl)
  | cons b rest =>
    rw [reached.byte, digitVal_toNat, takeWhile_cons]
    by_cases digit : digitOf b < base
    · have digit' : isDigitOf base b = true := decide_eq_true digit
      rw [if_pos digit']
      exact iff_of_true digit (cons_ne_nil _ _)
    · have other : ¬ isDigitOf base b = true := fun digit' => digit (of_decide_eq_true digit')
      rw [if_neg other]
      exact iff_of_false digit (fun none => none rfl)

section

variable (refill : Refill refills value uflow)
include refill

theorem Reached.outcome_digits (faithful : Faithful value)
    (reached : Reached refills value lim whole rest c f) (enough : rest.length < fuel) (low : 2 ≤ base)
    (high : base ≤ 36) {neg : Bool} {s : Subject} (sign : s.neg = neg) (some_ : s.digits ≠ [])
    (sum : s.magnitude = Stdio.magnitude base (rest.takeWhile (isDigitOf base)) 0)
    (behind : s.rest = rest.dropWhile (isDigitOf base))
    : ∃ r, intscanDigits uflow fuel base ullongMax neg c f = some r
      ∧ Outcome refills value lim whole s r := by
  obtain ⟨c', f', run, reached'⟩ := reached.digits refill faithful enough low high neg
  refine ⟨_, run, .inl ⟨some_, ?_, ?_⟩⟩
  · rw [sign, sum]
  · rw [behind]
    exact reached'.shunget

/-- A number that starts at `c`, without a prefix. -/
theorem Reached.outcome_plain (faithful : Faithful value)
    (reached : Reached refills value lim whole rest c f) (enough : rest.length < fuel) (low : 2 ≤ base)
    (high : base ≤ 36) {neg : Bool} {s : Subject}
    (plain : s = ⟨neg, base, rest.takeWhile (isDigitOf base), rest.dropWhile (isDigitOf base)⟩)
    (errno : Option IntscanErrno) (other : errno ≠ some .erange)
    : ∃ r, (if digitVal c ≥ base then some ⟨0, errno, shlim 0 (Stdio.shunget f)⟩
        else intscanDigits uflow fuel base ullongMax neg c f) = some r
      ∧ Outcome refills value lim whole s r := by
  subst plain
  by_cases digit : digitVal c < base
  · rw [if_neg (Nat.not_le.mpr digit)]
    exact reached.outcome_digits refill faithful enough low high rfl ((reached.digit_iff high).mp digit)
      rfl rfl
  · have none : rest.takeWhile (isDigitOf base) = [] := by
      by_contra some_
      exact digit ((reached.digit_iff high).mpr some_)
    have left : rest.dropWhile (isDigitOf base) = rest := by
      have split := takeWhile_append_dropWhile (p := isDigitOf base) (l := rest)
      rw [none] at split
      exact split
    rw [if_pos (Nat.not_lt.mp digit)]
    refine ⟨_, rfl, .inr ⟨none, rfl, other, _, rfl, ?_⟩⟩
    rw [left]
    exact reached.shunget

/-- What `__intscan` does behind the sign. -/
theorem Reached.outcome_unsigned (faithful : Faithful value)
    (reached : Reached refills value lim whole rest c f) (enough : rest.length < fuel)
    (valid : base = 0 ∨ 2 ≤ base ∧ base ≤ 36) (neg : Bool)
    : ∃ r, intscanUnsigned uflow fuel base false ullongMax neg c f = some r
      ∧ Outcome refills value lim whole (unsignedSubject neg base rest) r := by
  rw [intscanUnsigned]
  by_cases zero : (base = 0 ∨ base = 16) ∧ c = 48
  · -- a zero, which may start a prefix
    rw [if_pos zero]
    have first := (reached.char_iff 48).mp zero.2
    obtain ⟨more, rfl⟩ := head?_eq_some_iff.mp first
    have reached' := reached.next refill faithful
    have enough' : more.length < fuel := Nat.lt_of_succ_lt enough
    generalize Stdio.shgetc uflow f = next at reached' ⊢
    obtain ⟨c', f'⟩ := next
    by_cases hex : c' = 120 ∨ c' = 88
    · simp only [hex, if_true, Bool.false_eq_true, if_false]
      obtain ⟨x, digits, rfl, isX⟩ : ∃ x digits, more = x :: digits ∧ (x = 120 ∨ x = 88) := by
        rcases hex with lower | upper
        · obtain ⟨digits, rfl⟩ := head?_eq_some_iff.mp ((reached'.char_iff 120).mp lower)
          exact ⟨120, digits, rfl, .inl rfl⟩
        · obtain ⟨digits, rfl⟩ := head?_eq_some_iff.mp ((reached'.char_iff 88).mp upper)
          exact ⟨88, digits, rfl, .inr rfl⟩
      have prefix_ : prefixOf base (48 :: x :: digits) = (16, digits) := by
        have starts : (48 :: x :: digits).take 2 = [48, 120] ∨ (48 :: x :: digits).take 2 = [48, 88] := by
          rcases isX with rfl | rfl
          · exact .inl rfl
          · exact .inr rfl
        rw [prefixOf, if_pos ⟨zero.1, starts⟩]
        rfl
      have reached'' := reached'.next refill faithful
      have enough'' : digits.length < fuel := Nat.lt_of_succ_lt enough'
      have plain : unsignedSubject neg base (48 :: x :: digits)
          = ⟨neg, 16, digits.takeWhile (isDigitOf 16), digits.dropWhile (isDigitOf 16)⟩ := by
        simp only [unsignedSubject, prefix_]
      exact reached''.outcome_plain refill faithful enough'' (by decide) (by decide) plain none nofun
    · simp only [hex, if_false]
      have noX : ¬ (more.head? = some 120 ∨ more.head? = some 88) := by
        rw [← reached'.char_iff, ← reached'.char_iff]
        exact hex
      obtain ⟨low, high, digit⟩ : 2 ≤ (if base = 0 then 8 else base)
          ∧ (if base = 0 then 8 else base) ≤ 36
          ∧ isDigitOf (if base = 0 then 8 else base) 48 = true := by
        rcases zero.1 with rfl | rfl <;> decide
      have prefix_ : prefixOf base (48 :: more) = (if base = 0 then 8 else base, 48 :: more) := by
        have short : ¬ ((48 :: more).take 2 = [48, 120] ∨ (48 :: more).take 2 = [48, 88]) := by
          cases more with
          | nil => exact nofun
          | cons x digits =>
            simpa using noX
        rw [prefixOf, if_neg (fun all => short all.2), head?_cons, if_pos rfl]
      generalize (if base = 0 then 8 else base) = base' at low high digit prefix_ ⊢
      have plain : unsignedSubject neg base (48 :: more)
          = ⟨neg, base', 48 :: more.takeWhile (isDigitOf base'), more.dropWhile (isDigitOf base')⟩ := by
        simp only [unsignedSubject, prefix_, takeWhile_cons, dropWhile_cons, digit, if_true]
      have sum : Stdio.magnitude base' (48 :: more.takeWhile (isDigitOf base')) 0
          = Stdio.magnitude base' (more.takeWhile (isDigitOf base')) 0 := by
        rw [Stdio.magnitude, foldl_cons, Nat.zero_mul]
        rfl
      rw [plain]
      exact reached'.outcome_digits refill faithful enough' low high rfl (cons_ne_nil _ _) sum rfl
  · rw [if_neg zero]
    have noZero : (base = 0 ∨ base = 16) → ¬ rest.head? = some 48 := by
      intro allows first
      exact zero ⟨allows, (reached.char_iff 48).mpr first⟩
    obtain ⟨low, high⟩ : 2 ≤ (if base = 0 then 10 else base) ∧ (if base = 0 then 10 else base) ≤ 36 := by
      split <;> omega
    have prefix_ : prefixOf base rest = (if base = 0 then 10 else base, rest) := by
      have short : ¬ ((base = 0 ∨ base = 16) ∧ (rest.take 2 = [48, 120] ∨ rest.take 2 = [48, 88])) := by
        rintro ⟨allows, starts⟩
        apply noZero allows
        cases rest with
        | nil => rcases starts with starts | starts <;> cases starts
        | cons b more =>
          rcases starts with starts | starts <;>
            exact congrArg some (List.cons.inj starts).1
      rw [prefixOf, if_neg short]
      split
      next zero' => rw [if_neg (noZero (.inl zero'))]
      next => rfl
    generalize (if base = 0 then 10 else base) = base' at low high prefix_ ⊢
    have plain : unsignedSubject neg base rest
        = ⟨neg, base', rest.takeWhile (isDigitOf base'), rest.dropWhile (isDigitOf base')⟩ := by
      simp only [unsignedSubject, prefix_]
    exact reached.outcome_plain refill faithful enough low high plain _ nofun

end

theorem isspaceInt_toNat (b : UInt8) : isspaceInt b.toNat = isSpaceByte b := by
  have all : ∀ n : Fin 256, isspaceInt (n.val : Int) = isSpaceByte (UInt8.ofNat n) := by
    decide +kernel
  have one := all ⟨b.toNat, b.toNat_lt⟩
  rw [UInt8.ofNat_toNat] at one
  exact one

/-- `__intscan` reads a subject sequence from the bytes that `shgetc` returns. -/
theorem Scanning.intscan_outcome (refill : Refill refills value uflow) (faithful : Faithful value)
    (scanning : Scanning refills lim 0 f) (valid : base = 0 ∨ 2 ≤ base ∧ base ≤ 36)
    (enough : (ahead value lim 0 (marked refills f.src)).length < fuel)
    : ∃ r, intscan uflow fuel base false ullongMax f = some r
      ∧ Outcome refills value lim (marked refills f.src)
          (subject base (ahead value lim 0 (marked refills f.src))) r := by
  have reached := scanning.reached refill faithful
  have supported : ¬ (base > 36 ∨ base = 1) := by omega
  obtain ⟨c, f', run, reached'⟩ := reached.skip refill faithful enough isspaceInt isSpaceByte
    isspaceInt_toNat (by decide)
  have enough' : ((ahead value lim 0 (marked refills f.src)).dropWhile isSpaceByte).length < fuel :=
    Nat.lt_of_le_of_lt (dropWhile_sublist _).length_le enough
  rw [intscan, if_neg supported]
  simp only
  rw [run, Option.bind_some, subject]
  generalize (ahead value lim 0 (marked refills f.src)).dropWhile isSpaceByte = rest at reached' enough' ⊢
  by_cases sign : c = 43 ∨ c = 45
  · rw [if_pos sign]
    obtain ⟨b, more, rfl, neg, signed⟩ : ∃ b more, rest = b :: more ∧ decide (c = 45) = decide (b = 45)
        ∧ signOf (b :: more) = (decide (b = 45), more) := by
      rcases sign with rfl | rfl
      · obtain ⟨more, rfl⟩ := head?_eq_some_iff.mp ((reached'.char_iff 43).mp rfl)
        exact ⟨43, more, rfl, rfl, rfl⟩
      · obtain ⟨more, rfl⟩ := head?_eq_some_iff.mp ((reached'.char_iff 45).mp rfl)
        exact ⟨45, more, rfl, rfl, rfl⟩
    rw [signed, neg]
    exact (reached'.next refill faithful).outcome_unsigned refill faithful
      (Nat.lt_of_succ_lt enough') valid _
  · rw [if_neg sign]
    have signed : signOf rest = (false, rest) := by
      cases rest with
      | nil => rfl
      | cons b more =>
        have plus : ¬ b = 43 := by
          rintro rfl
          exact sign (.inl reached'.byte)
        have minus : ¬ b = 45 := by
          rintro rfl
          exact sign (.inr reached'.byte)
        rw [signOf, if_neg minus, if_neg plus]
    rw [signed]
    exact reached'.outcome_unsigned refill faithful enough' valid _

/-! A byte that is taken for the end -/

theorem dropWhile_append_stop {α : Type} {p : α → Bool} {x : α} (stop : p x = false) (l more : List α)
    : (l ++ x :: more).dropWhile p = l.dropWhile p ++ x :: more := by
  induction l with
  | nil => rw [nil_append, dropWhile_cons, stop]; rfl
  | cons y l ih =>
    rw [cons_append, dropWhile_cons, dropWhile_cons]
    split
    · exact ih
    · rfl

theorem takeWhile_append_stop {α : Type} {p : α → Bool} {x : α} (stop : p x = false) (l more : List α)
    : (l ++ x :: more).takeWhile p = l.takeWhile p := by
  induction l with
  | nil => rw [nil_append, takeWhile_cons, stop]; rfl
  | cons y l ih =>
    rw [cons_append, takeWhile_cons, takeWhile_cons]
    split
    · rw [ih]
    · rfl

structure Foreign (b : UInt8) : Prop where
  space : isSpaceByte b = false
  digit : digitOf b = 255
  others : b ≠ 43 ∧ b ≠ 45 ∧ b ≠ 48 ∧ b ≠ 88 ∧ b ≠ 120

theorem foreign_of_high {b : UInt8} (high : 128 ≤ b.toNat) : Foreign b := by
  have all : ∀ n : Fin 256, 128 ≤ n.val → isSpaceByte (UInt8.ofNat n) = false
      ∧ digitOf (UInt8.ofNat n) = 255 ∧ UInt8.ofNat n ≠ 43 ∧ UInt8.ofNat n ≠ 45
      ∧ UInt8.ofNat n ≠ 48 ∧ UInt8.ofNat n ≠ 88 ∧ UInt8.ofNat n ≠ 120 := by
    decide +kernel
  have one := all ⟨b.toNat, b.toNat_lt⟩ high
  rw [UInt8.ofNat_toNat] at one
  exact ⟨one.1, one.2.1, one.2.2⟩

variable {b : UInt8}

theorem Foreign.prefixOf (foreign : Foreign b) (base : Nat) (l more : List UInt8)
    : Stdio.prefixOf base (l ++ b :: more)
      = ((Stdio.prefixOf base l).1, (Stdio.prefixOf base l).2 ++ b :: more) := by
  obtain ⟨plus, minus, zero, upper, lower⟩ := foreign.others
  match l with
  | [] => simp [Stdio.prefixOf, zero]
  | [x] => simp [Stdio.prefixOf, upper, lower]
  | x :: y :: l =>
    simp only [Stdio.prefixOf, cons_append, take_succ_cons, take_zero,
      drop_succ_cons, drop_zero, head?_cons]
    split <;> rfl

theorem Foreign.signOf (foreign : Foreign b) (l more : List UInt8)
    : Stdio.signOf (l ++ b :: more) = ((Stdio.signOf l).1, (Stdio.signOf l).2 ++ b :: more) := by
  obtain ⟨plus, minus, -⟩ := foreign.others
  cases l with
  | nil => simp [Stdio.signOf, plus, minus]
  | cons x l =>
    simp only [Stdio.signOf, cons_append]
    split
    · rfl
    · split <;> rfl

theorem prefixOf_le {base : Nat} (valid : base = 0 ∨ 2 ≤ base ∧ base ≤ 36) (l : List UInt8)
    : (prefixOf base l).1 ≤ 36 := by
  unfold prefixOf
  split
  · exact (by decide : 16 ≤ 36)
  · simp only
    split
    · split <;> decide
    · omega

theorem Foreign.subject (foreign : Foreign b) {base : Nat} (valid : base = 0 ∨ 2 ≤ base ∧ base ≤ 36)
    (l more : List UInt8)
    : Stdio.subject base (l ++ b :: more)
      = ⟨(Stdio.subject base l).neg, (Stdio.subject base l).base, (Stdio.subject base l).digits,
        (Stdio.subject base l).rest ++ b :: more⟩ := by
  have stop (l : List UInt8) : isDigitOf (Stdio.prefixOf base l).1 b = false := by
    have small := prefixOf_le valid l
    rw [isDigitOf, foreign.digit]
    exact decide_eq_false (by omega)
  simp only [Stdio.subject, unsignedSubject]
  rw [dropWhile_append_stop foreign.space]
  simp only [foreign.signOf, foreign.prefixOf]
  rw [takeWhile_append_stop (stop _), dropWhile_append_stop (stop _)]

theorem subject_split (base : Nat) (l : List UInt8)
    : (subject base l).digits ++ (subject base l).rest <:+ l := by
  have sign (l : List UInt8) : (signOf l).2 <:+ l := by
    cases l with
    | nil => exact suffix_refl _
    | cons b l =>
      rw [signOf]
      split
      · exact suffix_cons b l
      · split
        · exact suffix_cons b l
        · exact suffix_refl _
  have digits (base : Nat) (l : List UInt8) : (prefixOf base l).2 <:+ l := by
    rw [prefixOf]
    split
    · exact drop_suffix 2 l
    · exact suffix_refl l
  rw [subject, unsignedSubject]
  simp only [takeWhile_append_dropWhile]
  exact ((digits _ _).trans (sign _)).trans (dropWhile_suffix _)

/-- The bytes up to the first one that is taken for the end. -/
theorem heard_split (value : UInt8 → Int) (ms : List (UInt8 × Bool))
    : ∃ pre, heard value ms = pre.map Prod.fst ∧ (∀ m ∈ pre, ¬ (m.2 = true ∧ value m.1 < 0))
      ∧ (ms = pre ∨ ∃ b tail, ms = pre ++ (b, true) :: tail ∧ value b < 0) := by
  induction ms with
  | nil => exact ⟨[], rfl, nofun, .inl rfl⟩
  | cons m ms ih =>
    obtain ⟨b, mark⟩ := m
    rw [heard]
    by_cases taken : mark = true ∧ value b < 0
    · rw [if_pos taken]
      exact ⟨[], rfl, nofun, .inr ⟨b, ms, by rw [taken.1]; rfl, taken.2⟩⟩
    · rw [if_neg taken]
      obtain ⟨pre, same, kept, ends⟩ := ih
      refine ⟨(b, mark) :: pre, by rw [same]; rfl, ?_, ?_⟩
      · rintro m (_ | ⟨_, member⟩)
        · exact taken
        · exact kept m member
      · obtain rfl | ⟨b', tail, rfl, negative⟩ := ends
        · exact .inl rfl
        · exact .inr ⟨b', tail, rfl, negative⟩

private theorem ahead_length_le (value : UInt8 → Int) (lim n : Nat) (whole : List (UInt8 × Bool))
    : (ahead value lim n whole).length ≤ whole.length := by
  have part : (limited lim n whole).length ≤ whole.length := by
    unfold limited
    split
    · exact Nat.le_refl _
    · rw [List.length_take]
      exact Nat.min_le_right _ _
  obtain ⟨pre, same, -, ends⟩ := heard_split value (limited lim n whole)
  rw [ahead, same, length_map]
  obtain all | ⟨b, tail, all, -⟩ := ends
  · rw [all] at part
    exact part
  · rw [all, length_append] at part
    exact Nat.le_of_add_right_le part

/-! What the function promises -/

/-- `__intscan` takes the subject sequence from what the limit leaves of the input: its value is the
result, the count is 0 for none, and what follows it is left.
-/
structure Scans (refills : W → List (List UInt8)) (base lim : Nat) (input : List UInt8)
    (r : IntscanResult W) : Prop where
  left : inputOf refills r.f.src
    = input.drop ((limited lim 0 input).length - (subject base (limited lim 0 input)).rest.length)
  number : (subject base (limited lim 0 input)).digits ≠ [] →
    (r.ret, r.errno) = intscanValue (subject base (limited lim 0 input)).neg
      (subject base (limited lim 0 input)).magnitude
    ∧ shcnt r.f = ((limited lim 0 input).length
      - (subject base (limited lim 0 input)).rest.length : Nat)
  none : (subject base (limited lim 0 input)).digits = [] → r.ret = 0 ∧ r.errno ≠ some .erange
  count : shcnt r.f = 0 ↔ (subject base (limited lim 0 input)).digits = []

/-- The byte behind the subject sequence is within the limit, from 0x80 on, and the first one of a refill. -/
def TakenForEnd (refills : W → List (List UInt8)) (base lim : Nat) (s : Streambuf W) : Prop :=
  ∃ b : UInt8, 128 ≤ b.toNat
    ∧ (limited lim 0 (marked refills s))[(limited lim 0 (inputOf refills s)).length
        - (subject base (limited lim 0 (inputOf refills s))).rest.length]? = some (b, true)

theorem limited_map {α β : Type} (g : α → β) (lim n : Nat) (l : List α)
    : (limited lim n l).map g = limited lim n (l.map g) := by
  unfold limited
  split
  · rfl
  · exact map_take

theorem limited_drop {α : Type} (lim n : Nat) (l : List α)
    : limited lim n (l.drop n) = (limited lim 0 l).drop n := by
  unfold limited
  split
  · rfl
  · rw [Nat.sub_zero, drop_take]

theorem plainChar_faithful : Faithful plainChar := by
  intro b nonneg
  unfold plainChar at nonneg ⊢
  have small := b.toNat_lt
  split at nonneg
  next ascii => rw [if_pos ascii]
  next => omega

theorem plainChar_neg {b : UInt8} : plainChar b < 0 ↔ 128 ≤ b.toNat := by
  have small := b.toNat_lt
  unfold plainChar
  split <;> omega

/-- The bytes that `shgetc` returns have the number of the whole input, and the byte behind the number is
left unless it is taken for the end.
-/
structure Agrees (refills : W → List (List UInt8)) (base lim : Nat) (s : Streambuf W) : Prop where
  neg : (subject base (limited lim 0 (inputOf refills s))).neg
    = (subject base (ahead plainChar lim 0 (marked refills s))).neg
  magnitude : (subject base (limited lim 0 (inputOf refills s))).magnitude
    = (subject base (ahead plainChar lim 0 (marked refills s))).magnitude
  digits : (subject base (limited lim 0 (inputOf refills s))).digits
    = (subject base (ahead plainChar lim 0 (marked refills s))).digits
  position : (limited lim 0 (inputOf refills s)).length
      - (subject base (limited lim 0 (inputOf refills s))).rest.length
    = (ahead plainChar lim 0 (marked refills s)).length
      - (subject base (ahead plainChar lim 0 (marked refills s))).rest.length
  left : ∀ f : Scanbuf W, LeftBehind refills plainChar lim (marked refills s)
      (subject base (ahead plainChar lim 0 (marked refills s))).rest f →
    (inputOf refills f.src = (inputOf refills s).drop ((limited lim 0 (inputOf refills s)).length
        - (subject base (limited lim 0 (inputOf refills s))).rest.length)
      ↔ ¬ TakenForEnd refills base lim s)

/-- Prefix, digits and the byte behind them, for each way the subject sequence may start. -/
theorem agrees (valid : base = 0 ∨ 2 ≤ base ∧ base ≤ 36) (s : Streambuf W)
    : Agrees refills base lim s := by
  have bytes : limited lim 0 (inputOf refills s)
      = (limited lim 0 (marked refills s)).map Prod.fst := by
    rw [limited_map, marked_fst]
  obtain ⟨pre, same, kept, ends⟩ := heard_split plainChar (limited lim 0 (marked refills s))
  have heard_ : ahead plainChar lim 0 (marked refills s) = pre.map Prod.fst := same
  have shorter := (subject_split base (pre.map Prod.fst)).sublist.length_le
  rw [length_append, length_map] at shorter
  obtain all | ⟨b, tail, all, negative⟩ := ends
  · -- every byte is heard
    have same' : limited lim 0 (inputOf refills s) = ahead plainChar lim 0 (marked refills s) := by
      rw [bytes, heard_, all]
    have untaken : ¬ TakenForEnd refills base lim s := by
      rintro ⟨b, high, found⟩
      rw [all] at found
      exact kept _ (mem_of_getElem? found) ⟨rfl, plainChar_neg.mpr high⟩
    refine ⟨by rw [same'], by rw [same'], by rw [same'], by rw [same'],
      fun f behind => iff_of_true ?_ untaken⟩
    rcases behind.input with ⟨input, -⟩ | ⟨-, b, room, -, more⟩
    · rw [map_drop, marked_fst] at input
      rw [same']
      exact input
    · have none := limited_drop lim (ahead plainChar lim 0 (marked refills s)).length (marked refills s)
      rw [more, limited_cons room, heard_, all, length_map, drop_length] at none
      cases none
  · -- the byte `b` is taken for the end
    have foreign := foreign_of_high (plainChar_neg.mp negative)
    have bytes' : limited lim 0 (inputOf refills s)
        = pre.map Prod.fst ++ b :: tail.map Prod.fst := by
      rw [bytes, all, map_append, map_cons]
    have number := foreign.subject valid (pre.map Prod.fst) (tail.map Prod.fst)
    have position : (limited lim 0 (inputOf refills s)).length
        - (subject base (limited lim 0 (inputOf refills s))).rest.length
        = pre.length - (subject base (pre.map Prod.fst)).rest.length := by
      rw [bytes', number]
      simp only [length_append, length_cons, length_map]
      omega
    have taken : TakenForEnd refills base lim s ↔ (subject base (pre.map Prod.fst)).rest = [] := by
      rw [TakenForEnd, position, all]
      constructor
      · rintro ⟨b', high, found⟩
        by_contra some_
        have positive := length_pos_of_ne_nil some_
        rw [getElem?_append_left (by omega)] at found
        exact kept _ (mem_of_getElem? found) ⟨rfl, plainChar_neg.mpr high⟩
      · intro none
        refine ⟨b, plainChar_neg.mp negative, ?_⟩
        rw [none, List.length_nil, Nat.sub_zero, List.getElem?_append_right (Nat.le_refl _), Nat.sub_self]
        rfl
    refine ⟨by rw [bytes', heard_, number], by rw [bytes', heard_, number]; rfl,
      by rw [bytes', heard_, number], by rw [position, heard_, length_map], fun f behind => ?_⟩
    rw [taken, position]
    rw [heard_] at behind
    rcases behind.input with ⟨input, none⟩ | ⟨empty, b', room, -, more⟩
    · rw [map_drop, marked_fst, heard_, length_map] at input
      refine iff_of_true input (fun empty => ?_)
      have cut := none empty
      rw [limited_drop, heard_, all, length_map, drop_left] at cut
      cases cut
    · have behind_ := congrArg (List.map Prod.fst) more
      rw [map_drop, marked_fst, heard_, length_map, map_cons, marked_fst] at behind_
      refine iff_of_false (fun same => ?_) (not_not_intro empty)
      rw [empty, length_nil, Nat.sub_zero, behind_] at same
      exact absurd same.symm (cons_ne_self _ _)

/-- `__intscan` does what it promises exactly when the byte behind the number is not taken for the end. -/
theorem intscan_iff {virt : Jumptable W} (feeds : Feeds refills virt) {f : Scanbuf W}
    (fed : Fed refills f.src) (valid : base = 0 ∨ 2 ≤ base ∧ base ≤ 36) (lim : Nat)
    (enough : (inputOf refills f.src).length < fuel)
    : ∃ r, intscan (uflowx virt) fuel base false ullongMax (shlim lim f) = some r
      ∧ (Scans refills base lim (inputOf refills f.src) r ↔ ¬ TakenForEnd refills base lim f.src) := by
  have scanning : Scanning refills lim 0 (shlim lim f) := shlim_scanning fed lim
  have agrees_ : Agrees refills base lim f.src := agrees valid f.src
  have shorter : (ahead plainChar lim 0 (marked refills f.src)).length < fuel := by
    have most := ahead_length_le plainChar lim 0 (marked refills f.src)
    rw [← length_map Prod.fst, marked_fst] at most
    exact Nat.lt_of_le_of_lt most enough
  obtain ⟨r, run, outcome⟩ := scanning.intscan_outcome (uflowx_refill feeds) plainChar_faithful valid
    shorter
  simp only [shlim_src] at outcome
  refine ⟨r, run, ?_⟩
  rcases outcome with ⟨some_, number, behind⟩ | ⟨none, zero, errno, f', same, behind⟩
  · have counted := behind.count
    have digits := (subject_split base (ahead plainChar lim 0 (marked refills f.src))).sublist.length_le
    have positive := length_pos_of_ne_nil some_
    rw [length_append] at digits
    rw [← agrees_.left r.f behind]
    refine ⟨Scans.left, fun left => ⟨left, fun _ => ⟨?_, ?_⟩, fun none => ?_, ?_⟩⟩
    · rw [number, agrees_.neg, agrees_.magnitude]
    · rw [agrees_.position]
      omega
    · exact absurd (agrees_.digits.symm.trans none) some_
    · rw [agrees_.digits]
      exact iff_of_false (by omega) some_
  · have src : r.f.src = f'.src := by rw [same, shlim_src]
    have count : shcnt r.f = 0 := by
      rw [same]
      exact (shlim_scanning behind.fed 0).count
    rw [← agrees_.left f' behind, ← src]
    refine ⟨Scans.left, fun left => ⟨left, fun some_ => ?_, fun _ => ⟨zero, errno⟩, ?_⟩⟩
    · rw [agrees_.digits] at some_
      exact absurd none some_
    · rw [agrees_.digits]
      exact iff_of_true count none

/-- The number 0x7F and a letter, in two refills and with no limit. -/
theorem intscan_hex
    : ∃ r, intscan (uflowx refillTable) 9 0 false ullongMax
        (shlim 0 ⟨refillStream [32] [[48, 120], [55, 70, 103]], 0, 0, 0⟩) = some r
      ∧ (Scans id 0 0 [32, 48, 120, 55, 70, 103] r
        ↔ ¬ TakenForEnd id 0 0 (refillStream [32] [[48, 120], [55, 70, 103]])) :=
  intscan_iff (f := ⟨refillStream [32] [[48, 120], [55, 70, 103]], 0, 0, 0⟩) refillTable_feeds
    (refillStream_fed (by decide)) (.inl rfl) 0 (by decide)

/-- The digit 5 and a byte from 0x80 on, each in a refill of its own: the byte is lost. -/
theorem intscan_loses
    : ∃ r, intscan (uflowx refillTable) 9 10 false ullongMax
        (shlim 0 ⟨refillStream [] [[53], [0xE9]], 0, 0, 0⟩) = some r
      ∧ ¬ Scans id 10 0 [53, 0xE9] r := by
  refine ⟨_, rfl, fun scans => ?_⟩
  exact absurd scans.left (by decide)

end Nglibc.Stdio
