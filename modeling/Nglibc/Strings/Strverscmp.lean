import Nglibc.Lib.ComparisonKey
import Nglibc.Lib.Memory

/-! The comparison of version strings of `string/strverscmp.c`: a table-driven automaton over
the common start of two strings, and the order of keys that it computes.
-/

namespace Nglibc.Strings

/-! The function -/

def isdigit (c : UInt8) : Bool := decide ('0'.toNat ≤ c.toNat ∧ c.toNat ≤ '9'.toNat)

/-- `(c == '0') + (isdigit (c) != 0)`. -/
def symbol (c : UInt8) : Nat :=
  (if c.toNat = '0'.toNat then 1 else 0) + (if isdigit c then 1 else 0)

/-- `S_N`: normal. -/
def stateN : Nat := 0x0

/-- `S_I`: comparing the integral part. -/
def stateI : Nat := 0x3

/-- `S_F`: comparing the fractional part. -/
def stateF : Nat := 0x6

/-- `S_Z`: the fractional part, with leading zeroes only. -/
def stateZ : Nat := 0x9

def nextState : List Nat := [stateN, stateI, stateZ, stateN, stateI, stateI, stateN, stateF, stateF,
    stateN, stateF, stateZ]

/-- `CMP`: return diff. -/
def cmp : Int := 2

/-- `LEN`: compare using the lengths of the digit runs, then diff. -/
def len : Int := 3

def resultType : List Int := [cmp, cmp, cmp, cmp, len, cmp, cmp, cmp, cmp,
    cmp, -1, -1, 1, len, len, 1, len, len,
    cmp, cmp, cmp, cmp, cmp, cmp, cmp, cmp, cmp,
    cmp, 1, 1, -1, cmp, cmp, -1, cmp, cmp]

/-- The code at `LEN`. The lists are what is left of strings with their terminators. -/
def compareLengths (diff : Int) : List UInt8 → List UInt8 → Int
  | c1 :: p1, c2 :: p2 =>
    if isdigit c1 then
      if isdigit c2 then compareLengths diff p1 p2 else 1
    else if isdigit c2 then -1 else diff
  | _, _ => diff

/-- The verdict on the first characters that differ. -/
def verdict (state : Nat) (diff : Int) (c2 : UInt8) (p1 p2 : List UInt8) : Int :=
  let type := resultType.getD (state * 3 + symbol c2) 0
  if type = cmp then diff
  else if type = len then compareLengths diff p1 p2
  else type

/-- The loop of `__strverscmp`; `state` is the one before the class of `c1` is added. -/
def compareFrom (state : Nat) : List UInt8 → List UInt8 → Int
  | c1 :: p1, c2 :: p2 =>
    let state := state + symbol c1
    let diff : Int := (c1.toNat : Int) - c2.toNat
    if diff = 0 then
      if c1 = 0 then diff else compareFrom (nextState.getD state 0) p1 p2
    else verdict state diff c2 p1 p2
  | _, _ => 0

/-- A string in memory: its bytes and, behind them, its terminator. -/
structure CStringAt (m : Memory UInt8) where
  addr : Nat
  bytes : List UInt8
  nonzero : 0 ∉ bytes
  stored : m.slice addr (bytes.length + 1) = bytes ++ [0]

def strverscmp {m : Memory UInt8} (s1 s2 : CStringAt m) : Int :=
  if s1.addr = s2.addr then 0
  else compareFrom stateN (s1.bytes ++ [0]) (s2.bytes ++ [0])

/-! Keys -/

/-- What the common start of two strings ends with. -/
inductive Phase where
  | normal
  | integral
  | fraction
  | zeroes

def Phase.state : Phase → Nat
  | .normal => stateN
  | .integral => stateI
  | .fraction => stateF
  | .zeroes => stateZ

def Phase.next : Phase → UInt8 → Phase
  | .normal, c =>
    if c.toNat = '0'.toNat then .zeroes else if isdigit c then .integral else .normal
  | .integral, c => if isdigit c then .integral else .normal
  | .fraction, c => if isdigit c then .fraction else .normal
  | .zeroes, c =>
    if c.toNat = '0'.toNat then .zeroes else if isdigit c then .fraction else .normal

def runLength (s : List UInt8) : Nat := (s.takeWhile isdigit).length

/-- The key of what is left of a string. A number with an integral part is preceded by its
length, all of them sort as '1' among the other characters, and the end of a run of leading
zeroes comes behind all digits.
-/
def key : Phase → List UInt8 → List Nat
  | _, [] => []
  | .normal, c :: s =>
    if c.toNat = '0'.toNat then '0'.toNat :: key .zeroes s
    else if isdigit c then '1'.toNat :: runLength s :: c.toNat :: key .integral s
    else c.toNat :: key .normal s
  | .integral, c :: s => c.toNat :: key (Phase.next .integral c) s
  | .fraction, c :: s => c.toNat :: key (Phase.next .fraction c) s
  | .zeroes, c :: s =>
    if isdigit c then c.toNat :: key (Phase.next .zeroes c) s
    else (256 + c.toNat) :: key .normal s

/-- The key of what is left, inside a number with the length of the rest of the number. -/
def Phase.rest : Phase → List UInt8 → List Nat
  | .integral, s => runLength s :: key .integral s
  | phase, s => key phase s

/-! The verdict -/

/-- What is left of a string, up to its terminator. -/
def Terminated (s : List UInt8) : Prop := ∃ bytes, s = bytes ++ [0] ∧ 0 ∉ bytes

theorem Terminated.ne_nil {s : List UInt8} (ends : Terminated s) : s ≠ [] := by
  rintro rfl
  obtain ⟨bytes, same, _⟩ := ends
  exact absurd same (by simp)

variable {c : UInt8} {phase : Phase} {s : List UInt8}

theorem Terminated.tail (ends : Terminated (c :: s)) (more : c ≠ 0)
    : Terminated s := by
  obtain ⟨_ | ⟨b, bytes⟩, same, nonzero⟩ := ends
  · cases same
    exact absurd rfl more
  · cases same
    exact ⟨bytes, rfl, fun member => nonzero (List.mem_cons_of_mem _ member)⟩

/-- The three classes of characters of the table. -/
inductive Class (c : UInt8) : Prop where
  | other : symbol c = 0 → isdigit c = false → (c.toNat < 48 ∨ 57 < c.toNat) → Class c
  | digit : symbol c = 1 → isdigit c = true → 48 < c.toNat → c.toNat ≤ 57 → Class c
  | zero : symbol c = 2 → isdigit c = true → c.toNat = 48 → Class c

theorem class_of (c : UInt8) : Class c := by
  by_cases inside : 48 ≤ c.toNat ∧ c.toNat ≤ 57
  · have digit : isdigit c = true := decide_eq_true inside
    by_cases first : c.toNat = 48
    · exact .zero (by simp [symbol, digit, first]) digit first
    · exact .digit (by simp [symbol, digit, first]) digit (by omega) inside.2
  · have other : isdigit c = false := decide_eq_false inside
    exact .other (by simp [symbol, other]; omega) other (by omega)

theorem isdigit_nonzero {c : UInt8} (digit : isdigit c = true) : c ≠ 0 := by
  rintro rfl
  exact absurd digit (by decide)

theorem runLength_cons_digit (digit : isdigit c = true)
    : runLength (c :: s) = runLength s + 1 := by
  rw [runLength, List.takeWhile_cons_of_pos digit, List.length_cons, runLength]

theorem runLength_cons_other (other : isdigit c = false)
    : runLength (c :: s) = 0 := by
  rw [runLength, List.takeWhile_cons_of_neg (by simp [other]), List.length_nil]

variable {s t : List UInt8}

/-- The code at `LEN` compares the lengths of the runs first. -/
theorem compareLengths_sign {diff : Int} {a b : List Nat} (endS : Terminated s) (endT : Terminated t)
    (sign : SignOf diff a b)
    : SignOf (compareLengths diff s t) (runLength s :: a) (runLength t :: b) := by
  induction s generalizing t with
  | nil => exact absurd rfl endS.ne_nil
  | cons c s ih =>
    cases t with
    | nil => exact absurd rfl endT.ne_nil
    | cons d t =>
      rw [compareLengths]
      cases digitC : isdigit c with
      | false =>
        rw [if_neg Bool.false_ne_true, runLength_cons_other digitC]
        cases digitD : isdigit d with
        | false =>
          rw [runLength_cons_other digitD]
          exact SignOf.cons_iff.mpr sign
        | true =>
          rw [if_pos rfl, runLength_cons_digit digitD]
          exact .head (.of_lt (by decide) (Nat.succ_pos _)) (Nat.succ_ne_zero _).symm
      | true =>
        rw [if_pos rfl, runLength_cons_digit digitC]
        cases digitD : isdigit d with
        | false =>
          rw [if_neg Bool.false_ne_true, runLength_cons_other digitD]
          exact .head (.of_gt (by decide) (Nat.succ_pos _)) (Nat.succ_ne_zero _)
        | true =>
          rw [runLength_cons_digit digitD]
          exact (ih (endS.tail (isdigit_nonzero digitC))
            (endT.tail (isdigit_nonzero digitD))).cons_mono fun _ _ => Nat.succ_lt_succ

section Verdicts

variable {state : Nat} {diff : Int} {c d : UInt8} {s t : List UInt8}

theorem verdict_cmp (type : resultType.getD (state * 3 + symbol d) 0 = cmp)
    : verdict state diff d s t = diff := by
  exact if_pos type

theorem verdict_len (type : resultType.getD (state * 3 + symbol d) 0 = len)
    : verdict state diff d s t = compareLengths diff s t := by
  simp only [verdict]
  rw [type, if_neg (by decide), if_pos rfl]

theorem verdict_fixed {r : Int} (type : resultType.getD (state * 3 + symbol d) 0 = r)
    (fixed : r ≠ cmp ∧ r ≠ len) : verdict state diff d s t = r := by
  simp only [verdict]
  rw [type, if_neg fixed.1, if_neg fixed.2]

theorem key_normal_zero (zero : c.toNat = 48) : key .normal (c :: s) = 48 :: key .zeroes s := by
  rw [key]
  exact if_pos zero

theorem key_normal_digit (digit : isdigit c = true) (low : 48 < c.toNat)
    : key .normal (c :: s) = 49 :: runLength s :: c.toNat :: key .integral s := by
  have zero : '0'.toNat = 48 := rfl
  rw [key, if_neg (by omega), if_pos digit]
  rfl

theorem key_normal_other (other : isdigit c = false) (range : c.toNat < 48 ∨ 57 < c.toNat)
    : key .normal (c :: s) = c.toNat :: key .normal s := by
  have zero : '0'.toNat = 48 := rfl
  rw [key, if_neg (by omega), if_neg (by simp [other])]

theorem key_zeroes_digit (digit : isdigit c = true)
    : key .zeroes (c :: s) = c.toNat :: key (Phase.next .zeroes c) s := by
  rw [key, if_pos digit]

theorem key_zeroes_other (other : isdigit c = false)
    : key .zeroes (c :: s) = (256 + c.toNat) :: key .normal s := by
  rw [key, if_neg (by simp [other])]

/-- In the fractional part the characters decide. -/
theorem verdict_fraction (differ : c.toNat ≠ d.toNat)
    : SignOf (verdict (stateF + symbol c) ((c.toNat : Int) - d.toNat) d s t)
        (key .fraction (c :: s)) (key .fraction (d :: t)) := by
  have type : resultType.getD ((stateF + symbol c) * 3 + symbol d) 0 = cmp := by
    rcases class_of c with ⟨symC, _, _⟩ | ⟨symC, _, _, _⟩ | ⟨symC, _, _⟩
      <;> rcases class_of d with ⟨symD, _, _⟩ | ⟨symD, _, _, _⟩ | ⟨symD, _, _⟩
      <;> rw [symC, symD] <;> rfl
  rw [verdict_cmp type]
  exact .of_sub id id differ

/-- Outside of numbers the lengths decide between two numbers with an integral part. -/
theorem verdict_normal (endS : Terminated (c :: s)) (endT : Terminated (d :: t))
    (differ : c.toNat ≠ d.toNat)
    : SignOf (verdict (stateN + symbol c) ((c.toNat : Int) - d.toNat) d s t)
        (key .normal (c :: s)) (key .normal (d :: t)) := by
  rcases class_of c with ⟨symC, digitC, rangeC⟩ | ⟨symC, digitC, lowC, highC⟩ | ⟨symC, digitC, valueC⟩
  · rw [symC, key_normal_other digitC rangeC]
    rcases class_of d with ⟨symD, digitD, rangeD⟩ | ⟨symD, digitD, lowD, highD⟩ | ⟨symD, digitD, valueD⟩
    · rw [verdict_cmp (by rw [symD]; rfl), key_normal_other digitD rangeD]
      exact .of_sub id id differ
    · rw [verdict_cmp (by rw [symD]; rfl), key_normal_digit digitD lowD]
      exact .of_sub (by omega) (by omega) differ
    · rw [verdict_cmp (by rw [symD]; rfl), key_normal_zero valueD]
      exact .of_sub (by omega) (by omega) differ
  · rw [symC, key_normal_digit digitC lowC]
    rcases class_of d with ⟨symD, digitD, rangeD⟩ | ⟨symD, digitD, lowD, highD⟩ | ⟨symD, digitD, valueD⟩
    · rw [verdict_cmp (by rw [symD]; rfl), key_normal_other digitD rangeD]
      exact .of_sub (by omega) (by omega) differ
    · rw [verdict_len (by rw [symD]; rfl), key_normal_digit digitD lowD, SignOf.cons_iff]
      exact compareLengths_sign (endS.tail (isdigit_nonzero digitC))
        (endT.tail (isdigit_nonzero digitD)) (.of_sub id id differ)
    · rw [verdict_cmp (by rw [symD]; rfl), key_normal_zero valueD]
      exact .of_sub (by omega) (by omega) differ
  · rw [symC, key_normal_zero valueC]
    rcases class_of d with ⟨symD, digitD, rangeD⟩ | ⟨symD, digitD, lowD, highD⟩ | ⟨symD, digitD, valueD⟩
    · rw [verdict_cmp (by rw [symD]; rfl), key_normal_other digitD rangeD]
      exact .of_sub (by omega) (by omega) differ
    · rw [verdict_cmp (by rw [symD]; rfl), key_normal_digit digitD lowD]
      exact .of_sub (by omega) (by omega) differ
    · exact absurd (valueC.trans valueD.symm) differ

theorem resultType_integral (c d : UInt8)
    : resultType.getD ((stateI + symbol c) * 3 + symbol d) 0
      = if isdigit c then if isdigit d then len else 1 else if isdigit d then -1 else cmp := by
  rcases class_of c with ⟨symC, digitC, _⟩ | ⟨symC, digitC, _, _⟩ | ⟨symC, digitC, _⟩
    <;> rcases class_of d with ⟨symD, digitD, _⟩ | ⟨symD, digitD, _, _⟩ | ⟨symD, digitD, _⟩
    <;> rw [symC, symD, digitC, digitD] <;> rfl

/-- Inside of a number with an integral part the longer number is greater. -/
theorem verdict_integral (endS : Terminated (c :: s)) (endT : Terminated (d :: t))
    (differ : c.toNat ≠ d.toNat)
    : SignOf (verdict (stateI + symbol c) ((c.toNat : Int) - d.toNat) d s t)
        (runLength (c :: s) :: key .integral (c :: s))
        (runLength (d :: t) :: key .integral (d :: t)) := by
  have type := resultType_integral c d
  cases digitC : isdigit c with
  | false =>
    rw [runLength_cons_other digitC]
    cases digitD : isdigit d with
    | false =>
      rw [digitC, digitD] at type
      rw [verdict_cmp type, runLength_cons_other digitD, SignOf.cons_iff]
      exact .of_sub id id differ
    | true =>
      rw [digitC, digitD] at type
      rw [verdict_fixed (r := -1) type (by decide), runLength_cons_digit digitD]
      exact .head (.of_lt (by decide) (Nat.succ_pos _)) (Nat.succ_ne_zero _).symm
  | true =>
    rw [runLength_cons_digit digitC]
    cases digitD : isdigit d with
    | false =>
      rw [digitC, digitD] at type
      rw [verdict_fixed (r := 1) type (by decide), runLength_cons_other digitD]
      exact .head (.of_gt (by decide) (Nat.succ_pos _)) (Nat.succ_ne_zero _)
    | true =>
      rw [digitC, digitD] at type
      rw [verdict_len type, runLength_cons_digit digitD]
      exact (compareLengths_sign (endS.tail (isdigit_nonzero digitC))
        (endT.tail (isdigit_nonzero digitD)) (.of_sub id id differ)).cons_mono
        fun _ _ => Nat.succ_lt_succ

theorem resultType_zeroes (c d : UInt8)
    : resultType.getD ((stateZ + symbol c) * 3 + symbol d) 0
      = if isdigit c = isdigit d then cmp else if isdigit c then -1 else 1 := by
  rcases class_of c with ⟨symC, digitC, _⟩ | ⟨symC, digitC, _, _⟩ | ⟨symC, digitC, _⟩
    <;> rcases class_of d with ⟨symD, digitD, _⟩ | ⟨symD, digitD, _, _⟩ | ⟨symD, digitD, _⟩
    <;> rw [symC, symD, digitC, digitD] <;> rfl

/-- Behind leading zeroes the end of the number comes behind all digits. -/
theorem verdict_zeroes (differ : c.toNat ≠ d.toNat)
    : SignOf (verdict (stateZ + symbol c) ((c.toNat : Int) - d.toNat) d s t)
        (key .zeroes (c :: s)) (key .zeroes (d :: t)) := by
  have type := resultType_zeroes c d
  have highC := c.toNat_lt
  have highD := d.toNat_lt
  cases digitC : isdigit c with
  | false =>
    rw [key_zeroes_other digitC]
    cases digitD : isdigit d with
    | false =>
      rw [digitC, digitD] at type
      rw [verdict_cmp type, key_zeroes_other digitD]
      exact .of_sub (by omega) (by omega) differ
    | true =>
      rw [digitC, digitD] at type
      rw [verdict_fixed (r := 1) type (by decide), key_zeroes_digit digitD]
      exact .head (.of_gt (by decide) (by omega)) (by omega)
  | true =>
    rw [key_zeroes_digit digitC]
    cases digitD : isdigit d with
    | false =>
      rw [digitC, digitD] at type
      rw [verdict_fixed (r := -1) type (by decide), key_zeroes_other digitD]
      exact .head (.of_lt (by decide) (by omega)) (by omega)
    | true =>
      rw [digitC, digitD] at type
      rw [verdict_cmp type, key_zeroes_digit digitD]
      exact .of_sub id id differ

end Verdicts

/-! The order -/

theorem verdict_sign {c d : UInt8} (endS : Terminated (c :: s)) (endT : Terminated (d :: t))
    (differ : c.toNat ≠ d.toNat)
    : SignOf (verdict (phase.state + symbol c) ((c.toNat : Int) - d.toNat) d s t)
        (phase.rest (c :: s)) (phase.rest (d :: t)) := by
  cases phase with
  | normal => exact verdict_normal endS endT differ
  | integral => exact verdict_integral endS endT differ
  | fraction => exact verdict_fraction differ
  | zeroes => exact verdict_zeroes differ

theorem next_other {phase : Phase} {c : UInt8} (other : isdigit c = false)
    (range : c.toNat < 48 ∨ 57 < c.toNat) : phase.next c = .normal := by
  have first : ¬ c.toNat = 48 := by omega
  cases phase <;> simp [Phase.next, other, first]

theorem next_digit (digit : isdigit c = true) (low : 48 < c.toNat)
    : phase.next c = match phase with
      | .normal => .integral
      | .integral => .integral
      | .fraction => .fraction
      | .zeroes => .fraction := by
  have first : ¬ c.toNat = 48 := by omega
  cases phase <;> simp [Phase.next, digit, first]

theorem next_zero (digit : isdigit c = true) (value : c.toNat = 48)
    : phase.next c = match phase with
      | .normal => .zeroes
      | .integral => .integral
      | .fraction => .fraction
      | .zeroes => .zeroes := by
  have first : c.toNat = '0'.toNat := value
  cases phase <;> simp [Phase.next, digit, first]

theorem nextState_eq (phase : Phase) (c : UInt8)
    : nextState.getD (phase.state + symbol c) 0 = (phase.next c).state := by
  rcases class_of c with ⟨sym, digit, range⟩ | ⟨sym, digit, low, high⟩ | ⟨sym, digit, value⟩
  · rw [sym, next_other digit range]
    cases phase <;> rfl
  · rw [sym, next_digit digit low]
    cases phase <;> rfl
  · rw [sym, next_zero digit value]
    cases phase <;> rfl

/-- A common character does not count. -/
theorem rest_cons {r : Int} (sign : SignOf r ((phase.next c).rest s) ((phase.next c).rest t))
    : SignOf r (phase.rest (c :: s)) (phase.rest (c :: t)) := by
  -- inside of a number the length of the rest counts before the digits
  have inNumber : ∀ {s t : List UInt8}, SignOf r (Phase.integral.rest s) (Phase.integral.rest t)
      → isdigit c = true
      → SignOf r (Phase.integral.rest (c :: s)) (Phase.integral.rest (c :: t)) := by
    intro s t sign digit
    have next : Phase.next .integral c = .integral := if_pos digit
    simp only [Phase.rest, runLength_cons_digit digit, key, next]
    exact (SignOf.cons_insert sign).cons_mono fun _ _ => Nat.succ_lt_succ
  rcases class_of c with ⟨sym, digit, range⟩ | ⟨sym, digit, low, high⟩ | ⟨sym, digit, value⟩
  · rw [next_other digit range] at sign
    have next : ∀ phase : Phase, phase.next c = .normal := fun phase => next_other digit range
    cases phase with
    | normal =>
      simp only [Phase.rest, key_normal_other digit range]
      exact SignOf.cons_iff.mpr sign
    | integral =>
      simp only [Phase.rest, runLength_cons_other digit, key, next]
      exact SignOf.cons_iff.mpr (SignOf.cons_iff.mpr sign)
    | fraction =>
      simp only [Phase.rest, key, next]
      exact SignOf.cons_iff.mpr sign
    | zeroes =>
      simp only [Phase.rest, key_zeroes_other digit]
      exact SignOf.cons_iff.mpr sign
  · rw [next_digit digit low] at sign
    cases phase with
    | normal =>
      simp only [Phase.rest, key_normal_digit digit low]
      exact SignOf.cons_iff.mpr (SignOf.cons_insert sign)
    | integral => exact inNumber sign digit
    | fraction =>
      simp only [Phase.rest, key, next_digit digit low]
      exact SignOf.cons_iff.mpr sign
    | zeroes =>
      simp only [Phase.rest, key_zeroes_digit digit, next_digit digit low]
      exact SignOf.cons_iff.mpr sign
  · rw [next_zero digit value] at sign
    cases phase with
    | normal =>
      simp only [Phase.rest, key_normal_zero value]
      exact SignOf.cons_iff.mpr sign
    | integral => exact inNumber sign digit
    | fraction =>
      simp only [Phase.rest, key, next_zero digit value]
      exact SignOf.cons_iff.mpr sign
    | zeroes =>
      simp only [Phase.rest, key_zeroes_digit digit, next_zero digit value]
      exact SignOf.cons_iff.mpr sign

theorem Terminated.last {s : List UInt8} (ends : Terminated (0 :: s)) : s = [] := by
  obtain ⟨_ | ⟨b, bytes⟩, same, nonzero⟩ := ends
  · cases same
    rfl
  · cases same
    exact absurd List.mem_cons_self nonzero

/-- The loop compares the keys of the strings. By induction on the first of them. -/
theorem compareFrom_sign (phase : Phase) {s t : List UInt8} (endS : Terminated s)
    (endT : Terminated t) : SignOf (compareFrom phase.state s t) (phase.rest s) (phase.rest t) := by
  induction s generalizing phase t with
  | nil => exact absurd rfl endS.ne_nil
  | cons c s ih =>
    cases t with
    | nil => exact absurd rfl endT.ne_nil
    | cons d t =>
      simp only [compareFrom]
      split
      · rename_i same
        have equal : c = d := UInt8.toNat_inj.mp (by omega)
        subst equal
        split
        · rename_i last
          subst last
          rw [endS.last, endT.last]
          exact .refl _
        · rename_i more
          rw [nextState_eq]
          exact rest_cons (ih _ (endS.tail more) (endT.tail more))
      · rename_i differ
        exact verdict_sign endS endT (by omega)

private theorem compareLengths_ne_zero {diff : Int} (differ : diff ≠ 0) (s t : List UInt8)
    : compareLengths diff s t ≠ 0 := by
  induction s generalizing t with
  | nil => exact differ
  | cons c s ih =>
    cases t with
    | nil => exact differ
    | cons d t =>
      rw [compareLengths]
      split
      · split
        · exact ih t
        · decide
      · split
        · decide
        · exact differ

/-- Characters that differ never compare as equal. -/
theorem verdict_ne_zero {diff : Int} (differ : diff ≠ 0) (phase : Phase) (c d : UInt8)
    (s t : List UInt8) : verdict (phase.state + symbol c) diff d s t ≠ 0 := by
  have types : ∀ i < 36, resultType.getD i 0 ≠ 0 := by decide
  have index : (phase.state + symbol c) * 3 + symbol d < 36 := by
    have bound : ∀ c : UInt8, symbol c ≤ 2 := by
      intro c
      rcases class_of c with ⟨sym, _, _⟩ | ⟨sym, _, _, _⟩ | ⟨sym, _, _⟩ <;> omega
    have state : phase.state ≤ 9 := by cases phase <;> decide
    have boundC := bound c
    have boundD := bound d
    omega
  simp only [verdict]
  split
  · exact differ
  · split
    · exact compareLengths_ne_zero differ s t
    · exact types _ index

/-- The loop finds two strings equal only if they are. -/
theorem compareFrom_eq_zero (phase : Phase) {s t : List UInt8} (endS : Terminated s)
    (endT : Terminated t) (zero : compareFrom phase.state s t = 0) : s = t := by
  induction s generalizing phase t with
  | nil => exact absurd rfl endS.ne_nil
  | cons c s ih =>
    cases t with
    | nil => exact absurd rfl endT.ne_nil
    | cons d t =>
      simp only [compareFrom] at zero
      split at zero
      · rename_i same
        have equal : c = d := UInt8.toNat_inj.mp (by omega)
        subst equal
        split at zero
        · rename_i last
          subst last
          rw [endS.last, endT.last]
        · rename_i more
          rw [nextState_eq] at zero
          rw [ih _ (endS.tail more) (endT.tail more) zero]
      · rename_i differ
        exact absurd zero (verdict_ne_zero differ phase c d s t)

theorem CStringAt.terminated {m : Memory UInt8} (a : CStringAt m) : Terminated (a.bytes ++ [0]) :=
  ⟨a.bytes, rfl, a.nonzero⟩

variable {m : Memory UInt8}

/-- Two strings at the same address are equal. -/
theorem CStringAt.bytes_eq {a b : CStringAt m} (same : a.addr = b.addr)
    : a.bytes = b.bytes := by
  -- a shorter string would end inside of the other one
  have shorter : ∀ {a b : CStringAt m}, a.addr = b.addr → ¬ a.bytes.length < b.bytes.length := by
    intro a b same shorter
    have start := Memory.take_slice (m := m) (a := b.addr)
      (show a.bytes.length + 1 ≤ b.bytes.length + 1 by omega)
    rw [b.stored, ← same, a.stored, List.take_append_of_le_length (by omega)] at start
    have member : 0 ∈ b.bytes.take (a.bytes.length + 1) := by
      rw [start]
      simp
    exact b.nonzero (List.mem_of_mem_take member)
  have first := shorter same
  have second := shorter same.symm
  have length : a.bytes.length = b.bytes.length := by omega
  have stored := a.stored
  rw [same, length, b.stored] at stored
  exact (List.append_cancel_right stored).symm

theorem strverscmp_sign (a b : CStringAt m)
    : SignOf (strverscmp a b) (key .normal (a.bytes ++ [0])) (key .normal (b.bytes ++ [0])) := by
  unfold strverscmp
  split
  · rename_i same
    rw [CStringAt.bytes_eq same]
    exact .refl _
  · exact compareFrom_sign .normal a.terminated b.terminated

/-- `__strverscmp` is a total order of strings. -/
theorem strverscmp_totalOrder {m : Memory UInt8} (a b c : CStringAt m)
    : (strverscmp a b).sign = -(strverscmp b a).sign ∧ (strverscmp a b = 0 ↔ a.bytes = b.bytes)
      ∧ (strverscmp a b ≤ 0 → strverscmp b c ≤ 0 → strverscmp a c ≤ 0) := by
  obtain ⟨swap, trans⟩ := SignOf.total (@strverscmp_sign m)
  refine ⟨?_, ⟨?_, ?_⟩, trans a b c⟩
  · have ab := swap a b
    have ba := swap b a
    rcases lt_trichotomy (strverscmp a b) 0 with below | equal | above
    · rw [Int.sign_eq_neg_one_of_neg below, Int.sign_eq_one_of_pos (ab.mp below)]
    · have other : strverscmp b a = 0 := by omega
      rw [equal, other]
      rfl
    · rw [Int.sign_eq_one_of_pos above, Int.sign_eq_neg_one_of_neg (ba.mpr above)]
      rfl
  · intro zero
    unfold strverscmp at zero
    split at zero
    · rename_i same
      exact CStringAt.bytes_eq same
    · exact List.append_cancel_right (compareFrom_eq_zero .normal a.terminated b.terminated zero)
  · intro same
    rw [(strverscmp_sign a b).zero, same]

end Nglibc.Strings
