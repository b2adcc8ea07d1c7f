import Mathlib.Data.List.Basic

/-! The syntax of UTF-8 as a machine on bytes, and that it accepts exactly the encodings of
Unicode scalar values.
-/

namespace Nglibc.Utf8

/-- What a started character still owes: the number of its missing bytes, the value of the
bytes so far and the range `[lo, hi)` of the next byte.
-/
structure Owed where
  tails : Nat
  acc : Nat
  lo : Nat
  hi : Nat
  deriving DecidableEq

/-- What a byte from 0x80 on owes as the first byte of a character. -/
def lead (b : UInt8) : Option Owed :=
  let n := b.toNat
  if n < 0xC2 then none
  else if n < 0xE0 then some ⟨1, n - 0xC0, 0x80, 0xC0⟩
  else if n < 0xF0 then
    some ⟨2, n - 0xE0, if n = 0xE0 then 0xA0 else 0x80, if n = 0xED then 0xA0 else 0xC0⟩
  else if n < 0xF5 then
    some ⟨3, n - 0xF0, if n = 0xF0 then 0x90 else 0x80, if n = 0xF4 then 0x90 else 0xC0⟩
  else none

def Owed.accepts (o : Owed) (b : UInt8) : Prop := o.lo ≤ b.toNat ∧ b.toNat < o.hi

instance (o : Owed) (b : UInt8) : Decidable (o.accepts b) :=
  inferInstanceAs (Decidable (_ ∧ _))

/-- The value so far with the payload of one more byte. -/
def Owed.push (o : Owed) (b : UInt8) : Nat := o.acc * 64 + (b.toNat - 0x80)

def Owed.next (o : Owed) (b : UInt8) : Owed := ⟨o.tails - 1, o.push b, 0x80, 0xC0⟩

/-- The start of a byte string: a character with what follows it, a part of a character, or
neither.
-/
inductive Scan where
  | char (v : Nat) (rest : List UInt8)
  | part (o : Owed)
  | illFormed
  deriving DecidableEq

def scanOwed (o : Owed) : List UInt8 → Scan
  | [] => .part o
  | b :: rest =>
    if o.accepts b then
      if o.tails ≤ 1 then .char (o.push b) rest else scanOwed (o.next b) rest
    else .illFormed

def scan (b : UInt8) (rest : List UInt8) : Scan :=
  if b.toNat < 0x80 then .char b.toNat rest
  else
    match lead b with
    | none => .illFormed
    | some o => scanOwed o rest

theorem toNat_ofNat {n : Nat} (small : n < 256) : (UInt8.ofNat n).toNat = n :=
  UInt8.toNat_ofNat_of_lt' small

variable {o : Owed} {b : UInt8}

/-- A character owes at most three bytes, each a continuation byte. -/
theorem lead_cases (leads : lead b = some o)
    : (o.tails = 1 ∧ 0xC2 ≤ b.toNat ∧ b.toNat < 0xE0 ∧ o = ⟨1, b.toNat - 0xC0, 0x80, 0xC0⟩)
      ∨ (o.tails = 2 ∧ 0xE0 ≤ b.toNat ∧ b.toNat < 0xF0
        ∧ o = ⟨2, b.toNat - 0xE0, if b.toNat = 0xE0 then 0xA0 else 0x80,
          if b.toNat = 0xED then 0xA0 else 0xC0⟩)
      ∨ (o.tails = 3 ∧ 0xF0 ≤ b.toNat ∧ b.toNat < 0xF5
        ∧ o = ⟨3, b.toNat - 0xF0, if b.toNat = 0xF0 then 0x90 else 0x80,
          if b.toNat = 0xF4 then 0x90 else 0xC0⟩) := by
  unfold lead at leads
  simp only at leads
  split at leads
  · cases leads
  · split at leads
    · cases leads
      exact .inl ⟨rfl, by omega, by omega, rfl⟩
    · split at leads
      · cases leads
        exact .inr (.inl ⟨rfl, by omega, by omega, rfl⟩)
      · split at leads
        · cases leads
          exact .inr (.inr ⟨rfl, by omega, by omega, rfl⟩)
        · cases leads

/-- The bytes of a character as numbers, by the number of bytes. -/
theorem encode_cases (c : Char)
    : (∃ x, x < 0x80 ∧ c.val.toNat = x ∧ String.utf8EncodeChar c = [UInt8.ofNat x])
      ∨ (∃ x y, 2 ≤ x ∧ x < 32 ∧ y < 64 ∧ c.val.toNat = x * 64 + y
        ∧ String.utf8EncodeChar c = [UInt8.ofNat (0xC0 + x), UInt8.ofNat (0x80 + y)])
      ∨ (∃ x y z, x < 16 ∧ y < 64 ∧ z < 64 ∧ (x = 0 → 32 ≤ y) ∧ (x = 13 → y < 32)
        ∧ c.val.toNat = (x * 64 + y) * 64 + z
        ∧ String.utf8EncodeChar c
          = [UInt8.ofNat (0xE0 + x), UInt8.ofNat (0x80 + y), UInt8.ofNat (0x80 + z)])
      ∨ (∃ w x y z, w < 5 ∧ x < 64 ∧ y < 64 ∧ z < 64 ∧ (w = 0 → 16 ≤ x) ∧ (w = 4 → x < 16)
        ∧ c.val.toNat = ((w * 64 + x) * 64 + y) * 64 + z
        ∧ String.utf8EncodeChar c
          = [UInt8.ofNat (0xF0 + w), UInt8.ofNat (0x80 + x), UInt8.ofNat (0x80 + y),
            UInt8.ofNat (0x80 + z)]) := by
  have valid : c.val.toNat < 0xD800 ∨ 0xDFFF < c.val.toNat ∧ c.val.toNat < 0x110000 := c.valid
  generalize value : c.val.toNat = v at valid ⊢
  unfold String.utf8EncodeChar
  simp only [value]
  by_cases one : v ≤ 0x7F
  · exact .inl ⟨v, by omega, rfl, by simp [one]⟩
  · by_cases two : v ≤ 0x7FF
    · refine .inr (.inl ⟨v / 64 % 32, v % 64, by omega, by omega, by omega, by omega, ?_⟩)
      simp only [one, two, if_true, if_false, Nat.add_comm]
    · by_cases three : v ≤ 0xFFFF
      · refine .inr (.inr (.inl ⟨v / 4096 % 16, v / 64 % 64, v % 64, by omega, by omega,
          by omega, by omega, by omega, by omega, ?_⟩))
        simp only [one, two, three, if_true, if_false, Nat.add_comm]
      · refine .inr (.inr (.inr ⟨v / 262144 % 8, v / 4096 % 64, v / 64 % 64, v % 64,
          by omega, by omega, by omega, by omega, by omega, by omega, by omega, ?_⟩))
        simp only [one, two, three, if_false, Nat.add_comm]

theorem scanOwed_tail {y : Nat} (small : y < 64) (low : o.lo ≤ 0x80 + y) (high : 0x80 + y < o.hi)
    (rest : List UInt8)
    : scanOwed o (UInt8.ofNat (0x80 + y) :: rest) = if o.tails ≤ 1 then .char (o.acc * 64 + y) rest
        else scanOwed ⟨o.tails - 1, o.acc * 64 + y, 0x80, 0xC0⟩ rest := by
  have value : (UInt8.ofNat (0x80 + y)).toNat = 0x80 + y := toNat_ofNat (by omega)
  have accepts : o.accepts (UInt8.ofNat (0x80 + y)) := by
    rw [Owed.accepts, value]
    exact ⟨low, high⟩
  have push : o.push (UInt8.ofNat (0x80 + y)) = o.acc * 64 + y := by
    unfold Owed.push
    omega
  rw [scanOwed, if_pos accepts, Owed.next, push]

theorem scan_lead {n : Nat} (low : 0x80 ≤ n) (high : n < 256) (leads : lead (UInt8.ofNat n) = some o)
    (rest : List UInt8)
    : scan (UInt8.ofNat n) rest = scanOwed o rest := by
  rw [scan, toNat_ofNat high, if_neg (by omega), leads]

theorem lead_two {x : Nat} (low : 2 ≤ x) (high : x < 32)
    : lead (UInt8.ofNat (0xC0 + x)) = some ⟨1, x, 0x80, 0xC0⟩ := by
  simp only [lead, toNat_ofNat (show 0xC0 + x < 256 by omega)]
  rw [if_neg (by omega), if_pos (by omega), Nat.add_sub_cancel_left]

theorem lead_three {x : Nat} (high : x < 16)
    : lead (UInt8.ofNat (0xE0 + x))
      = some ⟨2, x, if x = 0 then 0xA0 else 0x80, if x = 13 then 0xA0 else 0xC0⟩ := by
  simp only [lead, toNat_ofNat (show 0xE0 + x < 256 by omega)]
  rw [if_neg (by omega), if_neg (by omega), if_pos (by omega), Nat.add_sub_cancel_left]
  congr 2 <;> congr 1 <;> simp only [eq_iff_iff] <;> omega

theorem lead_four {w : Nat} (high : w < 5)
    : lead (UInt8.ofNat (0xF0 + w))
      = some ⟨3, w, if w = 0 then 0x90 else 0x80, if w = 4 then 0x90 else 0xC0⟩ := by
  simp only [lead, toNat_ofNat (show 0xF0 + w < 256 by omega)]
  rw [if_neg (by omega), if_neg (by omega), if_neg (by omega), if_pos (by omega),
    Nat.add_sub_cancel_left]
  congr 2 <;> congr 1 <;> simp only [eq_iff_iff] <;> omega

/-- The machine reads the encoding of every character. -/
theorem scan_encode (c : Char) (rest : List UInt8)
    : ∃ b more, String.utf8EncodeChar c ++ rest = b :: more
      ∧ scan b more = .char c.val.toNat rest := by
  rcases encode_cases c with ⟨x, small, value, bytes⟩ | ⟨x, y, low, high, small, value, bytes⟩
    | ⟨x, y, z, _, _, _, overlong, surrogate, value, bytes⟩
    | ⟨w, x, y, z, _, _, _, _, overlong, most, value, bytes⟩
  · refine ⟨_, _, by rw [bytes]; rfl, ?_⟩
    simp [scan, toNat_ofNat (show x < 256 by omega), small, value]
  · refine ⟨UInt8.ofNat (0xC0 + x), UInt8.ofNat (0x80 + y) :: rest, by rw [bytes]; rfl, ?_⟩
    rw [scan_lead (by omega) (by omega) (lead_two low high),
      scanOwed_tail small (by simp only; omega) (by simp only; omega), value]
    rfl
  · refine ⟨UInt8.ofNat (0xE0 + x), UInt8.ofNat (0x80 + y) :: UInt8.ofNat (0x80 + z) :: rest,
      by rw [bytes]; rfl, ?_⟩
    rw [scan_lead (by omega) (by omega) (lead_three (by omega)),
      scanOwed_tail (by omega) (by simp only; split <;> omega) (by simp only; split <;> omega),
      scanOwed_tail (by omega) (by simp only; omega) (by simp only; omega), value]
    rfl
  · refine ⟨UInt8.ofNat (0xF0 + w), UInt8.ofNat (0x80 + x) :: UInt8.ofNat (0x80 + y)
      :: UInt8.ofNat (0x80 + z) :: rest, by rw [bytes]; rfl, ?_⟩
    rw [scan_lead (by omega) (by omega) (lead_four (by omega)),
      scanOwed_tail (by omega) (by simp only; split <;> omega) (by simp only; split <;> omega),
      scanOwed_tail (by omega) (by simp only; omega) (by simp only; omega),
      scanOwed_tail (by omega) (by simp only; omega) (by simp only; omega), value]
    rfl

/-- A number outside the surrogates and at most 0x10FFFF is a character. -/
theorem exists_char {v : Nat} (valid : v < 0xD800 ∨ 0xDFFF < v ∧ v < 0x110000)
    : ∃ c : Char, c.val.toNat = v :=
  ⟨Char.ofNatAux v valid, rfl⟩

theorem accepts_tail (accepts : o.accepts b) (low : 0x80 ≤ o.lo) (high : o.hi ≤ 0xC0)
    : ∃ y, y < 64 ∧ o.lo ≤ 0x80 + y ∧ 0x80 + y < o.hi ∧ b = UInt8.ofNat (0x80 + y) := by
  obtain ⟨above, below⟩ := accepts
  refine ⟨b.toNat - 0x80, by omega, by omega, by omega, ?_⟩
  rw [Nat.add_sub_cancel' (by omega), UInt8.ofNat_toNat]

/-- The byte behind a state that leads to a character. -/
theorem scanOwed_char {bytes rest : List UInt8} {v : Nat} (reads : scanOwed o bytes = .char v rest)
    (low : 0x80 ≤ o.lo) (high : o.hi ≤ 0xC0)
    : ∃ y more, y < 64 ∧ o.lo ≤ 0x80 + y ∧ 0x80 + y < o.hi ∧ bytes = UInt8.ofNat (0x80 + y) :: more
      ∧ (o.tails ≤ 1 ∧ v = o.acc * 64 + y ∧ more = rest ∨ 1 < o.tails
          ∧ scanOwed ⟨o.tails - 1, o.acc * 64 + y, 0x80, 0xC0⟩ more = .char v rest) := by
  cases bytes with
  | nil => cases reads
  | cons b more =>
    by_cases accepts : o.accepts b
    · obtain ⟨y, small, above, below, rfl⟩ := accepts_tail accepts low high
      rw [scanOwed_tail small above below] at reads
      refine ⟨y, more, small, above, below, rfl, ?_⟩
      split at reads
      · rename_i last
        cases reads
        exact .inl ⟨last, rfl, rfl⟩
      · rename_i several
        exact .inr ⟨by omega, reads⟩
    · rw [scanOwed, if_neg accepts] at reads
      cases reads

theorem utf8EncodeChar_one {c : Char} (ascii : c.val.toNat < 0x80)
    : String.utf8EncodeChar c = [UInt8.ofNat c.val.toNat] := by
  unfold String.utf8EncodeChar
  rw [if_pos (by omega)]

theorem utf8EncodeChar_two {c : Char} {x y : Nat} (low : 2 ≤ x) (high : x < 32) (small : y < 64)
    (value : c.val.toNat = x * 64 + y)
    : String.utf8EncodeChar c = [UInt8.ofNat (0xC0 + x), UInt8.ofNat (0x80 + y)] := by
  rcases encode_cases c with ⟨a, _, same, _⟩ | ⟨a, b, _, _, _, same, bytes⟩
    | ⟨a, b, d, _, _, _, _, _, same, _⟩ | ⟨a, b, d, e, _, _, _, _, _, _, same, _⟩
  · omega
  · rw [bytes, show a = x by omega, show b = y by omega]
  · omega
  · omega

theorem utf8EncodeChar_three {c : Char} {x y z : Nat} (first : x < 16) (second : y < 64)
    (third : z < 64) (overlong : x = 0 → 32 ≤ y) (value : c.val.toNat = (x * 64 + y) * 64 + z)
    : String.utf8EncodeChar c
      = [UInt8.ofNat (0xE0 + x), UInt8.ofNat (0x80 + y), UInt8.ofNat (0x80 + z)] := by
  rcases encode_cases c with ⟨a, _, same, _⟩ | ⟨a, b, _, _, _, same, _⟩
    | ⟨a, b, d, _, _, _, _, _, same, bytes⟩ | ⟨a, b, d, e, _, _, _, _, _, _, same, _⟩
  · omega
  · omega
  · rw [bytes, show a = x by omega, show b = y by omega, show d = z by omega]
  · omega

theorem utf8EncodeChar_four {c : Char} {w x y z : Nat} (first : w < 5) (second : x < 64)
    (third : y < 64) (fourth : z < 64) (overlong : w = 0 → 16 ≤ x)
    (value : c.val.toNat = ((w * 64 + x) * 64 + y) * 64 + z)
    : String.utf8EncodeChar c
      = [UInt8.ofNat (0xF0 + w), UInt8.ofNat (0x80 + x), UInt8.ofNat (0x80 + y),
        UInt8.ofNat (0x80 + z)] := by
  rcases encode_cases c with ⟨a, _, same, _⟩ | ⟨a, b, _, _, _, same, _⟩
    | ⟨a, b, d, _, _, _, _, _, same, _⟩ | ⟨a, b, d, e, _, _, _, _, _, _, same, bytes⟩
  · omega
  · omega
  · omega
  · rw [bytes, show a = w by omega, show b = x by omega, show d = y by omega,
      show e = z by omega]

/-- What the machine reads as a character is the encoding of one. -/
theorem encode_of_scan {more rest : List UInt8} {v : Nat} (reads : scan b more = .char v rest)
    : ∃ c : Char, c.val.toNat = v ∧ b :: more = String.utf8EncodeChar c ++ rest := by
  unfold scan at reads
  split at reads
  · rename_i ascii
    cases reads
    obtain ⟨c, value⟩ := exists_char (v := b.toNat) (by omega)
    refine ⟨c, value, ?_⟩
    rw [utf8EncodeChar_one (by omega), value, UInt8.ofNat_toNat]
    rfl
  · cases leads : lead b with
    | none =>
      rw [leads] at reads
      cases reads
    | some o =>
      rw [leads] at reads
      rcases lead_cases leads with ⟨_, low, high, rfl⟩ | ⟨_, low, high, rfl⟩
        | ⟨_, low, high, rfl⟩
      · obtain ⟨y, _, small, _, _, rfl, ⟨_, rfl, rfl⟩ | ⟨several, _⟩⟩ :=
          scanOwed_char reads (by simp) (by simp)
        · obtain ⟨c, value⟩ := exists_char (v := (b.toNat - 0xC0) * 64 + y) (by omega)
          refine ⟨c, value, ?_⟩
          rw [utf8EncodeChar_two (by omega) (by omega) small value,
            Nat.add_sub_cancel' (by omega), UInt8.ofNat_toNat]
          rfl
        · simp at several
      · obtain ⟨y, _, smallY, aboveY, belowY, rfl, ⟨last, _⟩ | ⟨_, reads⟩⟩ :=
          scanOwed_char reads (by simp only; split <;> omega) (by simp only; split <;> omega)
        · simp at last
        · obtain ⟨z, _, smallZ, _, _, rfl, ⟨_, rfl, rfl⟩ | ⟨several, _⟩⟩ :=
            scanOwed_char reads (by simp) (by simp)
          · simp only at aboveY belowY
            have overlong : b.toNat - 0xE0 = 0 → 32 ≤ y := by
              intro zero
              rw [if_pos (by omega)] at aboveY
              omega
            have surrogate : b.toNat - 0xE0 = 13 → y < 32 := by
              intro thirteen
              rw [if_pos (by omega)] at belowY
              omega
            obtain ⟨c, value⟩ := exists_char (v := ((b.toNat - 0xE0) * 64 + y) * 64 + z) (by omega)
            refine ⟨c, value, ?_⟩
            rw [utf8EncodeChar_three (by omega) smallY smallZ overlong value,
              Nat.add_sub_cancel' (by omega), UInt8.ofNat_toNat]
            rfl
          · simp at several
      · obtain ⟨x, _, smallX, aboveX, belowX, rfl, ⟨last, _⟩ | ⟨_, reads⟩⟩ :=
          scanOwed_char reads (by simp only; split <;> omega) (by simp only; split <;> omega)
        · simp at last
        · obtain ⟨y, _, smallY, _, _, rfl, ⟨last, _⟩ | ⟨_, reads⟩⟩ :=
            scanOwed_char reads (by simp) (by simp)
          · simp at last
          · obtain ⟨z, _, smallZ, _, _, rfl, ⟨_, rfl, rfl⟩ | ⟨several, _⟩⟩ :=
              scanOwed_char reads (by simp) (by simp)
            · simp only at aboveX belowX
              have overlong : b.toNat - 0xF0 = 0 → 16 ≤ x := by
                intro zero
                rw [if_pos (by omega)] at aboveX
                omega
              have most : b.toNat - 0xF0 = 4 → x < 16 := by
                intro four
                rw [if_pos (by omega)] at belowX
                omega
              obtain ⟨c, value⟩ :=
                exists_char (v := (((b.toNat - 0xF0) * 64 + x) * 64 + y) * 64 + z) (by omega)
              refine ⟨c, value, ?_⟩
              rw [utf8EncodeChar_four (by omega) smallX smallY smallZ overlong value,
                Nat.add_sub_cancel' (by omega), UInt8.ofNat_toNat]
              rfl
            · simp at several

/-- The next byte has a range of continuation bytes. -/
structure Owed.Valid (o : Owed) : Prop where
  lo : 0x80 ≤ o.lo
  lt : o.lo < o.hi
  hi : o.hi ≤ 0xC0

theorem lead_valid (leads : lead b = some o) : o.Valid := by
  rcases lead_cases leads with ⟨_, _, _, rfl⟩ | ⟨_, _, _, rfl⟩ | ⟨_, _, _, rfl⟩
  · exact ⟨by simp, by simp, by simp⟩
  all_goals
    constructor <;> simp only <;> split <;> (try split) <;> omega

theorem Owed.next_valid (o : Owed) (b : UInt8) : (o.next b).Valid :=
  ⟨Nat.le_refl _, by simp [Owed.next], Nat.le_refl _⟩

/-- What the machine reads when more bytes follow. -/
def Scan.extend (tail : List UInt8) : Scan → Scan
  | .char v rest => .char v (rest ++ tail)
  | .part o => scanOwed o tail
  | .illFormed => .illFormed

theorem scanOwed_append (o : Owed) (bytes tail : List UInt8)
    : scanOwed o (bytes ++ tail) = (scanOwed o bytes).extend tail := by
  induction bytes generalizing o with
  | nil => rfl
  | cons b more ih =>
    rw [List.cons_append, scanOwed, scanOwed]
    split
    · split
      · rfl
      · exact ih (o.next b)
    · rfl

theorem scan_append (b : UInt8) (bytes tail : List UInt8)
    : scan b (bytes ++ tail) = (scan b bytes).extend tail := by
  unfold scan
  split
  · rfl
  · cases lead b with
    | none => rfl
    | some o => exact scanOwed_append o bytes tail

theorem scanOwed_valid {o o' : Owed} {bytes : List UInt8} (reads : scanOwed o bytes = .part o')
    (valid : o.Valid)
    : o'.Valid := by
  induction bytes generalizing o with
  | nil =>
    cases reads
    exact valid
  | cons b more ih =>
    rw [scanOwed] at reads
    split at reads
    · split at reads
      · cases reads
      · exact ih reads (o.next_valid b)
    · cases reads

theorem Owed.Valid.accepts_lo (valid : o.Valid) : o.accepts (UInt8.ofNat o.lo) := by
  have lt := valid.lt
  have hi := valid.hi
  rw [Owed.accepts, toNat_ofNat (by omega)]
  exact ⟨Nat.le_refl _, lt⟩

theorem Owed.Valid.complete (valid : o.Valid)
    : ∃ tail v, tail ≠ [] ∧ scanOwed o tail = .char v [] := by
  obtain ⟨n, size⟩ : ∃ n, o.tails ≤ n + 1 := ⟨o.tails, Nat.le_succ _⟩
  induction n generalizing o with
  | zero =>
    refine ⟨[UInt8.ofNat o.lo], o.push (UInt8.ofNat o.lo), by simp, ?_⟩
    rw [scanOwed, if_pos valid.accepts_lo, if_pos size]
  | succ n ih =>
    by_cases last : o.tails ≤ 1
    · refine ⟨[UInt8.ofNat o.lo], o.push (UInt8.ofNat o.lo), by simp, ?_⟩
      rw [scanOwed, if_pos valid.accepts_lo, if_pos last]
    · obtain ⟨tail, v, _, reads⟩ := ih (o.next_valid (UInt8.ofNat o.lo))
        (by simp only [Owed.next]; omega)
      refine ⟨UInt8.ofNat o.lo :: tail, v, by simp, ?_⟩
      rw [scanOwed, if_pos valid.accepts_lo, if_neg last, reads]

variable {more : List UInt8}

theorem scan_valid (reads : scan b more = .part o)
    : o.Valid := by
  unfold scan at reads
  split at reads
  · cases reads
  · cases leads : lead b with
    | none =>
      rw [leads] at reads
      cases reads
    | some first =>
      rw [leads] at reads
      exact scanOwed_valid reads (lead_valid leads)

/-- A started character that the machine has not refused is the proper prefix of one. -/
theorem prefix_of_scan (reads : scan b more = .part o)
    : ∃ c : Char, ∃ tail, tail ≠ [] ∧ String.utf8EncodeChar c = b :: (more ++ tail) := by
  obtain ⟨tail, v, nonempty, completes⟩ := (scan_valid reads).complete
  have scanned : scan b (more ++ tail) = .char v [] := by
    rw [scan_append, reads, Scan.extend, completes]
  obtain ⟨c, _, encoded⟩ := encode_of_scan scanned
  exact ⟨c, tail, nonempty, by rw [encoded, List.append_nil]⟩

def NoStart (bytes : List UInt8) : Prop := ∀ c : Char, ¬ String.utf8EncodeChar c <+: bytes

theorem NoStart.not_char (none : NoStart (b :: more)) (v : Nat) (rest : List UInt8)
    : scan b more ≠ .char v rest := by
  intro reads
  obtain ⟨c, _, bytes⟩ := encode_of_scan reads
  exact none c ⟨rest, bytes.symm⟩

theorem utf8EncodeChar_ne_nil (c : Char) : String.utf8EncodeChar c ≠ [] :=
  String.utf8EncodeChar_ne_nil

/-- Every byte string is a string of characters and then bytes that start with none; by
induction on its length.
-/
theorem exists_characters (bytes : List UInt8)
    : ∃ (chars : List Char) (tail : List UInt8),
        bytes = chars.flatMap String.utf8EncodeChar ++ tail ∧ NoStart tail := by
  obtain ⟨n, size⟩ : ∃ n, bytes.length ≤ n := ⟨_, Nat.le_refl _⟩
  induction n generalizing bytes with
  | zero =>
    have nil := List.length_eq_zero_iff.mp (Nat.le_zero.mp size)
    refine ⟨[], bytes, rfl, ?_⟩
    intro c starts
    rw [nil, List.prefix_nil] at starts
    exact utf8EncodeChar_ne_nil c starts
  | succ n ih =>
    by_cases none : NoStart bytes
    · exact ⟨[], bytes, rfl, none⟩
    · simp only [NoStart, not_forall, not_not] at none
      obtain ⟨c, rest, starts⟩ := none
      have positive := List.length_pos_of_ne_nil (utf8EncodeChar_ne_nil c)
      have shorter : rest.length ≤ n := by
        rw [← starts, List.length_append] at size
        omega
      obtain ⟨chars, tail, split, noStart⟩ := ih rest shorter
      refine ⟨c :: chars, tail, ?_, noStart⟩
      rw [← starts, split, List.flatMap_cons, List.append_assoc]

end Nglibc.Utf8
