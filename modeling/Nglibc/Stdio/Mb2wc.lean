import Mathlib.Tactic.IntervalCases
import Nglibc.Lib.Memory
import Nglibc.Stdio.Mbr2wc

/-! The UTF-8 encoder `wc2mb` and the decoder `mb2wc` of the wide output functions. The first
bytes that `mb2wc` expects are two above those of UTF-8.
-/

namespace Nglibc.Stdio

open Utf8

/-- A conversion to `char`. -/
def toByte (x : BitVec 32) : UInt8 := UInt8.ofBitVec (x.setWidth 8)

/-- `wc2mb`: its result and the bytes it stores. No negative `wc` is shifted. -/
def wc2mb (wc : BitVec 32) : Nat × List UInt8 :=
  if wc ≥ 0x80#32 then
    let last := toByte (wc &&& 0x3F#32 ||| 0x80#32)
    if wc < 0x800#32 then
      (8 / 4, [toByte (wc >>> 6 &&& 0x3F#32 ||| 0x80#32 ||| 1#32 <<< 6), last])
    else
      let third := toByte (wc >>> 6 &&& 0x3F#32 ||| 0x80#32)
      if wc < 0xD800#32 ∨ wc - 0xE000#32 < 0x2000#32 then
        (12 / 4, [toByte (wc >>> 12 &&& 0x3F#32 ||| (26#32 - 12#32) <<< 4), third, last])
      else if wc - 0x10000#32 < 0x100000#32 then
        (18 / 4, [toByte (wc >>> 18 ||| 0xF0#32),
          toByte (wc >>> 12 &&& 0x3F#32 ||| (26#32 - 18#32) <<< 4), third, last])
      else (ilseqValue, [])
  else (1, [toByte wc])

/-- The result of `mb2wc` and the character it stores through `wc`. -/
structure Mb where
  ret : Int
  wc : Option (BitVec 32)
  deriving DecidableEq

/-- `invalid_utf8`, which sets `errno` to `EILSEQ`. -/
def Mb.invalid : Mb := ⟨-1, none⟩

/-- `mb2wc` from its third byte on. -/
def mb2wcLong (memory : Memory UInt8) (s : Nat) (c : BitVec 32) : Mb :=
  let c := (c - 0x800#32) <<< 6
  if c < 0x800#32 ∨ c - 0xD800#32 < 0x800#32 ∨ c - 0x10000#32 < 0x400#32 ∨ c ≥ 0x14400#32 then
    Mb.invalid
  else
    let b := toUnsigned (memory (s + 2)) - 0x80
    let c := c ||| b
    if b ≥ 0xC0#32 - 0x80#32 then Mb.invalid
    else if c < 0x10000#32 then ⟨3, some c⟩
    else
      let b := toUnsigned (memory (s + 3)) - 0x80
      let c := (c - 0x10000#32) <<< 6 ||| b
      if b < 0xC0#32 - 0x80#32 then ⟨4, some c⟩ else Mb.invalid

/-- `mb2wc` of the string at the address `s`. -/
def mb2wc (memory : Memory UInt8) (s : Nat) : Mb :=
  let c := toUnsigned (memory s)
  if c < 0x80#32 then ⟨if c ≠ 0 then 1 else 0, some c⟩
  else
    let c := c - 0xC2#32
    if c ≥ 0xF4#32 - 0xC2#32 then Mb.invalid
    else
      let b := toUnsigned (memory (s + 1)) - 0x80
      let c := c <<< 6 ||| b
      if b ≥ 0xC0#32 - 0x80#32 then Mb.invalid
      else if c < 0x800#32 then ⟨2, some c⟩
      else mb2wcLong memory s c

def IsTail (n : Nat) : Prop := 0x80 ≤ n ∧ n < 0xC0

instance (n : Nat) : Decidable (IsTail n) := inferInstanceAs (Decidable (_ ∧ _))

/-- The third and fourth byte behind a first byte with payload `x` from 0xE2 on. -/
def decodeLong (x b c d : Nat) : Mb :=
  if x = 0 ∧ b < 0xA0 ∨ x = 13 ∧ 0xA0 ≤ b ∨ x = 16 ∧ b < 0x90 ∨ ¬ IsTail c then Mb.invalid
  else if x < 16 then ⟨3, some (BitVec.ofNat 32 ((x * 64 + (b - 0x80)) * 64 + (c - 0x80)))⟩
  else if IsTail d then
    ⟨4, some (BitVec.ofNat 32 ((((x - 16) * 64 + (b - 0x80)) * 64 + (c - 0x80)) * 64 + (d - 0x80)))⟩
  else Mb.invalid

/-- The decoder of bytes `a`, `b`, `c`, `d` whose first bytes are two above those of UTF-8. -/
def decodeAbove (a b c d : Nat) : Mb :=
  if a < 0x80 then ⟨if a ≠ 0 then 1 else 0, some (BitVec.ofNat 32 a)⟩
  else if a < 0xC2 ∨ 0xF4 ≤ a ∨ ¬ IsTail b then Mb.invalid
  else if a < 0xE2 then ⟨2, some (BitVec.ofNat 32 ((a - 0xC2) * 64 + (b - 0x80)))⟩
  else decodeLong (a - 0xE2) b c d

theorem toNat_toUnsigned (b : UInt8) : (toUnsigned b).toNat = b.toNat := by
  have small := b.toNat_lt
  rw [toUnsigned, BitVec.toNat_ofNat, Nat.mod_eq_of_lt (by omega)]

theorem payload_ge (b : UInt8) : toUnsigned b - 0x80 ≥ 0xC0#32 - 0x80#32 ↔ ¬ IsTail b.toNat :=
  toUnsigned_tail b

/-- A number with the payload of a continuation byte behind it. -/
theorem or_tail {c : BitVec 32} {b : UInt8} {n : Nat} (tail : IsTail b.toNat) (value : c.toNat = n)
    (small : n < 2 ^ 26)
    : (c <<< 6 ||| (toUnsigned b - 0x80)).toNat = n * 64 + (b.toNat - 0x80) := by
  have bound := tail.2
  rw [or_payload tail.1 tail.2]
  omega

theorem eq_ofNat {c : BitVec 32} {n : Nat} (value : c.toNat = n) : c = BitVec.ofNat 32 n := by
  rw [← value, BitVec.ofNat_toNat, BitVec.setWidth_eq]

/-- The tests against overlong forms, surrogates and too large values. -/
theorem mb2wc_range {c : BitVec 32} {x y : Nat} (value : c.toNat = x * 64 + y) (lead : x < 18)
    (payload : y < 64)
    : (c <<< 6 < 0x800#32 ∨ c <<< 6 - 0xD800#32 < 0x800#32 ∨ c <<< 6 - 0x10000#32 < 0x400#32
        ∨ c <<< 6 ≥ 0x14400#32)
      ↔ x = 0 ∧ y < 0x20 ∨ x = 13 ∧ 0x20 ≤ y ∨ x = 16 ∧ y < 0x10 := by
  have shifted : (c <<< 6).toNat = (x * 64 + y) * 64 := by
    rw [BitVec.toNat_shiftLeft]
    omega
  change (_ < 0x800 ∨ (2 ^ 32 - 0xD800 + _) % 2 ^ 32 < 0x800
    ∨ (2 ^ 32 - 0x10000 + _) % 2 ^ 32 < 0x400 ∨ 0x14400 ≤ _) ↔ _
  omega

variable {memory : Memory UInt8} {c : Char} {s : Nat}

/-- Three and four bytes, by the lead byte and the first bits of the second. -/
theorem mb2wcLong_decodeLong {s x : Nat} {c : BitVec 32} (lead : x < 18)
    (tail : IsTail (memory (s + 1)).toNat)
    (value : c.toNat = 0x800 + x * 64 + ((memory (s + 1)).toNat - 0x80))
    : mb2wcLong memory s c
      = decodeLong x (memory (s + 1)).toNat (memory (s + 2)).toNat (memory (s + 3)).toNat := by
  have bounds := tail
  unfold IsTail at bounds
  have rest : (c - 0x800#32).toNat = x * 64 + ((memory (s + 1)).toNat - 0x80) := by
    change (2 ^ 32 - 0x800 + _) % 2 ^ 32 = _
    omega
  have range := mb2wc_range rest lead (by omega)
  unfold mb2wcLong decodeLong
  generalize c - 0x800#32 = c at rest range ⊢
  simp only [payload_ge]
  by_cases bad : x = 0 ∧ (memory (s + 1)).toNat - 0x80 < 0x20
      ∨ x = 13 ∧ 0x20 ≤ (memory (s + 1)).toNat - 0x80
      ∨ x = 16 ∧ (memory (s + 1)).toNat - 0x80 < 0x10
  · rw [if_pos (range.mpr bad), if_pos (by omega)]
  · rw [if_neg (fun outside => bad (range.mp outside))]
    clear range
    by_cases third : IsTail (memory (s + 2)).toNat
    · have three := or_tail third rest (by omega)
      have bounds' := third
      unfold IsTail at bounds'
      have good : ¬ (x = 0 ∧ (memory (s + 1)).toNat < 0xA0 ∨ x = 13 ∧ 0xA0 ≤ (memory (s + 1)).toNat
          ∨ x = 16 ∧ (memory (s + 1)).toNat < 0x90 ∨ ¬ IsTail (memory (s + 2)).toNat) := by
        simp only [third, not_true_eq_false, or_false]
        omega
      rw [if_neg (not_not_intro third), if_neg good]
      clear bad good
      generalize c <<< 6 ||| (toUnsigned (memory (s + 2)) - 0x80) = c at three ⊢
      by_cases short : x < 16
      · have less : c < 0x10000#32 := by
          rw [BitVec.lt_def]
          change _ < 0x10000
          omega
        rw [if_pos less, if_pos short, eq_ofNat three]
      · have more : ¬ c < 0x10000#32 := by
          rw [BitVec.lt_def]
          change ¬ _ < 0x10000
          omega
        have last : (c - 0x10000#32).toNat = ((x - 16) * 64 + ((memory (s + 1)).toNat - 0x80)) * 64
            + ((memory (s + 2)).toNat - 0x80) := by
          change (2 ^ 32 - 0x10000 + _) % 2 ^ 32 = _
          omega
        rw [if_neg more, if_neg short]
        by_cases fourth : IsTail (memory (s + 3)).toNat
        · rw [if_pos fourth, if_pos (by rwa [← BitVec.not_le, ← ge_iff_le, payload_ge, not_not]),
            eq_ofNat (or_tail fourth last (by omega))]
        · rw [if_neg fourth, if_neg (by rwa [BitVec.not_lt, ← ge_iff_le, payload_ge])]
    · rw [if_pos third, if_pos (.inr (.inr (.inr third)))]

/-- `mb2wc` as a function of the first four bytes. -/
theorem mb2wc_decodeAbove (memory : Memory UInt8) (s : Nat)
    : mb2wc memory s = decodeAbove (memory s).toNat (memory (s + 1)).toNat (memory (s + 2)).toNat
          (memory (s + 3)).toNat := by
  have first := toNat_toUnsigned (memory s)
  have less : toUnsigned (memory s) < 0x80#32 ↔ (memory s).toNat < 0x80 := by
    rw [BitVec.lt_def, first]
    rfl
  have lowered : (toUnsigned (memory s) - 0xC2#32).toNat
      = ((memory s).toNat + (2 ^ 32 - 0xC2)) % 2 ^ 32 := by
    rw [BitVec.toNat_sub, first, Nat.add_comm]
    rfl
  have outside : toUnsigned (memory s) - 0xC2#32 ≥ 0xF4#32 - 0xC2#32
      ↔ (memory s).toNat < 0xC2 ∨ 0xF4 ≤ (memory s).toNat := by
    rw [ge_iff_le, BitVec.le_def]
    change 50 ≤ _ ↔ _
    omega
  have zero : toUnsigned (memory s) ≠ 0 ↔ (memory s).toNat ≠ 0 := by
    rw [ne_eq, ← BitVec.toNat_inj, first]
    rfl
  unfold mb2wc decodeAbove
  simp only [less, outside, payload_ge, zero]
  split
  · rfl
  · rename_i ascii
    by_cases refused : (memory s).toNat < 0xC2 ∨ 0xF4 ≤ (memory s).toNat
    · rw [if_pos refused, if_pos (by omega)]
    · rw [if_neg refused]
      by_cases tail : IsTail (memory (s + 1)).toNat
      · have accepted : ¬ ((memory s).toNat < 0xC2 ∨ 0xF4 ≤ (memory s).toNat
            ∨ ¬ IsTail (memory (s + 1)).toNat) := by
          simp only [tail, not_true_eq_false, or_false]
          exact refused
        have lead : (toUnsigned (memory s) - 0xC2#32).toNat = (memory s).toNat - 0xC2 := by
          omega
        have two := or_tail tail lead (by omega)
        have bounds := tail
        unfold IsTail at bounds
        rw [if_neg (not_not_intro tail)]
        generalize (toUnsigned (memory s) - 0xC2#32) <<< 6
          ||| (toUnsigned (memory (s + 1)) - 0x80) = c at two ⊢
        have short : c < 0x800#32 ↔ (memory s).toNat < 0xE2 := by
          rw [BitVec.lt_def]
          change _ < 0x800 ↔ _
          omega
        simp only [short]
        split
        · rw [eq_ofNat two]
        · exact mb2wcLong_decodeLong (by omega) tail (by omega)
      · rw [if_pos tail, if_pos (.inr (.inr tail))]

/-! The encoder -/

theorem getElem_of_lt {v : BitVec 32} {k : Nat} (small : v.toNat < 2 ^ k) {i : Nat}
    (above : k ≤ i) (width : i < 32)
    : v[i] = false := by
  exact Nat.testBit_lt_two_pow (Nat.lt_of_lt_of_le small (Nat.pow_le_pow_right (by decide) above))

theorem toByte_eq {x : BitVec 32} {b : UInt8}
    (bits : ∀ i, i < 8 → x.getLsbD i = b.toBitVec.getLsbD i)
    : toByte x = b := by
  apply UInt8.toBitVec_inj.mp
  apply BitVec.eq_of_getLsbD_eq
  intro i small
  rw [toByte, BitVec.getLsbD_setWidth, bits i small]
  simp [small]

/-- The bytes of a character as bits, by the number of bytes. -/
theorem encode_bits (c : Char)
    : (c.val.toBitVec.toNat < 0x80 ∧ String.utf8EncodeChar c = [c.val.toUInt8])
      ∨ (0x80 ≤ c.val.toBitVec.toNat ∧ c.val.toBitVec.toNat < 0x800 ∧ String.utf8EncodeChar c
          = [(c.val >>> 6).toUInt8 &&& 0x1F ||| 0xC0, c.val.toUInt8 &&& 0x3F ||| 0x80])
      ∨ (0x800 ≤ c.val.toBitVec.toNat ∧ c.val.toBitVec.toNat < 0x10000
        ∧ (c.val.toBitVec.toNat < 0xD800 ∨ 0xE000 ≤ c.val.toBitVec.toNat)
        ∧ String.utf8EncodeChar c
          = [(c.val >>> 12).toUInt8 &&& 0x0F ||| 0xE0, (c.val >>> 6).toUInt8 &&& 0x3F ||| 0x80,
            c.val.toUInt8 &&& 0x3F ||| 0x80])
      ∨ (0x10000 ≤ c.val.toBitVec.toNat ∧ c.val.toBitVec.toNat < 0x110000 ∧ String.utf8EncodeChar c
          = [(c.val >>> 18).toUInt8 &&& 0x07 ||| 0xF0, (c.val >>> 12).toUInt8 &&& 0x3F ||| 0x80,
            (c.val >>> 6).toUInt8 &&& 0x3F ||| 0x80, c.val.toUInt8 &&& 0x3F ||| 0x80]) := by
  have valid : c.val.toBitVec.toNat < 0xD800
      ∨ 0xDFFF < c.val.toBitVec.toNat ∧ c.val.toBitVec.toNat < 0x110000 := c.valid
  have le (n : UInt32) : c.val ≤ n ↔ c.val.toBitVec.toNat ≤ n.toNat := Iff.rfl
  rw [String.utf8EncodeChar_eq_utf8EncodeCharFast]
  unfold String.utf8EncodeCharFast
  simp only [le, show (0x7F : UInt32).toNat = 0x7F from rfl,
    show (0x7FF : UInt32).toNat = 0x7FF from rfl, show (0xFFFF : UInt32).toNat = 0xFFFF from rfl]
  by_cases one : c.val.toBitVec.toNat ≤ 0x7F
  · exact .inl ⟨by omega, if_pos one⟩
  · rw [if_neg one]
    by_cases two : c.val.toBitVec.toNat ≤ 0x7FF
    · exact .inr (.inl ⟨by omega, by omega, if_pos two⟩)
    · rw [if_neg two]
      by_cases three : c.val.toBitVec.toNat ≤ 0xFFFF
      · exact .inr (.inr (.inl ⟨by omega, by omega, by omega, if_pos three⟩))
      · exact .inr (.inr (.inr ⟨by omega, by omega, if_neg three⟩))

theorem toByte_last (v : UInt32)
    : toByte (v.toBitVec &&& 0x3F#32 ||| 0x80#32) = v.toUInt8 &&& 0x3F ||| 0x80 := by
  apply toByte_eq
  intro i small
  interval_cases i <;> simp

/-- `wc2mb` encodes every Unicode scalar value. -/
theorem wc2mb_encode (c : Char)
    : wc2mb c.val.toBitVec = ((String.utf8EncodeChar c).length, String.utf8EncodeChar c) := by
  have third : toByte (c.val.toBitVec >>> 6 &&& 0x3F#32 ||| 0x80#32)
      = (c.val >>> 6).toUInt8 &&& 0x3F ||| 0x80 := by
    apply toByte_eq
    intro i small
    interval_cases i <;> simp
  unfold wc2mb
  simp only [ge_iff_le, BitVec.le_def, BitVec.lt_def, BitVec.toNat_sub, BitVec.toNat_ofNat,
    toByte_last, third]
  rcases encode_bits c with ⟨small, bytes⟩ | ⟨low, high, bytes⟩ | ⟨low, high, scalar, bytes⟩
    | ⟨low, high, bytes⟩
  · rw [if_neg (by omega), bytes]
    rfl
  · have bit := getElem_of_lt (k := 11) high (Nat.le_refl 11) (by decide)
    have lead : toByte (c.val.toBitVec >>> 6 &&& 0x3F#32 ||| 0x80#32 ||| 1#32 <<< 6)
        = (c.val >>> 6).toUInt8 &&& 0x1F ||| 0xC0 := by
      apply toByte_eq
      intro i small
      interval_cases i <;> simp [bit]
    rw [if_pos (by omega), if_pos (by omega), lead, bytes]
    rfl
  · have bit (i : Nat) (above : 16 ≤ i) (width : i < 32) := getElem_of_lt (k := 16) high above width
    have lead : toByte (c.val.toBitVec >>> 12 &&& 0x3F#32 ||| (26#32 - 12#32) <<< 4)
        = (c.val >>> 12).toUInt8 &&& 0x0F ||| 0xE0 := by
      apply toByte_eq
      intro i small
      interval_cases i <;> simp [bit]
    rw [if_pos (by omega), if_neg (by omega), if_pos (by omega), lead, bytes]
    rfl
  · have bit (i : Nat) (above : 21 ≤ i) (width : i < 32) :=
      getElem_of_lt (k := 21) (v := c.val.toBitVec) (by omega) above width
    have lead : toByte (c.val.toBitVec >>> 18 ||| 0xF0#32)
        = (c.val >>> 18).toUInt8 &&& 0x07 ||| 0xF0 := by
      apply toByte_eq
      intro i small
      interval_cases i <;> simp [bit]
    have second : toByte (c.val.toBitVec >>> 12 &&& 0x3F#32 ||| (26#32 - 18#32) <<< 4)
        = (c.val >>> 12).toUInt8 &&& 0x3F ||| 0x80 := by
      apply toByte_eq
      intro i small
      interval_cases i <;> simp
    rw [if_pos (by omega), if_neg (by omega), if_neg (by omega), if_pos (by omega), lead, second,
      bytes]
    rfl

/-! What the decoder makes of UTF-8 -/

/-- The bytes at the address `s` start with the encoding of `c`. -/
def StartsWith (memory : Memory UInt8) (s : Nat) (c : Char) : Prop :=
  memory.slice s (String.utf8EncodeChar c).length = String.utf8EncodeChar c

def WellFormed (a b c d : Nat) : Prop := a < 0x80 ∨ 0xC2 ≤ a ∧ a < 0xE0 ∧ IsTail b
  ∨ 0xE0 ≤ a ∧ a < 0xF0 ∧ IsTail b ∧ IsTail c ∧ (a = 0xE0 → 0xA0 ≤ b) ∧ (a = 0xED → b < 0xA0)
  ∨ 0xF0 ≤ a ∧ a < 0xF5 ∧ IsTail b ∧ IsTail c ∧ IsTail d ∧ (a = 0xF0 → 0x90 ≤ b)
    ∧ (a = 0xF4 → b < 0x90)

/-- The bytes of a character at an address, by the number of bytes. -/
theorem StartsWith.cases (starts : StartsWith memory s c)
    : ((memory s).toNat < 0x80 ∧ c.val.toNat = (memory s).toNat
        ∧ (String.utf8EncodeChar c).length = 1)
      ∨ (∃ x y, 2 ≤ x ∧ x < 32 ∧ y < 64 ∧ c.val.toNat = x * 64 + y
        ∧ (memory s).toNat = 0xC0 + x ∧ (memory (s + 1)).toNat = 0x80 + y
        ∧ (String.utf8EncodeChar c).length = 2)
      ∨ (∃ x y z, x < 16 ∧ y < 64 ∧ z < 64 ∧ (x = 0 → 32 ≤ y) ∧ (x = 13 → y < 32)
        ∧ c.val.toNat = (x * 64 + y) * 64 + z
        ∧ (memory s).toNat = 0xE0 + x ∧ (memory (s + 1)).toNat = 0x80 + y
        ∧ (memory (s + 2)).toNat = 0x80 + z ∧ (String.utf8EncodeChar c).length = 3)
      ∨ (∃ w x y z, w < 5 ∧ x < 64 ∧ y < 64 ∧ z < 64 ∧ (w = 0 → 16 ≤ x) ∧ (w = 4 → x < 16)
        ∧ c.val.toNat = ((w * 64 + x) * 64 + y) * 64 + z
        ∧ (memory s).toNat = 0xF0 + w ∧ (memory (s + 1)).toNat = 0x80 + x
        ∧ (memory (s + 2)).toNat = 0x80 + y ∧ (memory (s + 3)).toNat = 0x80 + z
        ∧ (String.utf8EncodeChar c).length = 4) := by
  unfold StartsWith at starts
  rcases encode_cases c with ⟨x, small, value, bytes⟩ | ⟨x, y, low, high, small, value, bytes⟩
    | ⟨x, y, z, hx, hy, hz, overlong, surrogate, value, bytes⟩
    | ⟨w, x, y, z, hw, hx, hy, hz, overlong, most, value, bytes⟩
  all_goals
    rw [bytes] at starts ⊢
    simp only [List.length_cons, List.length_nil, Memory.slice_succ, Memory.slice_zero,
      List.cons.injEq, and_true, Nat.add_assoc, Nat.reduceAdd, Nat.zero_add] at starts
  · refine .inl ⟨?_, ?_, rfl⟩ <;> rw [starts, toNat_ofNat (by omega)]
    · exact small
    · exact value
  · refine .inr (.inl ⟨x, y, low, high, small, value, ?_, ?_, rfl⟩)
    · rw [starts.1, toNat_ofNat (by omega)]
    · rw [starts.2, toNat_ofNat (by omega)]
  · refine .inr (.inr (.inl ⟨x, y, z, hx, hy, hz, overlong, surrogate, value, ?_, ?_, ?_,
      rfl⟩))
    · rw [starts.1, toNat_ofNat (by omega)]
    · rw [starts.2.1, toNat_ofNat (by omega)]
    · rw [starts.2.2, toNat_ofNat (by omega)]
  · refine .inr (.inr (.inr ⟨w, x, y, z, hw, hx, hy, hz, overlong, most, value, ?_, ?_, ?_,
      ?_, rfl⟩))
    · rw [starts.1, toNat_ofNat (by omega)]
    · rw [starts.2.1, toNat_ofNat (by omega)]
    · rw [starts.2.2.1, toNat_ofNat (by omega)]
    · rw [starts.2.2.2, toNat_ofNat (by omega)]

/-- A first byte below 0x80 is the character. -/
theorem StartsWith.ascii (starts : StartsWith memory s c) (small : (memory s).toNat < 0x80)
    : c.val.toNat = (memory s).toNat := by
  rcases starts.cases with ⟨_, value, _⟩ | ⟨x, y, _, _, _, _, first, _⟩
    | ⟨x, y, z, _, _, _, _, _, _, first, _⟩ | ⟨w, x, y, z, _, _, _, _, _, _, _, first, _⟩
  · exact value
  · omega
  · omega
  · omega

/-- The table of well formed sequences is what the encoder writes. -/
theorem startsWith_iff (memory : Memory UInt8) (s : Nat)
    : (∃ c, StartsWith memory s c)
      ↔ WellFormed (memory s).toNat (memory (s + 1)).toNat (memory (s + 2)).toNat
          (memory (s + 3)).toNat := by
  constructor
  · rintro ⟨c, starts⟩
    unfold WellFormed IsTail
    rcases starts.cases with ⟨small, _⟩ | ⟨x, y, _, _, _, _, first, second, _⟩
      | ⟨x, y, z, _, _, _, _, _, _, first, second, third, _⟩
      | ⟨w, x, y, z, _, _, _, _, _, _, _, first, second, third, fourth, _⟩
    · exact .inl small
    · omega
    · omega
    · omega
  · rintro (small | ⟨low, high, ⟨_, _⟩⟩ | ⟨low, high, ⟨_, _⟩, ⟨_, _⟩, overlong, surrogate⟩
      | ⟨low, high, ⟨_, _⟩, ⟨_, _⟩, ⟨_, _⟩, overlong, most⟩)
    · obtain ⟨c, value⟩ := exists_char (v := (memory s).toNat) (by omega)
      refine ⟨c, ?_⟩
      rw [StartsWith, utf8EncodeChar_one (by omega), value, UInt8.ofNat_toNat]
      rfl
    · obtain ⟨c, value⟩ := exists_char
        (v := ((memory s).toNat - 0xC0) * 64 + ((memory (s + 1)).toNat - 0x80)) (by omega)
      have bytes := utf8EncodeChar_two (by omega) (by omega) (by omega) value
      rw [Nat.add_sub_cancel' (by omega), Nat.add_sub_cancel' (by omega), UInt8.ofNat_toNat,
        UInt8.ofNat_toNat] at bytes
      exact ⟨c, by rw [StartsWith, bytes]; rfl⟩
    · obtain ⟨c, value⟩ := exists_char (v := (((memory s).toNat - 0xE0) * 64
        + ((memory (s + 1)).toNat - 0x80)) * 64 + ((memory (s + 2)).toNat - 0x80)) (by omega)
      have bytes := utf8EncodeChar_three (by omega) (by omega) (by omega) (by omega) value
      rw [Nat.add_sub_cancel' (by omega), Nat.add_sub_cancel' (by omega),
        Nat.add_sub_cancel' (by omega), UInt8.ofNat_toNat, UInt8.ofNat_toNat, UInt8.ofNat_toNat]
        at bytes
      exact ⟨c, by rw [StartsWith, bytes]; rfl⟩
    · obtain ⟨c, value⟩ := exists_char (v := ((((memory s).toNat - 0xF0) * 64
        + ((memory (s + 1)).toNat - 0x80)) * 64 + ((memory (s + 2)).toNat - 0x80)) * 64
        + ((memory (s + 3)).toNat - 0x80)) (by omega)
      have bytes := utf8EncodeChar_four (by omega) (by omega) (by omega) (by omega) (by omega) value
      rw [Nat.add_sub_cancel' (by omega), Nat.add_sub_cancel' (by omega),
        Nat.add_sub_cancel' (by omega), Nat.add_sub_cancel' (by omega), UInt8.ofNat_toNat,
        UInt8.ofNat_toNat, UInt8.ofNat_toNat, UInt8.ofNat_toNat] at bytes
      exact ⟨c, by rw [StartsWith, bytes]; rfl⟩

theorem ofNat_val (c : Char) : BitVec.ofNat 32 c.val.toNat = c.val.toBitVec := (eq_ofNat rfl).symm

theorem ofNat_ne {n : Nat} (small : n < 2 ^ 32) (other : n ≠ c.val.toNat)
    : BitVec.ofNat 32 n ≠ c.val.toBitVec := by
  intro same
  have value := congrArg BitVec.toNat same
  rw [BitVec.toNat_ofNat, Nat.mod_eq_of_lt small] at value
  exact other value

/-- A byte below 0x80 is decoded as it is. -/
theorem mb2wc_ascii (starts : StartsWith memory s c) (ascii : c.val.toNat < 0x80)
    : mb2wc memory s = ⟨if c.val.toNat ≠ 0 then 1 else 0, some c.val.toBitVec⟩ := by
  rcases starts.cases with ⟨small, value, _⟩ | ⟨x, y, _, _, _, value, _, _, _⟩
    | ⟨x, y, z, _, _, _, _, _, value, _⟩ | ⟨w, x, y, z, _, _, _, _, _, _, value, _⟩
  · rw [mb2wc_decodeAbove, decodeAbove, if_pos small, ← value, ofNat_val]
  · omega
  · omega
  · omega

/-- No other character is decoded as itself. What is decoded instead ends inside the
character, and at a continuation byte if it ends before the end.
-/
theorem mb2wc_multibyte (starts : StartsWith memory s c) (several : 0x80 ≤ c.val.toNat)
    : mb2wc memory s = Mb.invalid ∨ ∃ k v, mb2wc memory s = ⟨(k + 1 : Nat), some v⟩
        ∧ v ≠ c.val.toBitVec
        ∧ (k + 1 = (String.utf8EncodeChar c).length
          ∨ k + 1 < (String.utf8EncodeChar c).length ∧ IsTail (memory (s + (k + 1))).toNat) := by
  rw [mb2wc_decodeAbove]
  unfold decodeAbove
  rcases starts.cases with ⟨small, value, _⟩
    | ⟨x, y, low, high, hy, value, first, second, length⟩
    | ⟨x, y, z, hx, hy, hz, overlong, surrogate, value, first, second, third, length⟩
    | ⟨w, x, y, z, hw, hx, hy, hz, overlong, most, value, first, second, third, fourth, length⟩
  · omega
  · rw [if_neg (by omega), if_neg (by unfold IsTail; omega), if_pos (by omega)]
    exact .inr ⟨1, _, rfl, ofNat_ne (by omega) (by omega), .inl length.symm⟩
  · rw [if_neg (by omega), if_neg (by unfold IsTail; omega)]
    by_cases least : x < 2
    · rw [if_pos (by omega)]
      refine .inr ⟨1, _, rfl, ofNat_ne (by omega) (by omega), .inr ⟨by omega, ?_⟩⟩
      rw [third]
      unfold IsTail
      omega
    · rw [if_neg (by omega)]
      unfold decodeLong
      split
      · exact .inl rfl
      · rw [if_pos (by omega)]
        exact .inr ⟨2, _, rfl, ofNat_ne (by omega) (by omega), .inl length.symm⟩
  · rw [if_neg (by omega)]
    by_cases greatest : w = 4
    · rw [if_pos (by omega)]
      exact .inl rfl
    · rw [if_neg (by unfold IsTail; omega), if_neg (by omega)]
      unfold decodeLong
      split
      · exact .inl rfl
      · by_cases least : w < 2
        · rw [if_pos (by omega)]
          refine .inr ⟨2, _, rfl, ofNat_ne (by omega) (by omega), .inr ⟨by omega, ?_⟩⟩
          rw [fourth]
          unfold IsTail
          omega
        · rw [if_neg (by omega), if_pos (by unfold IsTail; omega)]
          exact .inr ⟨3, _, rfl, ofNat_ne (by omega) (by omega), .inl length.symm⟩

/-- `mb2wc` takes back what `wc2mb` does exactly for the characters from 1 to 0x7F. -/
theorem mb2wc_wc2mb_iff
    (stored : memory.slice s (wc2mb c.val.toBitVec).2.length = (wc2mb c.val.toBitVec).2)
    : mb2wc memory s = ⟨(wc2mb c.val.toBitVec).1, some c.val.toBitVec⟩
      ↔ 1 ≤ c.val.toNat ∧ c.val.toNat ≤ 0x7F := by
  rw [wc2mb_encode] at stored ⊢
  by_cases ascii : c.val.toNat < 0x80
  · rw [mb2wc_ascii stored ascii, utf8EncodeChar_one ascii]
    simp only [List.length_singleton, Mb.mk.injEq, and_true]
    split <;> omega
  · constructor
    · intro same
      rcases mb2wc_multibyte stored (by omega) with refused | ⟨_, v, decoded, other, _⟩
      · rw [refused] at same
        cases same
      · rw [decoded, Mb.mk.injEq, Option.some.injEq] at same
        exact absurd same.2 other
    · omega

/-- `mb2wc` of a string with a terminator behind `n` bytes returns a positive length exactly at
a character other than 0, and the same character and length as `__mbr2wc`.
-/
def DecodesUtf8 (memory : Memory UInt8) (s n : Nat) : Prop :=
  (0 < (mb2wc memory s).ret ↔ ∃ c : Char, c.val ≠ 0 ∧ StartsWith memory s c)
  ∧ (0 < (mb2wc memory s).ret → (mbr2wc (memory.slice s (n + 1)) 0).ret = (mb2wc memory s).ret
    ∧ (mbr2wc (memory.slice s (n + 1)) 0).wc = (mb2wc memory s).wc)

def lowerFirst (memory : Memory UInt8) (s : Nat) : Memory UInt8 :=
  memory.store s [UInt8.ofNat ((memory s).toNat - 2)]

/-- The first byte is below 0x80, or the string starts with no character, and neither does it
with its first byte lowered by two, where a C0 or C1 before a continuation byte counts too.
-/
def NotMisread (memory : Memory UInt8) (s : Nat) : Prop := (memory s).toNat < 0x80
  ∨ (∀ c, ¬ StartsWith memory s c) ∧ ((memory s).toNat < 0xC2 ∨ 0xF4 ≤ (memory s).toNat
      ∨ (∀ c, ¬ StartsWith (lowerFirst memory s) s c)
        ∧ ¬ ((memory s).toNat < 0xC4 ∧ IsTail (memory (s + 1)).toNat))

/-- Which sequences of several bytes `mb2wc` accepts: it reads the lead byte as another. -/
theorem mb2wc_positive_iff (high : 0x80 ≤ (memory s).toNat)
    : 0 < (mb2wc memory s).ret ↔ 0xC2 ≤ (memory s).toNat ∧ (memory s).toNat < 0xF4
        ∧ ((∃ c, StartsWith (lowerFirst memory s) s c)
          ∨ (memory s).toNat < 0xC4 ∧ IsTail (memory (s + 1)).toNat) := by
  have bound := (memory s).toNat_lt
  have first : (lowerFirst memory s s).toNat = (memory s).toNat - 2 := by
    rw [lowerFirst, Memory.store, if_pos (Nat.le_refl s), Nat.sub_self, List.getElem?_cons_zero,
      Option.getD_some, toNat_ofNat (by omega)]
  have later (k : Nat) : lowerFirst memory s (s + (k + 1)) = memory (s + (k + 1)) :=
    Memory.store_outside (.inr (by rw [List.length_singleton]; omega))
  rw [startsWith_iff, first, later 0, later 1, later 2, mb2wc_decodeAbove]
  generalize (memory s).toNat = a at high bound ⊢
  generalize (memory (s + 1)).toNat = b
  generalize (memory (s + 2)).toNat = c
  generalize (memory (s + 3)).toNat = d
  have invalid : ¬ 0 < Mb.invalid.ret := by decide
  unfold decodeAbove WellFormed
  rw [if_neg (by omega)]
  split
  · unfold IsTail at *
    omega
  · split
    · simp only
      unfold IsTail at *
      omega
    · unfold decodeLong
      split
      · unfold IsTail at *
        omega
      · split
        · simp only
          unfold IsTail at *
          omega
        · split
          · simp only
            unfold IsTail at *
            omega
          · unfold IsTail at *
            omega

/-- `__mbr2wc` reads the character of several bytes that a string starts with. -/
theorem StartsWith.mbr2wc {s n : Nat} (starts : StartsWith memory s c) (terminated : memory (s + n) = 0)
    (several : 0x80 ≤ c.val.toNat)
    : (mbr2wc (memory.slice s (n + 1)) 0).wc = some c.val.toBitVec := by
  have inside : (String.utf8EncodeChar c).length ≤ n := by
    by_contra outside
    have zero : (memory (s + n)).toNat = 0 := by
      rw [terminated]
      rfl
    rcases starts.cases with ⟨_, value, _⟩
      | ⟨x, y, _, _, _, _, first, second, length⟩
      | ⟨x, y, z, _, _, _, _, _, _, first, second, third, length⟩
      | ⟨w, x, y, z, _, _, _, _, _, _, _, first, second, third, fourth, length⟩
    · omega
    all_goals rw [← Nat.add_zero s] at first
    · obtain rfl | rfl : n = 0 ∨ n = 1 := by omega
      all_goals omega
    · obtain rfl | rfl | rfl : n = 0 ∨ n = 1 ∨ n = 2 := by omega
      all_goals omega
    · obtain rfl | rfl | rfl | rfl : n = 0 ∨ n = 1 ∨ n = 2 ∨ n = 3 := by omega
      all_goals omega
  obtain ⟨rest, split⟩ := Nat.exists_eq_add_of_le (Nat.le_succ_of_le inside)
  have bytes : memory.slice s (n + 1) = String.utf8EncodeChar c
      ++ memory.slice (s + (String.utf8EncodeChar c).length) rest := by
    rw [← Nat.succ_eq_add_one, split, Memory.slice_add, starts]
  obtain ⟨b, more, same, reads⟩ := scan_encode c
    (memory.slice (s + (String.utf8EncodeChar c).length) rest)
  have high : ¬ b.toNat < 0x80 := by
    intro small
    rw [scan, if_pos small, Scan.char.injEq] at reads
    omega
  rw [bytes, same, mbr2wc_scan high, reads, Scan.asMbr, ofNat_val]

/-- `mb2wc` decodes a string as UTF-8 exactly when it does not take its first byte for the one
two below.
-/
theorem decodesUtf8_iff {s n : Nat} (terminated : memory (s + n) = 0)
    : DecodesUtf8 memory s n ↔ NotMisread memory s := by
  by_cases ascii : (memory s).toNat < 0x80
  · obtain ⟨c, starts⟩ := (startsWith_iff memory s).mpr (.inl ascii)
    have zero (c : Char) : c.val ≠ 0 ↔ c.val.toNat ≠ 0 := by
      rw [ne_eq, ← UInt32.toNat_inj]
      rfl
    have decoded : mb2wc memory s
        = ⟨if (memory s).toNat ≠ 0 then 1 else 0, some (toUnsigned (memory s))⟩ := by
      rw [mb2wc_decodeAbove, decodeAbove, if_pos ascii]
      rfl
    have word := mbr2wc_ascii ascii (memory.slice (s + 1) n)
    refine iff_of_true ?_ (.inl ascii)
    rw [DecodesUtf8, Memory.slice_succ, decoded, word]
    by_cases null : (memory s).toNat = 0
    · simp only [null, ne_eq, not_true_eq_false, if_false, Int.lt_irrefl, false_iff, not_exists,
        false_implies, and_true]
      rintro c ⟨nonzero, starts'⟩
      exact (zero c).mp nonzero (by rw [starts'.ascii ascii, null])
    · have nonzero : memory s ≠ 0 := by
        intro zero
        rw [zero] at null
        exact null rfl
      simp only [ne_eq, null, not_false_eq_true, if_true, nonzero, Int.zero_lt_one, true_iff]
      refine ⟨⟨c, (zero c).mpr (by rw [starts.ascii ascii]; exact null), starts⟩, ?_⟩
      intro _
      exact ⟨rfl, trivial⟩
  · have positive := mb2wc_positive_iff (Nat.le_of_not_lt ascii)
    have several (c : Char) (starts : StartsWith memory s c) : 0x80 ≤ c.val.toNat := by
      rcases starts.cases with ⟨small, _⟩ | ⟨x, y, _, _, _, value, _⟩
        | ⟨x, y, z, _, _, _, overlong, _, value, _⟩ | ⟨w, x, y, z, _, _, _, _, overlong, _, value, _⟩
      all_goals omega
    constructor
    · rintro ⟨exactly, agrees⟩
      have noStart : ∀ c, ¬ StartsWith memory s c := by
        intro c starts
        have high := several c starts
        have nonzero : c.val ≠ 0 := by
          intro zero
          rw [zero] at high
          exact absurd high (by decide)
        have same := (agrees (exactly.mpr ⟨c, nonzero, starts⟩)).2
        rw [starts.mbr2wc terminated high] at same
        rcases mb2wc_multibyte starts high with refused | ⟨_, v, decoded, other, _⟩
        · rw [refused] at same
          cases same
        · rw [decoded, Option.some.injEq] at same
          exact other same.symm
      have refused : ¬ 0 < (mb2wc memory s).ret := by
        intro accepted
        obtain ⟨c, _, starts⟩ := exactly.mp accepted
        exact noStart c starts
      rw [positive] at refused
      by_cases outside : (memory s).toNat < 0xC2 ∨ 0xF4 ≤ (memory s).toNat
      · exact .inr ⟨noStart, by omega⟩
      · refine .inr ⟨noStart, .inr (.inr ⟨?_, ?_⟩)⟩
        · intro c starts
          exact refused ⟨by omega, by omega, .inl ⟨c, starts⟩⟩
        · intro overlong
          exact refused ⟨by omega, by omega, .inr overlong⟩
    · rintro (small | ⟨noStart, outside⟩)
      · exact absurd small ascii
      · have refused : ¬ 0 < (mb2wc memory s).ret := by
          rw [positive]
          rintro ⟨low, high, ⟨c, starts⟩ | overlong⟩
          · rcases outside with below | above | ⟨lowered, _⟩
            · omega
            · omega
            · exact lowered c starts
          · rcases outside with below | above | ⟨_, noOverlong⟩
            · omega
            · omega
            · exact noOverlong overlong
        refine ⟨iff_of_false refused ?_, fun accepted => absurd accepted refused⟩
        rintro ⟨c, _, starts⟩
        exact noStart c starts

end Nglibc.Stdio
