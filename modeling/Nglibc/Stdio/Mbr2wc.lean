import Mathlib.Algebra.Group.Nat.Defs
import Nglibc.Lib.Utf8

/-! `__mbr2wc`, the restartable UTF-8 decoder: its state word is a table entry shifted along
with the bytes read, and it decodes as the machine of UTF-8 does.
-/

namespace Nglibc.Stdio

/-- The macro `R` of the table: the interval `[a, b)` of the next byte. -/
def bittabR (a b : BitVec 32) : BitVec 32 := (if a = 0x80 then 0x40 - b else 0 - a) <<< 23

/-- The macros `C` and `D`: first bytes of two. -/
def bittabC (x : BitVec 32) : BitVec 32 :=
  if x < 2 then -1 else bittabR 0x80 0xC0 ||| x

def bittabD (x : BitVec 32) : BitVec 32 := bittabC (x + 16)

/-- The macro `E`: first bytes of three. -/
def bittabE (x : BitVec 32) : BitVec 32 := (if x = 0 then bittabR 0xA0 0xC0
    else if x = 0xD then bittabR 0x80 0xA0
    else bittabR 0x80 0xC0)
  ||| (bittabR 0x80 0xC0) >>> 6 ||| x

/-- The macro `F`: first bytes of four. -/
def bittabF (x : BitVec 32) : BitVec 32 := (if x ≥ 5 then 0
    else if x = 0 then bittabR 0x90 0xC0
    else if x = 4 then bittabR 0x80 0x90
    else bittabR 0x80 0xC0)
  ||| (bittabR 0x80 0xC0) >>> 6 ||| (bittabR 0x80 0xC0) >>> 12 ||| x

def bittab : List (BitVec 32) := [2, 3, 4, 5, 6, 7, 8, 9, 0xA, 0xB, 0xC, 0xD, 0xE, 0xF].map bittabC
  ++ [0, 1, 2, 3, 4, 5, 6, 7, 8, 9, 0xA, 0xB, 0xC, 0xD, 0xE, 0xF].map bittabD
  ++ [0, 1, 2, 3, 4, 5, 6, 7, 8, 9, 0xA, 0xB, 0xC, 0xD, 0xE, 0xF].map bittabE
  ++ [0, 1, 2, 3, 4].map bittabF

/-- A byte as an `unsigned`. -/
def toUnsigned (b : UInt8) : BitVec 32 := BitVec.ofNat 32 b.toNat

/-- The macro `OOB`: the upper six state bits are a negative offset to check the byte. -/
def oob (c : BitVec 32) (b : UInt8) : Bool :=
  ((toUnsigned b >>> 3 - 0x10) ||| (toUnsigned b >>> 3 + c.sshiftRight 26)) &&& ~~~7 ≠ 0

/-- The results `(size_t)-1` and `(size_t)-2`. -/
def ilseqValue : Nat := 2 ^ 64 - 1

def incompleteValue : Nat := 2 ^ 64 - 2

/-- The result of `__mbr2wc`, the character stored through `wc`, and the new state. -/
structure Mbr where
  ret : Nat
  wc : Option (BitVec 32)
  st : BitVec 32
  deriving DecidableEq

/-- `ilseq`, which sets `errno` to `EILSEQ`. -/
def Mbr.ilseq : Mbr := ⟨ilseqValue, none, 0⟩

/-- The loop of `__mbr2wc`, entered with a byte in range. `total` is the `unsigned` copy of
the length.
-/
def mbr2wcLoop (total : Nat) (c : BitVec 32) (b : UInt8) (rest : List UInt8) : Mbr :=
  let c := c <<< 6 ||| (toUnsigned b - 0x80)
  if !c.msb then ⟨(total + 2 ^ 64 - rest.length) % 2 ^ 64, some c, 0⟩
  else
    match rest with
    | [] => ⟨incompleteValue, none, c⟩
    | b :: rest =>
      if toUnsigned b - 0x80 ≥ 0x40 then Mbr.ilseq else mbr2wcLoop total c b rest

/-- `__mbr2wc` with a state from a first byte. -/
def mbr2wcNext (total : Nat) (c : BitVec 32) (bytes : List UInt8) : Mbr :=
  match bytes with
  | [] => ⟨incompleteValue, none, c⟩
  | b :: rest => if oob c b then Mbr.ilseq else mbr2wcLoop total c b rest

/-- `__mbr2wc` with arguments that are not null. -/
def mbr2wc (bytes : List UInt8) (st : BitVec 32) : Mbr :=
  let total := bytes.length % 2 ^ 32
  match bytes with
  | [] => ⟨incompleteValue, none, st⟩
  | b :: rest =>
    if st = 0 then
      if b.toNat < 0x80 then ⟨if b ≠ 0 then 1 else 0, some (toUnsigned b), st⟩
      else if toUnsigned b - 0xC2 > 0xF4 - 0xC2 then Mbr.ilseq
      else mbr2wcNext total (bittab.getD (b.toNat - 0xC2) 0) rest
    else mbr2wcNext total st bytes

open Utf8

/-- The upper six bits of the state: the offset from which the next byte is in range. -/
def rangeBits (o : Owed) : Nat :=
  if o.lo = 0x80 then 72 - o.hi / 8 else 64 - o.lo / 8

/-- The bits below them that keep the sign bit set for as long as bytes are missing. -/
def tailBits : Nat → Nat
  | 2 => 0x03000000
  | 3 => 0x030C0000
  | _ => 0

def stateOf (o : Owed) : BitVec 32 :=
  BitVec.ofNat 32 (rangeBits o * 2 ^ 26 + tailBits o.tails + o.acc)

/-- A started character whose value leaves room for the bits above it. -/
structure Started (o : Owed) : Prop where
  room : o.tails = 1 ∧ o.acc < 2 ^ 16 ∨ o.tails = 2 ∧ o.acc < 2 ^ 10 ∨ o.tails = 3 ∧ o.acc < 2 ^ 4
  range : (o.lo, o.hi) ∈ [(0x80, 0xC0), (0xA0, 0xC0), (0x80, 0xA0), (0x90, 0xC0), (0x80, 0x90)]

variable {o : Owed} {b : UInt8}

section

variable (started : Started o)
include started

theorem Started.rangeBits_le
    : 32 ≤ rangeBits o ∧ rangeBits o < 64 := by
  have range := started.range
  unfold rangeBits
  simp only [List.mem_cons, Prod.mk.injEq, List.not_mem_nil, or_false] at range
  rcases range with ⟨lo, hi⟩ | ⟨lo, hi⟩ | ⟨lo, hi⟩ | ⟨lo, hi⟩ | ⟨lo, hi⟩ <;> simp [lo, hi]

theorem Started.low_lt
    : tailBits o.tails + o.acc < 2 ^ 26 := by
  rcases started.room with ⟨tails, small⟩ | ⟨tails, small⟩ | ⟨tails, small⟩ <;>
    simp only [tails, tailBits] <;> omega

theorem Started.toNat_stateOf
    : (stateOf o).toNat = rangeBits o * 2 ^ 26 + tailBits o.tails + o.acc := by
  have range := started.rangeBits_le
  have low := started.low_lt
  rw [stateOf, BitVec.toNat_ofNat, Nat.mod_eq_of_lt (by omega)]

theorem Started.msb_stateOf : (stateOf o).msb = true := by
  have range := started.rangeBits_le
  rw [BitVec.msb_eq_decide, started.toNat_stateOf, decide_eq_true_eq]
  omega

theorem Started.stateOf_ne_zero : stateOf o ≠ 0 := by
  intro zero
  have sign := started.msb_stateOf
  rw [zero] at sign
  cases sign

end

theorem or_payload {c : BitVec 32} (low : 0x80 ≤ b.toNat) (high : b.toNat < 0xC0)
    : (c <<< 6 ||| (toUnsigned b - 0x80)).toNat = (c.toNat * 64 + (b.toNat - 0x80)) % 2 ^ 32 := by
  have payload : (toUnsigned b - 0x80).toNat = b.toNat - 0x80 := by
    rw [toUnsigned, BitVec.toNat_sub, BitVec.toNat_ofNat,
      show (0x80 : BitVec 32).toNat = 128 from rfl]
    omega
  have shifted : (c <<< 6).toNat = 2 ^ 6 * (c.toNat % 2 ^ 26) := by
    rw [BitVec.toNat_shiftLeft]
    omega
  rw [BitVec.toNat_or, shifted, ← Nat.two_pow_add_eq_or_of_lt (by omega)]
  omega

theorem Started.push_lt (started : Started o) (last : o.tails ≤ 1)
    : o.push b < 2 ^ 31 := by
  have small := b.toNat_lt
  unfold Owed.push
  rcases started.room with room | room | room <;> omega

theorem Started.next (started : Started o) (several : ¬ o.tails ≤ 1) (high : b.toNat < 0xC0)
    : Started (o.next b) := by
  refine ⟨?_, List.mem_cons_self⟩
  unfold Owed.next Owed.push
  simp only
  rcases started.room with room | room | room <;> omega

theorem Started.step (started : Started o) (low : 0x80 ≤ b.toNat) (high : b.toNat < 0xC0)
    : stateOf o <<< 6 ||| (toUnsigned b - 0x80)
      = if o.tails ≤ 1 then BitVec.ofNat 32 (o.push b) else stateOf (o.next b) := by
  apply BitVec.eq_of_toNat_eq
  rw [or_payload low high, started.toNat_stateOf]
  by_cases last : o.tails ≤ 1
  · have tails : o.tails = 1 := by
      rcases started.room with room | room | room <;> omega
    have none : tailBits 1 = 0 := rfl
    rw [if_pos last, BitVec.toNat_ofNat, tails]
    unfold Owed.push
    omega
  · have range : rangeBits (o.next b) = 48 := by
      simp [rangeBits, Owed.next]
    rw [if_neg last, (started.next last high).toNat_stateOf, range]
    unfold Owed.next Owed.push
    rcases started.room with ⟨tails, small⟩ | ⟨tails, small⟩ | ⟨tails, small⟩
    · exact absurd (Nat.le_of_eq tails) last
    all_goals
      simp only [tails, tailBits]
      omega

/-- The sign and the offset that `OOB` takes from the state. -/
theorem Started.sshiftRight_stateOf (started : Started o)
    : (stateOf o).sshiftRight 26 = BitVec.ofInt 32 (rangeBits o - 64) := by
  have range := started.rangeBits_le
  have low := started.low_lt
  have word := started.toNat_stateOf
  apply BitVec.eq_of_toInt_eq
  rw [BitVec.toInt_sshiftRight, BitVec.toInt_eq_toNat_cond, BitVec.toInt_ofInt,
    Int.shiftRight_eq_div_pow, Int.bmod_eq_of_le (by omega) (by omega)]
  omega

theorem oob_range
    : ∀ n : Fin 256,
      ∀ range ∈ [(0x80, 0xC0), (0xA0, 0xC0), (0x80, 0xA0), (0x90, 0xC0), (0x80, 0x90)],
        ((BitVec.ofNat 32 n >>> 3 - 0x10)
            ||| (BitVec.ofNat 32 n >>> 3
              + BitVec.ofInt 32 (rangeBits ⟨0, 0, range.1, range.2⟩ - 64)))
            &&& ~~~7 ≠ 0
          ↔ ¬ (range.1 ≤ n.val ∧ n.val < range.2) := by
  decide +kernel

theorem Started.oob_stateOf (started : Started o) (b : UInt8)
    : oob (stateOf o) b = true ↔ ¬ o.accepts b := by
  rw [oob, started.sshiftRight_stateOf, decide_eq_true_eq]
  exact oob_range ⟨b.toNat, b.toNat_lt⟩ (o.lo, o.hi) started.range

theorem Started.accepts_range (started : Started o) (accepts : o.accepts b)
    : 0x80 ≤ b.toNat ∧ b.toNat < 0xC0 := by
  have range := started.range
  unfold Owed.accepts at accepts
  simp only [List.mem_cons, Prod.mk.injEq, List.not_mem_nil, or_false] at range
  omega

theorem toUnsigned_tail (b : UInt8)
    : toUnsigned b - 0x80 ≥ 0x40 ↔ ¬ (0x80 ≤ b.toNat ∧ b.toNat < 0xC0) := by
  have small := b.toNat_lt
  rw [ge_iff_le, BitVec.le_def, toUnsigned, BitVec.toNat_sub, BitVec.toNat_ofNat,
    show (0x80 : BitVec 32).toNat = 128 from rfl, show (0x40 : BitVec 32).toNat = 64 from rfl]
  omega

/-- A result of the machine as a result of `__mbr2wc`. -/
def Scan.asMbr (total : Nat) : Scan → Mbr
  | .char v rest => ⟨(total + 2 ^ 64 - rest.length) % 2 ^ 64, some (BitVec.ofNat 32 v), 0⟩
  | .part o => ⟨incompleteValue, none, stateOf o⟩
  | .illFormed => Mbr.ilseq

theorem mbr2wcLoop_last (started : Started o) (low : 0x80 ≤ b.toNat) (high : b.toNat < 0xC0)
    (last : o.tails ≤ 1) (total : Nat) (rest : List UInt8)
    : mbr2wcLoop total (stateOf o) b rest = Scan.asMbr total (.char (o.push b) rest) := by
  have value := started.push_lt (b := b) last
  have sign : (BitVec.ofNat 32 (o.push b)).msb = false := by
    rw [BitVec.msb_eq_decide, BitVec.toNat_ofNat, decide_eq_false_iff_not]
    omega
  unfold mbr2wcLoop
  simp only [started.step low high, if_pos last, sign, Bool.not_false, if_true, Scan.asMbr]

/-- The loop from a byte in range on; by induction on the bytes behind it. -/
theorem mbr2wcLoop_scanOwed (started : Started o) (accepts : o.accepts b) (total : Nat) (rest : List UInt8)
    : mbr2wcLoop total (stateOf o) b rest = Scan.asMbr total (scanOwed o (b :: rest)) := by
  induction rest generalizing o b with
  | nil =>
    obtain ⟨low, high⟩ := started.accepts_range accepts
    rw [scanOwed, if_pos accepts]
    by_cases last : o.tails ≤ 1
    · rw [mbr2wcLoop_last started low high last, if_pos last]
    · simp only [mbr2wcLoop, started.step low high, if_neg last,
        (started.next last high).msb_stateOf, Bool.not_true, Bool.false_eq_true, if_false,
        Scan.asMbr, scanOwed]
  | cons b' rest ih =>
    obtain ⟨low, high⟩ := started.accepts_range accepts
    rw [scanOwed, if_pos accepts]
    by_cases last : o.tails ≤ 1
    · rw [mbr2wcLoop_last started low high last, if_pos last]
    · have next := started.next last high
      simp only [mbr2wcLoop, started.step low high, if_neg last, next.msb_stateOf, Bool.not_true,
        Bool.false_eq_true, if_false, toUnsigned_tail]
      by_cases accepts' : (o.next b).accepts b'
      · rw [if_neg (not_not_intro (next.accepts_range accepts')), ih next accepts']
      · have outside : ¬ (0x80 ≤ b'.toNat ∧ b'.toNat < 0xC0) := accepts'
        rw [if_pos outside, scanOwed, if_neg accepts', Scan.asMbr]

theorem mbr2wcNext_scanOwed (started : Started o) (total : Nat) (bytes : List UInt8)
    : mbr2wcNext total (stateOf o) bytes = Scan.asMbr total (scanOwed o bytes) := by
  cases bytes with
  | nil => rfl
  | cons b rest =>
    by_cases accepts : o.accepts b
    · have inRange : ¬ oob (stateOf o) b = true := by
        rw [started.oob_stateOf]
        exact not_not_intro accepts
      rw [mbr2wcNext, if_neg inRange, mbr2wcLoop_scanOwed started accepts]
    · rw [mbr2wcNext, if_pos ((started.oob_stateOf b).mpr accepts), scanOwed, if_neg accepts,
        Scan.asMbr]

/-- The table holds the states of the first bytes. -/
theorem bittab_lead
    : ∀ n : Fin 51, ∀ o, lead (UInt8.ofNat (0xC2 + n)) = some o → bittab.getD n 0 = stateOf o := by
  decide +kernel

theorem lead_started (leads : lead b = some o) : Started o := by
  rcases lead_cases leads with ⟨_, low, high, rfl⟩ | ⟨_, low, high, rfl⟩ | ⟨_, low, high, rfl⟩
  · exact ⟨.inl ⟨rfl, by simp only; omega⟩, List.mem_cons_self⟩
  · refine ⟨.inr (.inl ⟨rfl, by simp only; omega⟩), ?_⟩
    by_cases least : b.toNat = 0xE0
    · simp [least]
    · by_cases surrogate : b.toNat = 0xED <;> simp [least, surrogate]
  · refine ⟨.inr (.inr ⟨rfl, by simp only; omega⟩), ?_⟩
    by_cases least : b.toNat = 0xF0
    · simp [least]
    · by_cases most : b.toNat = 0xF4 <;> simp [least, most]

theorem mbr2wc_ascii (ascii : b.toNat < 0x80) (rest : List UInt8)
    : mbr2wc (b :: rest) 0 = ⟨if b ≠ 0 then 1 else 0, some (toUnsigned b), 0⟩ := by
  simp only [mbr2wc, if_true, if_pos ascii]

theorem mbr2wc_scan (high : ¬ b.toNat < 0x80) (rest : List UInt8)
    : mbr2wc (b :: rest) 0 = Scan.asMbr ((rest.length + 1) % 2 ^ 32) (scan b rest) := by
  have small := b.toNat_lt
  have first : toUnsigned b - 0xC2 > 0xF4 - 0xC2 ↔ ¬ (0xC2 ≤ b.toNat ∧ b.toNat < 0xF5) := by
    rw [gt_iff_lt, BitVec.lt_def, show (0xF4 - 0xC2 : BitVec 32).toNat = 50 from rfl,
      toUnsigned, BitVec.toNat_sub, BitVec.toNat_ofNat,
      show (0xC2 : BitVec 32).toNat = 194 from rfl]
    omega
  simp only [mbr2wc, if_true, if_neg high, first, scan, List.length_cons]
  cases leads : lead b with
  | none =>
    have outside : ¬ (0xC2 ≤ b.toNat ∧ b.toNat < 0xF5) := by
      unfold lead at leads
      simp only at leads
      repeat' split at leads
      all_goals first | omega | cases leads
    rw [if_pos outside, Scan.asMbr]
  | some o =>
    have inside : 0xC2 ≤ b.toNat ∧ b.toNat < 0xF5 := by
      rcases lead_cases leads with ⟨_, _, _, _⟩ | ⟨_, _, _, _⟩ | ⟨_, _, _, _⟩ <;> omega
    have entry : bittab.getD (b.toNat - 0xC2) 0 = stateOf o := by
      apply bittab_lead ⟨b.toNat - 0xC2, by omega⟩ o
      rw [Nat.add_sub_cancel' inside.1, UInt8.ofNat_toNat, leads]
    rw [if_neg (not_not_intro inside), entry, mbr2wcNext_scanOwed (lead_started leads)]

theorem mbr2wc_started (started : Started o) (b : UInt8) (rest : List UInt8)
    : mbr2wc (b :: rest) (stateOf o)
      = Scan.asMbr ((rest.length + 1) % 2 ^ 32) (scanOwed o (b :: rest)) := by
  simp only [mbr2wc, if_neg started.stateOf_ne_zero, List.length_cons]
  exact mbr2wcNext_scanOwed started _ _

end Nglibc.Stdio
