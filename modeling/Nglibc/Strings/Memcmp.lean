import Nglibc.Strings.Wordcopy

/-! `memcmp` of `string/memcmp.c`, for words of 64 bits and little-endian byte order. -/

namespace Nglibc.Strings.Wordwise

open Memory

/-- `((byte *) p)[i]`. -/
def byte (mem : Memory UInt8) (p : Int) (i : Nat) : UInt8 := mem (address (p + i))

/-- A byte in a variable of type `op_t`. -/
def opOfByte (b : UInt8) : BitVec 64 := BitVec.ofNat 64 b.toNat

/-- An `op_t` that is converted to `int`. -/
def intOfOp (res : BitVec 64) : Int := (res.setWidth 32).toInt

/-- The loop of `memcmp_bytes` over the two words in memory; `none` if it runs past them. -/
def memcmpBytesLoop (a b : BitVec 64) : Nat → Nat → Option Int
  | 0, _ => none
  | left + 1, i =>
    let a0 := opOfByte (byteAt a i)
    let b0 := opOfByte (byteAt b i)
    if a0 = b0 then memcmpBytesLoop a b left (i + 1) else some (intOfOp (a0 - b0))

/-- `memcmp_bytes`, which is `CMP_LT_OR_GT`. -/
def memcmpBytes (a b : BitVec 64) : Option Int := memcmpBytesLoop a b opsiz 0

/-- The variables of the two functions that compare words. -/
structure Memcmp where
  srcp1 : Int
  srcp2 : Int
  len : Nat
  a0 : BitVec 64 := 0
  a1 : BitVec 64 := 0
  a2 : BitVec 64 := 0
  a3 : BitVec 64 := 0
  b0 : BitVec 64 := 0
  b1 : BitVec 64 := 0
  b2 : BitVec 64 := 0
  b3 : BitVec 64 := 0

def Memcmp.advance (s : Memcmp) : Memcmp :=
  { s with srcp1 := s.srcp1 + 4 * opsiz, srcp2 := s.srcp2 + 4 * opsiz, len := s.len - 4 }

/-- `len != 0`. -/
def Memcmp.more (s : Memcmp) : Bool := s.len ≠ 0

/-- `if (x != b) return CMP_LT_OR_GT (x, b);`. -/
def compareOp (x b : BitVec 64) (s : Memcmp) : Option Int ⊕ Memcmp :=
  if x ≠ b then .inl (memcmpBytes x b) else .inr s

/-- What a loop and the label `do0` behind it return. -/
def behindLoop (do0 : Memcmp → Option Int) : Option (Option Int ⊕ Memcmp) → Option Int
  | none => none
  | some (.inl result) => result
  | some (.inr s) => do0 s

/-- The start of the body and the labels `do3` to `do1`: a pair of words is read, and the one before it is
compared.
-/
def commonLabel (mem : Memory UInt8) (k : Nat) (s : Memcmp) : Option Int ⊕ Memcmp :=
  match k with
  | 4 => compareOp s.a1 s.b1 { s with a0 := opAt mem s.srcp1 0, b0 := opAt mem s.srcp2 0 }
  | 3 => compareOp s.a0 s.b0 { s with a1 := opAt mem s.srcp1 1, b1 := opAt mem s.srcp2 1 }
  | 2 => compareOp s.a1 s.b1 { s with a0 := opAt mem s.srcp1 2, b0 := opAt mem s.srcp2 2 }
  | _ => compareOp s.a0 s.b0 { s with a1 := opAt mem s.srcp1 3, b1 := opAt mem s.srcp2 3 }

/-- The label `do0`. -/
def commonDo0 (s : Memcmp) : Option Int := if s.a1 ≠ s.b1 then memcmpBytes s.a1 s.b1 else some 0

/-- The loop from label `k` on, and what follows it. -/
def commonGoto (mem : Memory UInt8) (fuel k : Nat) (s : Memcmp) : Option Int :=
  behindLoop commonDo0 (unrolled (commonLabel mem) Memcmp.advance Memcmp.more 4 fuel k s)

def memcmpCommonAlignment (mem : Memory UInt8) (srcp1 srcp2 : Int) (len : Nat) : Option Int :=
  let a := opAt mem srcp1 0
  let b := opAt mem srcp2 0
  match len % 4 with
  | 2 =>
    commonGoto mem (len + 1) 1
      { a0 := a, b0 := b, srcp1 := srcp1 - 2 * opsiz, srcp2 := srcp2 - 2 * opsiz, len := len + 2 }
  | 3 =>
    commonGoto mem (len + 1) 2
      { a1 := a, b1 := b, srcp1 := srcp1 - opsiz, srcp2 := srcp2 - opsiz, len := len + 1 }
  | 0 =>
    if opTThres ≤ 3 * opsiz ∧ len = 0 then some 0
    else commonGoto mem (len + 1) 3 { a0 := a, b0 := b, srcp1, srcp2, len }
  | _ =>
    let s : Memcmp :=
      { a1 := a, b1 := b, srcp1 := srcp1 + opsiz, srcp2 := srcp2 + opsiz, len := len - 1 }
    if opTThres ≤ 3 * opsiz ∧ s.len = 0 then commonDo0 s else commonGoto mem (len + 1) 4 s

/-- The start of the body and the labels `do3` to `do1`: a word of each block is read, and the words
before them are merged and compared.
-/
def notCommonLabel (mem : Memory UInt8) (shl shr : Nat) (k : Nat) (s : Memcmp) : Option Int ⊕ Memcmp :=
  match k with
  | 4 =>
    compareOp (merge s.a2 shl s.a3 shr) s.b3
      { s with a0 := opAt mem s.srcp1 0, b0 := opAt mem s.srcp2 0 }
  | 3 =>
    compareOp (merge s.a3 shl s.a0 shr) s.b0
      { s with a1 := opAt mem s.srcp1 1, b1 := opAt mem s.srcp2 1 }
  | 2 =>
    compareOp (merge s.a0 shl s.a1 shr) s.b1
      { s with a2 := opAt mem s.srcp1 2, b2 := opAt mem s.srcp2 2 }
  | _ =>
    compareOp (merge s.a1 shl s.a2 shr) s.b2
      { s with a3 := opAt mem s.srcp1 3, b3 := opAt mem s.srcp2 3 }

/-- The label `do0`. -/
def notCommonDo0 (shl shr : Nat) (s : Memcmp) : Option Int :=
  let x := merge s.a2 shl s.a3 shr
  if x ≠ s.b3 then memcmpBytes x s.b3 else some 0

/-- The loop from label `k` on, and what follows it. -/
def notCommonGoto (mem : Memory UInt8) (shl shr fuel k : Nat) (s : Memcmp) : Option Int :=
  behindLoop (notCommonDo0 shl shr)
    (unrolled (notCommonLabel mem shl shr) Memcmp.advance Memcmp.more 4 fuel k s)

def memcmpNotCommonAlignment (mem : Memory UInt8) (srcp1 srcp2 : Int) (len : Nat) : Option Int :=
  let shl := shift1 srcp1
  let shr := shift2 srcp1
  let srcp1 := alignDown srcp1
  let a := opAt mem srcp1 0
  let a' := opAt mem srcp1 1
  let b := opAt mem srcp2 0
  match len % 4 with
  | 2 =>
    notCommonGoto mem shl shr (len + 1) 1
      { a1 := a, a2 := a', b2 := b, srcp1 := srcp1 - 1 * opsiz, srcp2 := srcp2 - 2 * opsiz,
        len := len + 2 }
  | 3 =>
    notCommonGoto mem shl shr (len + 1) 2
      { a0 := a, a1 := a', b1 := b, srcp1, srcp2 := srcp2 - 1 * opsiz, len := len + 1 }
  | 0 =>
    if opTThres ≤ 3 * opsiz ∧ len = 0 then some 0
    else
      notCommonGoto mem shl shr (len + 1) 3
        { a3 := a, a0 := a', b0 := b, srcp1 := srcp1 + 1 * opsiz, srcp2, len }
  | _ =>
    let s : Memcmp :=
      { a2 := a, a3 := a', b3 := b, srcp1 := srcp1 + 2 * opsiz, srcp2 := srcp2 + 1 * opsiz,
        len := len - 1 }
    if opTThres ≤ 3 * opsiz ∧ s.len = 0 then notCommonDo0 shl shr s
    else notCommonGoto mem shl shr (len + 1) 4 s

/-- The loop that compares bytes until `srcp2` is aligned. -/
def alignmentLoop (mem : Memory UInt8) : Nat → Memcmp → Option (Int ⊕ Memcmp)
  | 0, _ => none
  | fuel + 1, s =>
    if s.srcp2 % opsiz ≠ 0 then
      let a0 := opOfByte (byte mem s.srcp1 0)
      let b0 := opOfByte (byte mem s.srcp2 0)
      let res := a0 - b0
      if res ≠ 0 then some (.inl (intOfOp res))
      else
        alignmentLoop mem fuel
          { s with srcp1 := s.srcp1 + 1, srcp2 := s.srcp2 + 1, len := s.len - 1 }
    else some (.inr s)

/-- The loop over the last `len` bytes. -/
def byteLoop (mem : Memory UInt8) : Nat → Int → Int → Int
  | 0, _, _ => 0
  | len + 1, srcp1, srcp2 =>
    let a0 := opOfByte (byte mem srcp1 0)
    let b0 := opOfByte (byte mem srcp2 0)
    let res := a0 - b0
    if res ≠ 0 then intOfOp res else byteLoop mem len (srcp1 + 1) (srcp2 + 1)

/-- The comparison of the whole words, whose result is stored in an `op_t`, and of the bytes behind them.
-/
def compareWords (mem : Memory UInt8) (s : Memcmp) : Option Int :=
  let compared :=
    if s.srcp1 % opsiz = 0 then memcmpCommonAlignment mem s.srcp1 s.srcp2 (s.len / opsiz)
    else memcmpNotCommonAlignment mem s.srcp1 s.srcp2 (s.len / opsiz)
  compared.map fun result =>
    let res := BitVec.ofInt 64 result
    if res ≠ 0 then intOfOp res
    else
      let whole := s.len - s.len % opsiz
      byteLoop mem (s.len % opsiz) (s.srcp1 + whole) (s.srcp2 + whole)

def memcmp (mem : Memory UInt8) (s1 s2 : Nat) (len : Nat) : Option Int :=
  if len ≥ opTThres then
    match alignmentLoop mem opsiz { srcp1 := s1, srcp2 := s2, len } with
    | none => none
    | some (.inl result) => some result
    | some (.inr s) => compareWords mem s
  else some (byteLoop mem len s1 s2)

end Nglibc.Strings.Wordwise
