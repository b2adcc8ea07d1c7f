import Nglibc.Lib.MachineWord

/-! The functions that scan memory a word at a time: `string/strlen.c`, `string/strnlen.c`,
`string/memchr.c`, `string/memrchr.c` and `string/strchr.c`, for words of 64 bits.

A pointer is a number below `2 ^ 64`, and its steps are taken modulo that. With its result a function gives
the addresses of the words it reads. Its loops need no more rounds than the address space has words.
-/

namespace Nglibc.Strings.Wordwise

open Memory

def advance (p n : Nat) : Nat := (p + n) % 2 ^ 64

/-- A pointer moved down, or the difference of two pointers. -/
def retreat (p n : Nat) : Nat := (p + 2 ^ 64 - n) % 2 ^ 64

/-- `(unsigned char) c_in`. -/
def ucharOf (cIn : Int) : UInt8 := UInt8.ofNat (cIn % 256).toNat

def himagic : BitVec 64 := (0x80808080#64 <<< 16) <<< 16 ||| 0x80808080#64

def lomagic : BitVec 64 := (0x01010101#64 <<< 16) <<< 16 ||| 0x01010101#64

def repeatedOne : BitVec 64 := 0x01010101#64 ||| 0x01010101#64 <<< 31 <<< 1

def magicBits : BitVec 64 := ((-1#64) / 0xff#64 * 0xfe#64) <<< 1 >>> 1 ||| 1#64

/-- `charmask`, and `repeated_c` of `memchr`. -/
def charmask (c : UInt8) : BitVec 64 :=
  let mask : BitVec 64 := BitVec.ofNat 64 c.toNat ||| BitVec.ofNat 64 c.toNat <<< 8
  let mask := mask ||| mask <<< 16
  mask ||| mask <<< 32

/-- The test of `strnlen`. -/
def mayHoldZero (longword : BitVec 64) : Prop := (longword - lomagic) &&& himagic ≠ 0

/-- The test of `strlen`. -/
def holdsZero (longword : BitVec 64) : Prop := (longword - lomagic) &&& ~~~longword &&& himagic ≠ 0

/-- The test of `memchr`. -/
def holdsRepeated (longword1 : BitVec 64) : Prop :=
  (longword1 - repeatedOne) &&& ~~~longword1 &&& repeatedOne <<< 7 ≠ 0

/-- The test of `memrchr` and `strchr`. -/
def unchangedHole (longword : BitVec 64) : Prop :=
  ((longword + magicBits) ^^^ ~~~longword) &&& ~~~magicBits ≠ 0

instance (longword : BitVec 64) : Decidable (mayHoldZero longword) := inferInstanceAs (Decidable (_ ≠ _))

instance (longword : BitVec 64) : Decidable (holdsZero longword) := inferInstanceAs (Decidable (_ ≠ _))

instance (longword1 : BitVec 64) : Decidable (holdsRepeated longword1) := inferInstanceAs (Decidable (_ ≠ _))

instance (longword : BitVec 64) : Decidable (unchangedHole longword) := inferInstanceAs (Decidable (_ ≠ _))

/-- The tests of the eight bytes of a word one after the other. -/
def firstInWord (mem : Memory UInt8) (cp : Nat) (stops : UInt8 → Bool) : Option Nat :=
  (List.range 8).find? fun k => stops (mem (cp + k))

def lastInWord (mem : Memory UInt8) (cp : Nat) (stops : UInt8 → Bool) : Option Nat :=
  (List.range 8).reverse.find? fun k => stops (mem (cp + k))

def words : Nat := 2 ^ 61

def alignUp (mem : Memory UInt8) (stops : UInt8 → Bool) : Nat → Nat → Option (Nat ⊕ Nat)
  | 0, _ => none
  | fuel + 1, charPtr =>
    if charPtr % 8 ≠ 0 then
      if stops (mem charPtr) then some (.inl charPtr) else alignUp mem stops fuel (advance charPtr 1)
    else some (.inr charPtr)

/-- A loop over words up to a byte that stops it: the bytes of a word are tested if the word is `suspect`,
and none of them may be found.
-/
def scanWords {α : Type} (mem : Memory UInt8) (suspect : BitVec 64 → Bool) (stops : UInt8 → Bool)
    (found : Nat → Nat → α)
    : Nat → Nat → Option (α × List Nat)
  | 0, _ => none
  | fuel + 1, longwordPtr =>
    let next := (scanWords mem suspect stops found fuel (advance longwordPtr 8)).map fun out =>
        (out.1, longwordPtr :: out.2)
    if suspect (mem.load longwordPtr) then
      match firstInWord mem longwordPtr stops with
      | some k => some (found longwordPtr k, [longwordPtr])
      | none => next
    else next

/-- The loop of `strlen` over words. -/
def strlenLoop (mem : Memory UInt8) (str : Nat) : Nat → Nat → Option (Nat × List Nat) :=
  scanWords mem (fun longword => holdsZero longword) (· = 0) fun cp k => advance (retreat cp str) k

/-- `strlen`, with the words it reads. -/
def strlen (mem : Memory UInt8) (str : Nat) : Option (Nat × List Nat) :=
  match alignUp mem (· = 0) 8 str with
  | none => none
  | some (.inl charPtr) => some (retreat charPtr str, [])
  | some (.inr charPtr) => strlenLoop mem str (words + 1) charPtr

/-- The loop of `strnlen` over words, which leaves `char_ptr`. -/
def strnlenLoop (mem : Memory UInt8) (endPtr : Nat) : Nat → Nat → Nat → Option (Nat × List Nat)
  | 0, _, _ => none
  | fuel + 1, longwordPtr, charPtr =>
    if longwordPtr < endPtr then
      let next := (strnlenLoop mem endPtr fuel (advance longwordPtr 8) endPtr).map fun out =>
          (out.1, longwordPtr :: out.2)
      if mayHoldZero (mem.load longwordPtr) then
        match firstInWord mem longwordPtr (· = 0) with
        | some k => some (longwordPtr + k, [longwordPtr])
        | none => next
      else next
    else some (charPtr, [])

/-- `end_ptr`. -/
def strnlenEnd (str maxlen : Nat) : Nat :=
  let endPtr := advance str maxlen
  if endPtr < str then 2 ^ 64 - 1 else endPtr

/-- `if (char_ptr > end_ptr) char_ptr = end_ptr; return char_ptr - str;`. -/
def strnlenReturn (str endPtr charPtr : Nat) : Nat :=
  retreat (if charPtr > endPtr then endPtr else charPtr) str

/-- `__strnlen`, with the words it reads. -/
def strnlen (mem : Memory UInt8) (str maxlen : Nat) : Option (Nat × List Nat) :=
  let endPtr := strnlenEnd str maxlen
  if maxlen = 0 then some (0, [])
  else
    match alignUp mem (· = 0) 8 str with
    | none => none
    | some (.inl charPtr) => some (strnlenReturn str endPtr charPtr, [])
    | some (.inr charPtr) =>
      (strnlenLoop mem endPtr (words + 1) charPtr charPtr).map fun out =>
        (strnlenReturn str endPtr out.1, out.2)

/-- The loop up to the alignment: the byte that is found, or the pointer and what is left of `n`. -/
def memchrAlign (mem : Memory UInt8) (c : UInt8) : Nat → Nat → Nat ⊕ Nat × Nat
  | 0, charPtr => .inr (charPtr, 0)
  | n + 1, charPtr =>
    if charPtr % 8 ≠ 0 then
      if mem charPtr = c then .inl charPtr else memchrAlign mem c n (advance charPtr 1)
    else .inr (charPtr, n + 1)

/-- The loop over words: the pointer and what is left of `n` behind it, with the words it reads. -/
def memchrLoop (mem : Memory UInt8) (c : UInt8) : Nat → Nat → (Nat × Nat) × List Nat
  | n + 8, longwordPtr =>
    if holdsRepeated (mem.load longwordPtr ^^^ charmask c) then ((longwordPtr, n + 8), [longwordPtr])
    else
      let out := memchrLoop mem c n (advance longwordPtr 8)
      (out.1, longwordPtr :: out.2)
  | n, longwordPtr => ((longwordPtr, n), [])

def memchrBytes (mem : Memory UInt8) (c : UInt8) : Nat → Nat → Option Nat
  | 0, _ => none
  | n + 1, charPtr => if mem charPtr = c then some charPtr else memchrBytes mem c n (advance charPtr 1)

/-- `memchr`, with the words it reads. -/
def memchr (mem : Memory UInt8) (s : Nat) (cIn : Int) (n : Nat) : Option Nat × List Nat :=
  let c := ucharOf cIn
  match memchrAlign mem c n s with
  | .inl charPtr => (some charPtr, [])
  | .inr (charPtr, n) =>
    let out := memchrLoop mem c n charPtr
    (memchrBytes mem c out.1.2 out.1.1, out.2)

def memrchrAlign (mem : Memory UInt8) (c : UInt8) : Nat → Nat → Nat ⊕ Nat × Nat
  | 0, charPtr => .inr (charPtr, 0)
  | n + 1, charPtr =>
    if charPtr % 8 ≠ 0 then
      let charPtr := retreat charPtr 1
      if mem charPtr = c then .inl charPtr else memrchrAlign mem c n charPtr
    else .inr (charPtr, n + 1)

/-- The loop over words: the byte that is found, or the pointer and what is left of `n` before it. -/
def memrchrLoop (mem : Memory UInt8) (c : UInt8) : Nat → Nat → (Nat ⊕ Nat × Nat) × List Nat
  | n + 8, longwordPtr =>
    let longwordPtr := retreat longwordPtr 8
    let out := memrchrLoop mem c n longwordPtr
    let next := (out.1, longwordPtr :: out.2)
    if unchangedHole (mem.load longwordPtr ^^^ charmask c) then
      match lastInWord mem longwordPtr (· = c) with
      | some k => (.inl (longwordPtr + k), [longwordPtr])
      | none => next
    else next
  | n, longwordPtr => (.inr (longwordPtr, n), [])

def memrchrBytes (mem : Memory UInt8) (c : UInt8) : Nat → Nat → Option Nat
  | 0, _ => none
  | n + 1, charPtr =>
    let charPtr := retreat charPtr 1
    if mem charPtr = c then some charPtr else memrchrBytes mem c n charPtr

/-- `__memrchr`, with the words it reads. -/
def memrchr (mem : Memory UInt8) (s : Nat) (cIn : Int) (n : Nat) : Option Nat × List Nat :=
  let c := ucharOf cIn
  match memrchrAlign mem c n (advance s n) with
  | .inl charPtr => (some charPtr, [])
  | .inr (charPtr, n) =>
    let out := memrchrLoop mem c n charPtr
    match out.1 with
    | .inl found => (some found, out.2)
    | .inr (charPtr, n) => (memrchrBytes mem c n charPtr, out.2)

/-- What is returned at a byte that is `c` or `'\\0'`. -/
def strchrReturn (mem : Memory UInt8) (c : UInt8) (cp : Nat) : Option Nat :=
  if mem cp = c then some cp else none

/-- The loop of `strchr` over words. -/
def strchrLoop (mem : Memory UInt8) (c : UInt8) : Nat → Nat → Option (Option Nat × List Nat) :=
  scanWords mem (fun longword => unchangedHole longword ∨ unchangedHole (longword ^^^ charmask c))
    (fun b => b = c ∨ b = 0) fun cp k => strchrReturn mem c (cp + k)

/-- `strchr`, with the words it reads. -/
def strchr (mem : Memory UInt8) (s : Nat) (cIn : Int) : Option (Option Nat × List Nat) :=
  let c := ucharOf cIn
  match alignUp mem (fun b => b = c ∨ b = 0) 8 s with
  | none => none
  | some (.inl charPtr) => some (strchrReturn mem c charPtr, [])
  | some (.inr charPtr) => strchrLoop mem c (words + 1) charPtr

end Nglibc.Strings.Wordwise
