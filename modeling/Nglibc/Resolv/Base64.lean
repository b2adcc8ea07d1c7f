import Mathlib.Data.Nat.Bitwise
import Mathlib.Tactic
import Nglibc.Lib.Memory

/-! Base64 of `resolv/base64.c`. A result `none` is an `abort` or an overflow of the `int`
`tarindex`; a result `.error` is the return value -1.
-/

namespace Nglibc.Resolv

def base64 : List UInt8 :=
  ['A', 'B', 'C', 'D', 'E', 'F', 'G', 'H', 'I', 'J', 'K', 'L', 'M', 'N', 'O', 'P',
    'Q', 'R', 'S', 'T', 'U', 'V', 'W', 'X', 'Y', 'Z', 'a', 'b', 'c', 'd', 'e', 'f',
    'g', 'h', 'i', 'j', 'k', 'l', 'm', 'n', 'o', 'p', 'q', 'r', 's', 't', 'u', 'v',
    'w', 'x', 'y', 'z', '0', '1', '2', '3', '4', '5', '6', '7', '8', '9', '+', '/'].map
    fun c => UInt8.ofNat c.toNat

def pad64 : UInt8 := UInt8.ofNat '='.toNat

def intMax : Nat := 2 ^ 31 - 1

/-- `isspace` in the C locale. A negative `char` is no space. -/
def isspace (c : UInt8) : Bool := c = 32 || (9 ≤ c && c ≤ 13)

/-- `Base64[output]` behind the assertion that `output` is less than 64. -/
def base64Digit (output : Nat) : Option UInt8 := base64[output]?

/-- The loop of `b64_ntop` and what follows it; `target` are the bytes stored so far, so that
`datalength` is its length.
-/
def b64NtopLoop (targsize : Nat) : List UInt8 → List UInt8 → Option (Except Unit (List UInt8))
  | a :: b :: c :: src, target => do
    let output0 ← base64Digit (a.toNat >>> 2)
    let output1 ← base64Digit (((a.toNat &&& 0x03) <<< 4) + (b.toNat >>> 4))
    let output2 ← base64Digit (((b.toNat &&& 0x0f) <<< 2) + (c.toNat >>> 6))
    let output3 ← base64Digit (c.toNat &&& 0x3f)
    if target.length + 4 > targsize then some (.error ())
    else b64NtopLoop targsize src (target ++ [output0, output1, output2, output3])
  | [a, b], target => do
    let output0 ← base64Digit (a.toNat >>> 2)
    let output1 ← base64Digit (((a.toNat &&& 0x03) <<< 4) + (b.toNat >>> 4))
    let output2 ← base64Digit (((b.toNat &&& 0x0f) <<< 2) + (0 >>> 6))
    if target.length + 4 > targsize then some (.error ())
    else if target.length + 4 ≥ targsize then some (.error ())
    else some (.ok (target ++ [output0, output1, output2, pad64]))
  | [a], target => do
    let output0 ← base64Digit (a.toNat >>> 2)
    let output1 ← base64Digit (((a.toNat &&& 0x03) <<< 4) + (0 >>> 4))
    let _ ← base64Digit (((0 &&& 0x0f) <<< 2) + (0 >>> 6))
    if target.length + 4 > targsize then some (.error ())
    else if target.length + 4 ≥ targsize then some (.error ())
    else some (.ok (target ++ [output0, output1, pad64, pad64]))
  | [], target =>
    if target.length ≥ targsize then some (.error ()) else some (.ok target)

/-- `b64_ntop`: the text before the terminator. The length of it is returned as an `int`; it is
a multiple of four and so never -1.
-/
def b64Ntop (src : List UInt8) (targsize : Nat) : Option (Except Unit (List UInt8)) :=
  b64NtopLoop targsize src []

/-- `state`: how many characters of a group of four have been read. -/
inductive Quantum where
  | zero
  | one
  | two
  | three
  deriving DecidableEq

structure Decoding where
  target : Option (Memory UInt8)
  tarindex : Nat
  state : Quantum

/-- Changes the target, if there is one that has room for a byte at `last`. -/
def Decoding.write (targsize last : Nat) (change : Memory UInt8 → Memory UInt8) (d : Decoding)
    : Except Unit Decoding :=
  match d.target with
  | none => .ok d
  | some target =>
    if last ≥ targsize then .error () else .ok { d with target := some (change target) }

/-- `tarindex++`. -/
def Decoding.advance (d : Decoding) (state : Quantum) : Option (Except Unit Decoding) :=
  if d.tarindex < intMax then some (.ok { d with tarindex := d.tarindex + 1, state }) else none

/-- The `switch` of `b64_pton`, for the character with the index `pos`. -/
def Decoding.put (targsize pos : Nat) (d : Decoding) : Option (Except Unit Decoding) :=
  let i := d.tarindex
  match d.state with
  | .zero =>
    match d.write targsize i fun t => t.store i [UInt8.ofNat (pos <<< 2)] with
    | .error e => some (.error e)
    | .ok d => some (.ok { d with state := .one })
  | .one =>
    match d.write targsize (i + 1) fun t =>
        (t.store i [t i ||| UInt8.ofNat (pos >>> 4)]).store (i + 1)
          [UInt8.ofNat ((pos &&& 0x0f) <<< 4)] with
    | .error e => some (.error e)
    | .ok d => d.advance .two
  | .two =>
    match d.write targsize (i + 1) fun t =>
        (t.store i [t i ||| UInt8.ofNat (pos >>> 2)]).store (i + 1)
          [UInt8.ofNat ((pos &&& 0x03) <<< 6)] with
    | .error e => some (.error e)
    | .ok d => d.advance .three
  | .three =>
    match d.write targsize i fun t => t.store i [t i ||| UInt8.ofNat pos] with
    | .error e => some (.error e)
    | .ok d => d.advance .zero

/-- The end of a text with padding: only white space is left, and the bits behind the last byte
are zero.
-/
def Decoding.close (d : Decoding) (src : List UInt8) : Except Unit Decoding :=
  if src.any (fun ch => !isspace ch) then .error ()
  else if d.target.any (fun t => t d.tarindex != 0) then .error ()
  else .ok d

def Decoding.pad (d : Decoding) (src : List UInt8) : Except Unit Decoding :=
  match d.state with
  | .zero => .error ()
  | .one => .error ()
  | .two =>
    match src.dropWhile isspace with
    | [] => .error ()
    | ch :: src => if ch ≠ pad64 then .error () else d.close src
  | .three => d.close src

/-- The loop of `b64_pton` over the bytes of `src` before its terminator, and what follows it. -/
def b64PtonLoop (targsize : Nat) : List UInt8 → Decoding → Option (Except Unit Decoding)
  | [], d => some (if d.state ≠ .zero then .error () else .ok d)
  | ch :: src, d =>
    if isspace ch then b64PtonLoop targsize src d
    else if ch = pad64 then some (d.pad src)
    else
      match base64.idxOf? ch with
      | none => some (.error ())
      | some pos =>
        match d.put targsize pos with
        | none => none
        | some (.error e) => some (.error e)
        | some (.ok d) => b64PtonLoop targsize src d

/-- `b64_pton`: the final `tarindex` is returned. -/
def b64Pton (src : List UInt8) (target : Option (Memory UInt8)) (targsize : Nat)
    : Option (Except Unit Decoding) :=
  b64PtonLoop targsize src { target, tarindex := 0, state := .zero }

end Nglibc.Resolv
