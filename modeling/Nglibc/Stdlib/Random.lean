import Mathlib.Data.BitVec

/-! The generators of `random_r.c`: state arrays of five types, of which one is current. -/

namespace Nglibc.Stdlib

/-- A state array: the word in front of the state, and the words of the state. -/
structure StateArray where
  info : Int
  words : Nat → BitVec 32

/-- A pointer to a word of the state of an array. -/
structure WordPtr where
  array : Nat
  index : Nat
  deriving DecidableEq

/-- `struct random_data`; `state` is the current array, or none for `NULL`. -/
structure RandomData where
  fptr : WordPtr
  rptr : WordPtr
  state : Option Nat
  randType : Nat
  randDeg : Nat
  randSep : Nat
  endPtr : WordPtr

/-- The state arrays, and the `random_data` that points to them. -/
structure Random where
  arrays : Nat → StateArray
  buf : RandomData

def Random.word (r : Random) (p : WordPtr) : BitVec 32 := (r.arrays p.array).words p.index

def Random.setWord (r : Random) (p : WordPtr) (value : BitVec 32) : Random :=
  let array := r.arrays p.array
  let words := Function.update array.words p.index value
  { r with arrays := Function.update r.arrays p.array { array with words := words } }

def Random.setInfo (r : Random) (array : Nat) (info : Int) : Random :=
  { r with arrays := Function.update r.arrays array { r.arrays array with info := info } }

def maxTypes : Nat := 5

/-- `random_poly_info.degrees` -/
def degrees (type : Nat) : Nat := [0, 7, 15, 31, 63].getD type 0

/-- `random_poly_info.seps` -/
def seps (type : Nat) : Nat := [0, 3, 1, 3, 1].getD type 0

def WordPtr.next (p : WordPtr) : WordPtr := { p with index := p.index + 1 }

/-- The front and the rear pointer behind a number. The rear pointer is only tested if the front
one has not wrapped.
-/
def advance (state : Nat) (endPtr fptr rptr : WordPtr) : WordPtr × WordPtr :=
  if fptr.next.index ≥ endPtr.index then (⟨state, 0⟩, rptr.next)
  else if rptr.next.index ≥ endPtr.index then (fptr.next, ⟨state, 0⟩)
  else (fptr.next, rptr.next)

/-- `__random_r`: the number and the state behind it, none where `state` is `NULL`. -/
def randomR (r : Random) : Option (BitVec 32 × Random) :=
  match r.buf.state with
  | none => none
  | some state =>
    if r.buf.randType = 0 then
      let val := (r.word ⟨state, 0⟩ * 1103515245 + 12345) &&& 0x7fffffff
      some (val, r.setWord ⟨state, 0⟩ val)
    else
      let val := r.word r.buf.fptr + r.word r.buf.rptr
      let r := r.setWord r.buf.fptr val
      let (fptr, rptr) := advance state r.buf.endPtr r.buf.fptr r.buf.rptr
      some (val >>> 1, { r with buf := { r.buf with fptr := fptr, rptr := rptr } })

/-- The quotient and the remainder of a word, rounded towards zero. -/
def schrageHi (word : BitVec 32) : Int := word.toInt.tdiv 127773

def schrageLo (word : BitVec 32) : Int := word.toInt.tmod 127773

def schrage (word : BitVec 32) : BitVec 32 :=
  let word := BitVec.ofInt 32 (16807 * schrageLo word - 2836 * schrageHi word)
  if word.slt 0 then word + 2147483647 else word

/-- The loop of `__srandom_r` over the words behind `dst`. -/
def seedLoop : Nat → WordPtr → BitVec 32 → Random → Random
  | 0, _, _, r => r
  | n + 1, dst, word, r =>
    let word := schrage word
    let dst := { dst with index := dst.index + 1 }
    seedLoop n dst word (r.setWord dst word)

/-- The numbers that `__srandom_r` throws away. -/
def discardLoop : Nat → Random → Option Random
  | 0, r => some r
  | n + 1, r => do
    let (_, r) ← randomR r
    discardLoop n r

/-- `__srandom_r`: its result and the state behind it. -/
def srandomR (seed : BitVec 32) (r : Random) : Option (Int × Random) :=
  if r.buf.randType ≥ maxTypes then some (-1, r)
  else do
    let state ← r.buf.state
    let seed := if seed = 0 then 1 else seed
    let r := r.setWord ⟨state, 0⟩ seed
    if r.buf.randType = 0 then pure (0, r)
    else
      let kc := r.buf.randDeg
      let r := seedLoop (kc - 1) ⟨state, 0⟩ seed r
      let r := { r with buf :=
        { r.buf with fptr := ⟨state, r.buf.randSep⟩, rptr := ⟨state, 0⟩ } }
      let r ← discardLoop (kc * 10) r
      pure (0, r)

def infoWord (type rear : Nat) : Int := if type = 0 then 0 else maxTypes * rear + type

def Random.saveInfo (r : Random) (state : Nat) : Random :=
  r.setInfo state (infoWord r.buf.randType r.buf.rptr.index)

/-- The type for an array of `n` bytes, if there is one. -/
def chooseType (n : Nat) : Option Nat :=
  if n ≥ 128 then some (if n < 256 then 3 else 4)
  else if n < 32 then if n < 8 then none else some 0
  else some (if n < 64 then 1 else 2)

def Random.saveCurrent (r : Random) : Random :=
  match r.buf.state with
  | none => r
  | some state => r.saveInfo state

def Random.useArray (r : Random) (array type : Nat) : Random :=
  { r with buf :=
    { r.buf with
      randType := type
      randSep := seps type
      randDeg := degrees type
      endPtr := ⟨array, degrees type⟩
      state := some array } }

def initstateR (seed : BitVec 32) (array n : Nat) (r : Random) : Option (Int × Random) :=
  match chooseType n with
  | none => some (-1, r.saveCurrent)
  | some type =>
    (srandomR seed (r.saveCurrent.useArray array type)).map fun (_, r) =>
      (0, r.setInfo array (infoWord type r.buf.rptr.index))

def setstateR (array : Nat) (r : Random) : Option (Int × Random) := do
  let state ← r.buf.state
  let r := r.saveInfo state
  let type := (r.arrays array).info.tmod maxTypes
  if type < 0 ∨ type > 4 then pure (-1, r)
  else
    let type := type.toNat
    let rear := ((r.arrays array).info.tdiv maxTypes).toNat
    let buf := { r.buf with randDeg := degrees type, randSep := seps type, randType := type }
    let buf :=
      if type ≠ 0 then
        { buf with rptr := ⟨array, rear⟩, fptr := ⟨array, (rear + seps type) % degrees type⟩ }
      else buf
    pure (0, { r with buf :=
      { buf with state := some array, endPtr := ⟨array, degrees type⟩ } })

/-- A call on one `random_data`. -/
inductive RandomCall where
  | initstate (seed : BitVec 32) (array n : Nat)
  | setstate (array : Nat)
  | srandom (seed : BitVec 32)
  | random

/-- What a call returns, with the number for `random_r`. -/
def Random.step (r : Random) : RandomCall → Option ((Int × Option (BitVec 32)) × Random)
  | .initstate seed array n => (initstateR seed array n r).map fun (ret, r) => ((ret, none), r)
  | .setstate array => (setstateR array r).map fun (ret, r) => ((ret, none), r)
  | .srandom seed => (srandomR seed r).map fun (ret, r) => ((ret, none), r)
  | .random => (randomR r).map fun (val, r) => ((0, some val), r)

def Random.run (r : Random) : List RandomCall → Option (List (Int × Option (BitVec 32)) × Random)
  | [] => some ([], r)
  | call :: calls => do
    let (out, r) ← r.step call
    let (outs, r) ← r.run calls
    pure (out :: outs, r)

end Nglibc.Stdlib
