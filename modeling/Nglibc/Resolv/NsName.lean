import Mathlib.Data.Nat.Bitwise
import Mathlib.Tactic
import Nglibc.Lib.Memory

/-! Domain names in DNS messages: `resolv/ns_name_ntop.c`, `resolv/ns_name_pton.c`,
`resolv/ns_name_pack.c`, `resolv/ns_name_compress.c` and `resolv/ns_name_unpack.c`.

A loop that may follow compression pointers takes `fuel`, the number of its rounds; a result
`none` says that the fuel ran out or that an array was read outside of its bounds.
-/

namespace Nglibc.Resolv

/-- The errors the functions report; each comes with the result -1. -/
inductive Errno where
  | emsgsize
  | enoent
  deriving DecidableEq

def nsCmprsflgs : Nat := 0xc0

/-- `MAXCDNAME`, which is `NS_MAXCDNAME`. -/
def maxcdname : Nat := 255

def mklower (ch : Nat) : Nat :=
  if ch ≥ 'A'.toNat ∧ ch ≤ 'Z'.toNat then ch - 'A'.toNat + 'a'.toNat else ch

/-- A `size_t` passed as an `int`. -/
def sizeToInt (n : Nat) : Int := (BitVec.ofNat 32 n).toInt

def nsMaxdname : Nat := 1025

def special (ch : Nat) : Bool :=
  ch = '"'.toNat || ch = '.'.toNat || ch = ';'.toNat || ch = '\\'.toNat || ch = '('.toNat
    || ch = ')'.toNat || ch = '@'.toNat || ch = '$'.toNat

def printable (ch : Nat) : Bool := ch > 0x20 && ch < 0x7f

/-- The loop over the bytes of a label. `out` are the bytes stored at `dst`, so that `eom - dn`
is `dstsiz` less its length.
-/
def ntopLabel (src : Memory UInt8) (dstsiz : Nat) : Nat → Nat → List UInt8 → Except Errno (List UInt8)
  | 0, _, out => .ok out
  | l + 1, cp, out =>
    let c := (src cp).toNat
    let room : Int := (dstsiz : Int) - out.length
    if special c then
      if room < 2 then .error .emsgsize
      else ntopLabel src dstsiz l (cp + 1) (out ++ [UInt8.ofNat '\\'.toNat, src cp])
    else if ¬ printable c then
      if room < 4 then .error .emsgsize
      else
        ntopLabel src dstsiz l (cp + 1)
          (out ++ [UInt8.ofNat '\\'.toNat, UInt8.ofNat ('0'.toNat + c / 100),
            UInt8.ofNat ('0'.toNat + c % 100 / 10), UInt8.ofNat ('0'.toNat + c % 10)])
    else
      if room < 2 then .error .emsgsize
      else ntopLabel src dstsiz l (cp + 1) (out ++ [src cp])

/-- `*dn++ = c`, unless the buffer is full. -/
def putChar (dstsiz : Nat) (out : List UInt8) (c : Char) : Except Errno (List UInt8) :=
  if out.length ≥ dstsiz then .error .emsgsize else .ok (out ++ [UInt8.ofNat c.toNat])

/-- The loop of `___ns_name_ntop` and what follows it: its result, and the text before the
terminator.
-/
def ntopLoop (src : Memory UInt8) (dstsiz : Nat)
    : Nat → Nat → List UInt8 → Option (Except Errno (Nat × List UInt8))
  | 0, _, _ => none
  | fuel + 1, cp, out =>
    let l := (src cp).toNat
    if l = 0 then
      some do
        let out ← if out = [] then putChar dstsiz out '.' else .ok out
        let stored ← putChar dstsiz out '\x00'
        .ok (stored.length, out)
    else if l ≥ 64 then some (.error .emsgsize)
    else
      match (do
        let out ← if out ≠ [] then putChar dstsiz out '.' else .ok out
        ntopLabel src dstsiz l (cp + 1) out) with
      | .error e => some (.error e)
      | .ok out => ntopLoop src dstsiz fuel (cp + 1 + l) out

/-- `___ns_name_ntop` of the name at the address 0 of `src`. -/
def nsNameNtop (fuel : Nat) (src : Memory UInt8) (dstsiz : Nat)
    : Option (Except Errno (Nat × List UInt8)) :=
  ntopLoop src dstsiz fuel 0 []

/-- The local variables of `___ns_name_pton`; `label` and `bp` are offsets into `dst`. -/
structure Pton where
  dst : Memory UInt8
  label : Nat
  bp : Nat

/-- `*bp++ = (unsigned char) c`, unless the buffer of `dstsiz` bytes is full. -/
def Pton.putByte (dstsiz : Nat) (p : Pton) (c : UInt8) : Except Errno Pton :=
  if p.bp ≥ dstsiz then .error .emsgsize
  else .ok { p with dst := p.dst.store p.bp [c], bp := p.bp + 1 }

def Pton.putLength (dstsiz : Nat) (p : Pton) : Except Errno (Nat × Pton) :=
  let c := p.bp - p.label - 1
  if c &&& nsCmprsflgs ≠ 0 then .error .emsgsize
  else if p.label ≥ dstsiz then .error .emsgsize
  else .ok (c, { p with dst := p.dst.store p.label [UInt8.ofNat c] })

/-- The end of the name after a label of the length `c`, with the result of the function. -/
def Pton.finish (dstsiz : Nat) (result : Nat) (c : Nat) (p : Pton) : Except Errno (Nat × Memory UInt8) := do
  let p ← if c ≠ 0 then p.putByte dstsiz 0 else .ok p
  if p.bp > maxcdname then .error .emsgsize else .ok (result, p.dst)

def isDigit (c : UInt8) : Bool := decide ('0'.toNat ≤ c.toNat ∧ c.toNat ≤ '9'.toNat)

/-- The loop of `___ns_name_pton` over the bytes of `src` before its terminator. A `char` above
0x7F is negative in the source; it is no digit, backslash or dot either way.
-/
def ptonLoop (dstsiz : Nat) : List UInt8 → Bool → Pton → Except Errno (Nat × Memory UInt8)
  | [], escaped, p =>
    if escaped then .error .emsgsize
    else do
      let (c, p) ← p.putLength dstsiz
      p.finish dstsiz 0 c
  | c :: src, true, p =>
    if isDigit c then
      match src with
      | d :: e :: src =>
        if ¬ isDigit d ∨ ¬ isDigit e then .error .emsgsize
        else
          let n := (c.toNat - '0'.toNat) * 100 + (d.toNat - '0'.toNat) * 10 + (e.toNat - '0'.toNat)
          if n > 255 then .error .emsgsize
          else do
            let p ← p.putByte dstsiz (UInt8.ofNat n)
            ptonLoop dstsiz src false p
      | _ => .error .emsgsize
    else do
      let p ← p.putByte dstsiz c
      ptonLoop dstsiz src false p
  | c :: src, false, p =>
    if c.toNat = '\\'.toNat then ptonLoop dstsiz src true p
    else if c.toNat = '.'.toNat then do
      let (n, p) ← p.putLength dstsiz
      match src with
      | [] => p.finish dstsiz 1 n
      | next :: _ =>
        if n = 0 ∨ next.toNat = '.'.toNat then .error .emsgsize
        else ptonLoop dstsiz src false { p with label := p.bp, bp := p.bp + 1 }
    else do
      let p ← p.putByte dstsiz c
      ptonLoop dstsiz src false p

/-- `___ns_name_pton`, with the bytes that `dst` holds before. -/
def nsNamePton (src : List UInt8) (dst : Memory UInt8) (dstsiz : Nat)
    : Except Errno (Nat × Memory UInt8) :=
  ptonLoop dstsiz src false { dst, label := 0, bp := 1 }

/-- The loop `for (; n > 0; n--)` that compares two labels. -/
def sameBytes (src mem : Memory UInt8) : Nat → Nat → Nat → Bool
  | 0, _, _ => true
  | n + 1, dn, cp =>
    if mklower (src dn).toNat ≠ mklower (mem cp).toNat then false
    else sameBytes src mem n (dn + 1) (cp + 1)

inductive Comparison where
  | found
  | next
  | illegal
  deriving DecidableEq

/-- The target of a compression pointer with the first byte `n` and the second at `cp`. -/
def indirection (mem : Memory UInt8) (n cp : Nat) : Nat := ((n &&& 0x3f) <<< 8) ||| (mem cp).toNat

/-- The loop `while ((n = *cp++) != 0)` of `dn_find`. -/
def compareNames (src mem : Memory UInt8) (msg : Nat) : Nat → Nat → Nat → Option Comparison
  | 0, _, _ => none
  | fuel + 1, dn, cp =>
    let n := (mem cp).toNat
    if n = 0 then some .next
    else if n &&& nsCmprsflgs = 0 then
      if n ≠ (src dn).toNat then some .next
      else if sameBytes src mem n (dn + 1) (cp + 1) then
        if src (dn + 1 + n) = 0 ∧ mem (cp + 1 + n) = 0 then some .found
        else if src (dn + 1 + n) ≠ 0 then
          compareNames src mem msg fuel (dn + 1 + n) (cp + 1 + n)
        else some .next
      else some .next
    else if n &&& nsCmprsflgs = nsCmprsflgs then
      compareNames src mem msg fuel dn (msg + indirection mem n (cp + 1))
    else some .illegal

/-- The loop over the labels of the name at `sp`: the address of the suffix that is found, if
there is one, or the error that ends the search.
-/
def searchSuffixes (src mem : Memory UInt8) (msg domain fuel : Nat)
    : Nat → Nat → Option (Except Errno (Option Nat))
  | 0, _ => none
  | rounds + 1, sp =>
    let n := (mem sp).toNat
    if n ≠ 0 ∧ n &&& nsCmprsflgs = 0 ∧ (sp : Int) - msg < 0x4000 then
      match compareNames src mem msg fuel domain sp with
      | none => none
      | some .found => some (.ok (some sp))
      | some .illegal => some (.error .emsgsize)
      | some .next => searchSuffixes src mem msg domain fuel rounds (sp + (n + 1))
    else some (.ok none)

/-- `dn_find` over the pointers from `dnptrs` to `lastdnptr`, which are not null. -/
def dnFind (src mem : Memory UInt8) (msg domain fuel : Nat)
    : List (Option Nat) → Option (Except Errno Int)
  | [] => some (.error .enoent)
  | none :: _ => none
  | some sp :: cpp =>
    match searchSuffixes src mem msg domain fuel fuel sp with
    | none => none
    | some (.error e) => some (.error e)
    | some (.ok (some found)) => some (.ok ((found : Int) - msg))
    | some (.ok none) => dnFind src mem msg domain fuel cpp

/-- The loop `for (cpp = dnptrs; *cpp != NULL; cpp++)`: how many pointers it passes. -/
def endOfList : List (Option Nat) → Option Nat
  | [] => none
  | none :: _ => some 0
  | some _ :: rest => (endOfList rest).map (· + 1)

/-- The first loop of `___ns_name_pack`: whether the name is legal. -/
def isLegal (src : Memory UInt8) : Nat → Nat → Nat → Option Bool
  | 0, _, _ => none
  | fuel + 1, srcp, l =>
    let n := (src srcp).toNat
    if n ≥ 64 then some false
    else if l + (n + 1) > maxcdname then some false
    else if n ≠ 0 then isLegal src fuel (srcp + (n + 1)) (l + (n + 1))
    else some true

/-- What `___ns_name_pack` does not change while it copies labels. `lpp` and `lastdnptr` are
indices of the array `dnptrs`, of which the entry 0 is `msg`.
-/
structure PackCall where
  src : Memory UInt8
  dst : Nat
  dstsiz : Int
  msg : Option Nat
  lpp : Nat
  lastdnptr : Option Nat

/-- The variables and the memory it changes; `dnptrs` is the whole array. -/
structure Packing where
  mem : Memory UInt8
  dstp : Nat
  dnptrs : List (Option Nat)
  cpp : Nat
  first : Bool

namespace PackCall

/-- `eob - dstp`. -/
def room (c : PackCall) (p : Packing) : Int := (c.dst : Int) + c.dstsiz - p.dstp

/-- The code at `cleanup`. -/
def cleanup (c : PackCall) (p : Packing) : Except Errno Nat × Packing :=
  (.error .emsgsize, if c.msg.isSome then { p with dnptrs := p.dnptrs.set c.lpp none } else p)

/-- Saves the address of a name that was not found. -/
def save (c : PackCall) (msg : Nat) (p : Packing) : Packing :=
  match c.lastdnptr with
  | some lastdnptr =>
    if p.cpp + 1 < lastdnptr ∧ (p.dstp : Int) - msg < 0x4000 ∧ p.first then
      { p with
        dnptrs := (p.dnptrs.set p.cpp (some p.dstp)).set (p.cpp + 1) none
        cpp := p.cpp + 1
        first := false }
    else p
  | none => p

/-- Looks for the rest of the name and puts a compression pointer to it, or saves its address. -/
def putPointer (c : PackCall) (fuel srcp : Nat) (p : Packing)
    : Option ((Except Errno Nat × Packing) ⊕ Packing) :=
  match c.msg with
  | none => some (.inr p)
  | some msg =>
    match dnFind c.src p.mem msg srcp fuel ((p.dnptrs.take c.lpp).drop 1) with
    | none => none
    | some (.ok l) =>
      if l ≥ 0 then
        if c.room p ≤ 1 then some (.inl (c.cleanup p))
        else
          let pointer := [UInt8.ofNat (l.toNat >>> 8 ||| nsCmprsflgs), UInt8.ofNat (l.toNat % 256)]
          some (.inl (.ok (p.dstp + 2 - c.dst),
            { p with mem := p.mem.store p.dstp pointer, dstp := p.dstp + 2 }))
      else some (.inr (c.save msg p))
    | some (.error _) => some (.inr (c.save msg p))

/-- Copies a label of `n` bytes. -/
def copyLabel (c : PackCall) (srcp n : Nat) (p : Packing) : Packing :=
  { p with mem := p.mem.store p.dstp (c.src.slice srcp (n + 1)), dstp := p.dstp + (n + 1) }

/-- The second loop of `___ns_name_pack` and what follows it. -/
def copyLabels (c : PackCall) (fuel : Nat)
    : Nat → Nat → Packing → Option (Except Errno Nat × Packing)
  | 0, _, _ => none
  | rounds + 1, srcp, p =>
    let n := (c.src srcp).toNat
    let copy (p : Packing) : Option (Except Errno Nat × Packing) :=
      if n ≥ 64 then some (c.cleanup p)
      else if (n : Int) + 1 > c.room p then some (c.cleanup p)
      else
        let p := c.copyLabel srcp n p
        if n ≠ 0 then copyLabels c fuel rounds (srcp + (n + 1)) p
        else if c.room p < 0 then some (c.cleanup p)
        else some (.ok (p.dstp - c.dst), p)
    if n ≠ 0 then
      match c.putPointer fuel srcp p with
      | none => none
      | some (.inl done) => some done
      | some (.inr p) => copy p
    else copy p

/-- `___ns_name_pack` behind the search for the end of the pointer list. -/
def run (c : PackCall) (fuel : Nat) (mem : Memory UInt8) (dnptrs : List (Option Nat))
    : Option (Except Errno Nat × Packing) :=
  let p : Packing := { mem, dstp := c.dst, dnptrs, cpp := c.lpp, first := true }
  match isLegal c.src fuel 0 0 with
  | none => none
  | some false => some (.error .emsgsize, p)
  | some true => c.copyLabels fuel fuel 0 p

end PackCall

/-- What a call leaves: its result, the memory and the array `dnptrs`. -/
structure Packed where
  result : Except Errno Nat
  mem : Memory UInt8
  dnptrs : Option (List (Option Nat))

/-- `___ns_name_pack`. The name is at the address 0 of `src`. -/
def nsNamePack (fuel : Nat) (src : Memory UInt8) (dst : Nat) (dstsiz : Int)
    (dnptrs : Option (List (Option Nat))) (lastdnptr : Option Nat) (mem : Memory UInt8)
    : Option Packed :=
  match dnptrs with
  | none => do
    let (result, p) ← PackCall.run { src, dst, dstsiz, msg := none, lpp := 0, lastdnptr } fuel mem []
    some { result, mem := p.mem, dnptrs := none }
  | some [] => none
  | some (none :: rest) => do
    let (result, p) ←
      PackCall.run { src, dst, dstsiz, msg := none, lpp := 0, lastdnptr } fuel mem (none :: rest)
    some { result, mem := p.mem, dnptrs := some p.dnptrs }
  | some (some msg :: rest) => do
    let passed ← endOfList rest
    let (result, p) ←
      PackCall.run { src, dst, dstsiz, msg := some msg, lpp := passed + 1, lastdnptr } fuel mem
        (some msg :: rest)
    some { result, mem := p.mem, dnptrs := some p.dnptrs }

/-- `___ns_name_compress`; `tmp` is what its local array holds before. -/
def nsNameCompress (fuel : Nat) (src : List UInt8) (tmp : Memory UInt8) (dst dstsiz : Nat)
    (dnptrs : Option (List (Option Nat))) (lastdnptr : Option Nat) (mem : Memory UInt8)
    : Option Packed :=
  match nsNamePton src tmp maxcdname with
  | .error e => some { result := .error e, mem, dnptrs }
  | .ok (_, name) => nsNamePack fuel name dst (sizeToInt dstsiz) dnptrs lastdnptr mem

/-- The variables of `___ns_name_unpack`; `out` are the bytes stored at `dst`. -/
structure Unpacking where
  srcp : Nat
  out : List UInt8
  len : Int
  checked : Nat

/-- The loop of `___ns_name_unpack`, with its result and the bytes of the name. -/
def unpackLoop (mem : Memory UInt8) (msg eom src dstsiz : Nat)
    : Nat → Unpacking → Option (Except Errno (Int × List UInt8))
  | 0, _ => none
  | fuel + 1, u =>
    let n := (mem u.srcp).toNat
    let srcp := u.srcp + 1
    if n = 0 then
      some (.ok (if u.len < 0 then (srcp : Int) - src else u.len, u.out ++ [0]))
    else if n &&& nsCmprsflgs = 0 then
      if n ≥ 64 then some (.error .emsgsize)
      else if (n : Int) + 1 ≥ (dstsiz : Int) - u.out.length ∨ (n : Int) ≥ (eom : Int) - srcp then
        some (.error .emsgsize)
      else
        unpackLoop mem msg eom src dstsiz fuel
          { u with
            srcp := srcp + n
            out := u.out ++ mem u.srcp :: mem.slice srcp n
            checked := u.checked + (n + 1) }
    else if n &&& nsCmprsflgs = nsCmprsflgs then
      if srcp ≥ eom then some (.error .emsgsize)
      else
        let target := indirection mem n srcp
        if (target : Int) ≥ (eom : Int) - msg then some (.error .emsgsize)
        -- the whole message has been looked at, so the name loops
        else if ((u.checked + 2 : Nat) : Int) ≥ (eom : Int) - msg then some (.error .emsgsize)
        else
          unpackLoop mem msg eom src dstsiz fuel
            { u with
              srcp := msg + target
              len := if u.len < 0 then (srcp : Int) - src + 1 else u.len
              checked := u.checked + 2 }
    else some (.error .emsgsize)

def nsNameUnpack (fuel : Nat) (mem : Memory UInt8) (msg eom src dstsiz : Nat)
    : Option (Except Errno (Int × List UInt8)) :=
  if src < msg ∨ src ≥ eom then some (.error .emsgsize)
  else unpackLoop mem msg eom src dstsiz fuel { srcp := src, out := [], len := -1, checked := 0 }

end Nglibc.Resolv
