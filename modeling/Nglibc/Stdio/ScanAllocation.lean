import Nglibc.Lib.BlockTrace
import Nglibc.Stdio.Intscan
import Nglibc.Stdio.Mb2wc

/-! The conversions `%mc`, `%ms` and `%m[` of `__vfscanf` and `__vfwscanf`, which store what they read in
blocks that they allocate. The calls of `malloc` and `realloc` are numbered, and `grants n` says whether
the `n`-th one succeeds.
-/

namespace Nglibc.Stdio

variable {W : Type}

/-- The calls so far, and what was done with the blocks. A block has the number of the call that returned
it.
-/
structure ScanHeap where
  calls : Nat
  events : List (BlockEvent UInt8)

namespace ScanHeap

/-- `malloc`, which fails above `PTRDIFF_MAX`. -/
def malloc (grants : Nat → Bool) (size : Nat) (h : ScanHeap) : Option Nat × ScanHeap :=
  if size < 2 ^ 63 ∧ grants h.calls then
    (some h.calls, ⟨h.calls + 1, h.events ++ [.malloc h.calls size]⟩)
  else (none, { h with calls := h.calls + 1 })

/-- `realloc` of a block. -/
def realloc (grants : Nat → Bool) (block size : Nat) (h : ScanHeap) : Option Nat × ScanHeap :=
  if size < 2 ^ 63 ∧ grants h.calls then
    (some h.calls, ⟨h.calls + 1, h.events ++ [.realloc block h.calls size]⟩)
  else (none, { h with calls := h.calls + 1 })

/-- Something done with the block of a pointer, unless the pointer is null. -/
def touch (block : Option Nat) (event : Nat → BlockEvent UInt8) (h : ScanHeap) : ScanHeap :=
  match block with
  | none => h
  | some block => { h with events := h.events ++ [event block] }

def store (block : Option Nat) (offset : Nat) (bytes : List UInt8) (h : ScanHeap) : ScanHeap :=
  h.touch block fun block => .store block offset bytes

def free (block : Option Nat) (h : ScanHeap) : ScanHeap := h.touch block .free

def handOver (block : Option Nat) (h : ScanHeap) : ScanHeap := h.touch block .handOver

end ScanHeap

/-- `t`, where a set has the characters of the format behind its bracket. -/
inductive ScanKind (α : Type) where
  | c
  | s
  | set (text : List α)

/-- A conversion with the modifier `m`: whether its size is `SIZE_l`, whether its destination is not
null, and its field width, 0 for none.
-/
structure ScanConversion (α : Type) where
  kind : ScanKind α
  long : Bool
  assigns : Bool
  width : Nat
  small : width < 2 ^ 31

variable {α : Type}

def ScanKind.isChar : ScanKind α → Bool
  | .c => true
  | _ => false

/-- The width of `%c` is at least one. -/
def ScanConversion.charWidth (conv : ScanConversion α) : Nat := max conv.width 1

/-- `sizeof(wchar_t)` or one byte. -/
def ScanConversion.unit (conv : ScanConversion α) : Nat := if conv.long then 4 else 1

/-- The first value of `k`. -/
def ScanConversion.start (conv : ScanConversion α) : Nat :=
  if conv.kind.isChar then (conv.charWidth + 1) % 2 ^ 32 else 31

def wcharBytes (wc : BitVec 32) : List UInt8 :=
  [toByte wc, toByte (wc >>> 8), toByte (wc >>> 16), toByte (wc >>> 24)]

/-- The variables `i` and `k`, and the pointer `s` or `wcs`, null if nothing is assigned. -/
structure Filling where
  i : Nat
  k : Nat
  block : Option Nat
  heap : ScanHeap

namespace Filling

/-- The first allocation, and whether it succeeds. -/
def begin (grants : Nat → Bool) (conv : ScanConversion α) (calls : Nat) : Bool × Filling :=
  if conv.assigns then
    let (block, heap) := ScanHeap.malloc grants (conv.start * conv.unit % 2 ^ 64) ⟨calls, []⟩
    (block.isSome, ⟨0, conv.start, block, heap⟩)
  else (true, ⟨0, conv.start, none, ⟨calls, []⟩⟩)

/-- A store of `n` elements, and a larger block once `full` says so. It fails if there is none. -/
def put (grants : Nat → Bool) (unit : Nat) (full : Nat → Nat → Bool) (n : Nat) (bytes : List UInt8)
    (fill : Filling)
    : Bool × Filling :=
  let heap := fill.heap.store fill.block (fill.i * unit) bytes
  let i := fill.i + n
  match fill.block with
  | none => (true, { fill with i := i })
  | some block =>
    if full i fill.k then
      let k := (fill.k + (fill.k + 1)) % 2 ^ 64
      match heap.realloc grants block (k * unit % 2 ^ 64) with
      | (some block, heap) => (true, ⟨i, k, some block, heap⟩)
      | (none, heap) => (false, ⟨i, k, some block, heap⟩)
    else (true, ⟨i, fill.k, some block, heap⟩)

/-- The end of a conversion that succeeds. Only strings are terminated. -/
def finish (conv : ScanConversion α) (fill : Filling) : ScanHeap :=
  let heap := fill.heap.handOver fill.block
  if conv.kind.isChar then heap
  else heap.store fill.block (fill.i * conv.unit) (List.replicate conv.unit 0)

def drop (fill : Filling) : ScanHeap := fill.heap.free fill.block

end Filling

/-- How the loop of a conversion ends: it stops with `r`, or an allocation or a character fails. -/
inductive LoopEnd (ρ : Type) where
  | ended (r : ρ)
  | failed
  | running

inductive Verdict where
  | converted
  | matchFail
  | inputFail
  | running
  deriving DecidableEq

structure Converted (S : Type) where
  verdict : Verdict
  input : S
  heap : ScanHeap

/-- The loop over a bracket expression; `add` is what its characters are set to. -/
def scansetLoop (add : Bool) : UInt8 → List UInt8 → (UInt8 → Bool) → Option (UInt8 → Bool)
  | prev, x :: y :: rest, set =>
    if x = 93 then some set
    else if x = 0 then none
    else if x = 45 ∧ y ≠ 0 ∧ y ≠ 93 then
      scansetLoop add y rest fun b => if prev ≤ b ∧ b < y ∨ b = y then add else set b
    else scansetLoop add x (y :: rest) fun b => if b = x then add else set b
  | _, [x], set => if x = 93 then some set else none
  | _, [], _ => none

/-- `scanset` without the entry of `EOF`, `none` if the bracket is not closed. -/
def scanset : ScanKind UInt8 → Option (UInt8 → Bool)
  | .c => some fun _ => true
  | .s => some fun b => !([9, 10, 11, 12, 13, 32].contains b)
  | .set text =>
    let (invert, text) := match text with
      | 94 :: rest => (true, rest)
      | text => (false, text)
    match text with
    | 45 :: rest => scansetLoop (!invert) 45 rest fun b => if b = 45 then !invert else invert
    | 93 :: rest => scansetLoop (!invert) 93 rest fun b => if b = 93 then !invert else invert
    | text => scansetLoop (!invert) 0 text fun _ => invert

/-- The loops of `__vfscanf`, which stop with the state of `__mbr2wc`. -/
def narrowLoop (uflow : Streambuf W → Int × Streambuf W) (grants : Nat → Bool) (long : Bool)
    (set : UInt8 → Bool)
    : Nat → BitVec 32 → Filling → Scanbuf W → LoopEnd (BitVec 32) × Filling × Scanbuf W
  | 0, _, fill, f => (.running, fill, f)
  | fuel + 1, st, fill, f =>
    let (c, f) := shgetc uflow f
    if c < 0 ∨ !set (UInt8.ofInt c) then (.ended st, fill, f)
    else if long then
      let r := mbr2wc [UInt8.ofInt c] st
      if r.ret = ilseqValue then (.failed, fill, f)
      else if r.ret = incompleteValue then narrowLoop uflow grants long set fuel r.st fill f
      else
        match fill.put grants 4 (fun i k => i = k) 1 (wcharBytes (r.wc.getD 0)) with
        | (true, fill) => narrowLoop uflow grants long set fuel r.st fill f
        | (false, fill) => (.failed, fill, f)
    else
      match fill.put grants 1 (fun i k => i = k) 1 [UInt8.ofInt c] with
      | (true, fill) => narrowLoop uflow grants long set fuel st fill f
      | (false, fill) => (.failed, fill, f)

/-- `__vfscanf` before the loop: white space is skipped for `%s`, and a byte must be there. -/
def narrowFirst (uflow : Streambuf W → Int × Streambuf W) (fuel : Nat) (conv : ScanConversion UInt8)
    (f : Scanbuf W)
    : Option (Bool × Scanbuf W) :=
  let skipped : Option (Scanbuf W) := match conv.kind with
    | .s =>
      (scanWhile uflow (fun c _ => isspaceInt c) (fun a _ => a) fuel (shgetc uflow (shlim 0 f)).1 ()
        (shgetc uflow (shlim 0 f)).2).map fun r => shunget r.2.2
    | _ => some f
  skipped.map fun f =>
    let (c, f) := shgetc uflow
      (shlim (if conv.kind.isChar then conv.charWidth else conv.width : Nat) f)
    if c < 0 then (false, f) else (true, shunget f)

def narrowEnd (conv : ScanConversion UInt8)
    : LoopEnd (BitVec 32) × Filling × Scanbuf W → Converted (Scanbuf W)
  | (.running, fill, f) => ⟨.running, f, fill.heap⟩
  | (.failed, fill, f) => ⟨.inputFail, f, fill.drop⟩
  | (.ended st, fill, f) =>
    if conv.long ∧ st ≠ 0 then ⟨.inputFail, f, fill.drop⟩
    else
      let f := shunget f
      if shcnt f = 0 ∨ conv.kind.isChar ∧ shcnt f ≠ conv.charWidth then ⟨.matchFail, f, fill.drop⟩
      else ⟨.converted, f, fill.finish conv⟩

/-- A conversion of `__vfscanf`. -/
def narrowConversion (uflow : Streambuf W → Int × Streambuf W) (grants : Nat → Bool) (fuel : Nat)
    (conv : ScanConversion UInt8) (f : Scanbuf W) (calls : Nat)
    : Converted (Scanbuf W) :=
  match narrowFirst uflow fuel conv f with
  | none => ⟨.running, f, ⟨calls, []⟩⟩
  | some (false, f) => ⟨.inputFail, f, ⟨calls, []⟩⟩
  | some (true, f) =>
    match scanset conv.kind with
    | none => ⟨.inputFail, f, ⟨calls, []⟩⟩
    | some set =>
      let (granted, fill) := Filling.begin grants conv calls
      if !granted then ⟨.inputFail, f, fill.drop⟩
      else narrowEnd conv (narrowLoop uflow grants conv.long set fuel 0 fill f)

/-- The functions that `__vfwscanf` reads with: `__fgetwc_unlocked`, `__ungetwc` and `iswspace`. -/
structure WideInput (W : Type) where
  fgetwc : Streambuf W → BitVec 32 × Streambuf W
  ungetwc : BitVec 32 → Streambuf W → Streambuf W
  iswspace : BitVec 32 → Bool

def Streambuf.freading (s : Streambuf W) : Bool := s.noWr || !(s.noRd || s.curWr) && s.egptr ≠ 0

def ungetwc (virt : Jumptable W) (c : BitVec 32) (s : Streambuf W) : BitVec 32 × Streambuf W :=
  let (failed, s) := if s.freading then (0, s) else s.toread virt.write
  if failed ≠ 0 then (weof, s)
  else if c = weof ∨ (wc2mb c).1 = ilseqValue then (weof, s)
  else
    let s :=
      if c < 128#32 then (ungetc virt c.toNat s).2
      else (wc2mb c).2.reverse.foldl (fun s b => (ungetc virt b.toNat s).2) s
    (c, { s with eof := false })

/-- The functions of the library. `__fgetwc_unlocked` reads at most four bytes. -/
def streamInput (virt : Jumptable W) (uflow : Streambuf W → Int × Streambuf W) (junk : BitVec 32)
    (iswspace : BitVec 32 → Bool)
    : WideInput W where
  fgetwc s := (fgetwcUnlocked virt uflow junk 4 s).getD (weof, s)
  ungetwc c s := (ungetwc virt c s).2
  iswspace := iswspace

/-- The macro `getwc` of `wscanf.c`. -/
def WideInput.getwc (input : WideInput W) (s : Streambuf W) : BitVec 32 × Streambuf W :=
  if s.gptr ≠ s.egptr ∧ s.memory s.gptr < 128 then
    (toUnsigned (s.memory s.gptr), { s with gptr := s.gptr + 1 })
  else input.fgetwc s

/-- The macro `ungetwc`. -/
def WideInput.unget (input : WideInput W) (c : BitVec 32) (s : Streambuf W) : Streambuf W :=
  if s.egptr ≠ 0 ∧ c < 128#32 then { s with gptr := s.gptr - 1 } else input.ungetwc c s

/-- The loop of `in_set` from a character on, behind `prev`. -/
def inSetLoop (c : BitVec 32) : BitVec 32 → List (BitVec 32) → Bool
  | prev, x :: y :: rest =>
    if x = 0 ∨ x = 93 then false
    else if x = 45 ∧ y ≠ 0 ∧ y ≠ 93 then
      (prev.sle c && c.slt y) || c = y || inSetLoop c y rest
    else c = x || inSetLoop c x (y :: rest)
  | _, [x] => x ≠ 0 && x ≠ 93 && c = x
  | _, [] => false

def inSet (set : List (BitVec 32)) (c : BitVec 32) : Bool :=
  match set with
  | 45 :: rest => c = 45 || inSetLoop c 45 rest
  | 93 :: rest => c = 93 || inSetLoop c 93 rest
  | set => inSetLoop c 0 set

/-- `spaces` -/
def wideSpaces : List (BitVec 32) :=
  [32, 9, 10, 13, 11, 12, 0x85, 0x2000, 0x2001, 0x2002, 0x2003, 0x2004, 0x2005, 0x2006, 0x2008, 0x2009,
    0x200A, 0x2028, 0x2029, 0x205F, 0x3000]

/-- `invert` and `set`, if the bracket is closed. -/
def wideSet : ScanKind (BitVec 32) → Option (Bool × List (BitVec 32))
  | .c => some (true, [])
  | .s => some (true, wideSpaces)
  | .set text =>
    let (invert, set) := match text with
      | 94 :: rest => (true, rest)
      | text => (false, text)
    let behind := match set with
      | 93 :: rest => rest
      | set => set
    if (behind.takeWhile fun x => x ≠ 0).contains 93 then some (invert, set) else none

/-- What `i` grows by and the bytes stored for a character; `wctomb` may fail. -/
def wideEncode (long : Bool) (c : BitVec 32) : Option (Nat × List UInt8) :=
  if long then some (1, wcharBytes c) else if (wc2mb c).1 = ilseqValue then none else some (wc2mb c)

/-- The test for a larger block. Bytes must have room for a character, and `k-4` may wrap around. -/
def wideFull (long : Bool) (i k : Nat) : Bool :=
  if long then i = k else i > (k + (2 ^ 64 - 4)) % 2 ^ 64

/-- The loop of `__vfwscanf`, which stops at the width or with a character and `gotmatch`. -/
def wideLoop (input : WideInput W) (grants : Nat → Bool) (long : Bool) (keep : BitVec 32 → Bool)
    : Nat → Option Nat → Bool → Filling → Streambuf W
      → LoopEnd (Option (BitVec 32 × Bool)) × Filling × Streambuf W
  | 0, _, _, fill, s => (.running, fill, s)
  | fuel + 1, width, got, fill, s =>
    if width = some 0 then (.ended none, fill, s)
    else
      let (c, s) := input.getwc s
      if c.toInt < 0 ∨ !keep c then (.ended (some (c, got)), fill, s)
      else
        match wideEncode long c with
        | none => (.failed, fill, s)
        | some (l, bytes) =>
          match fill.put grants (if long then 4 else 1) (wideFull long) l bytes with
          | (true, fill) =>
            wideLoop input grants long keep fuel (width.map fun n => n - 1) true fill s
          | (false, fill) => (.failed, fill, s)

/-- `while (iswspace((c=getwc(f))));` -/
def wideSkip (input : WideInput W) : Nat → Streambuf W → Option (BitVec 32 × Streambuf W)
  | 0, _ => none
  | fuel + 1, s =>
    let (c, s) := input.getwc s
    if input.iswspace c then wideSkip input fuel s else some (c, s)

/-- `width` before the loop, `none` for -1. -/
def ScanConversion.limit (conv : ScanConversion (BitVec 32)) : Option Nat :=
  if conv.kind.isChar then some conv.charWidth else if conv.width = 0 then none else some conv.width

/-- The character before the loop: white space is skipped for `%s`. -/
def wideFirst (input : WideInput W) (fuel : Nat) (conv : ScanConversion (BitVec 32)) (s : Streambuf W)
    : Option (BitVec 32 × Streambuf W) :=
  match conv.kind with
  | .s => wideSkip input fuel s
  | _ => some (input.getwc s)

def wideEnd (input : WideInput W) (conv : ScanConversion (BitVec 32))
    : LoopEnd (Option (BitVec 32 × Bool)) × Filling × Streambuf W → Converted (Streambuf W)
  | (.running, fill, s) => ⟨.running, s, fill.heap⟩
  | (.failed, fill, s) => ⟨.inputFail, s, fill.drop⟩
  | (.ended none, fill, s) => ⟨.converted, s, fill.finish conv⟩
  | (.ended (some (c, got)), fill, s) =>
    if conv.kind.isChar ∨ !got then ⟨.matchFail, input.unget c s, fill.drop⟩
    else ⟨.converted, input.unget c s, fill.finish conv⟩

/-- A conversion of `__vfwscanf`. -/
def wideConversion (input : WideInput W) (grants : Nat → Bool) (fuel : Nat)
    (conv : ScanConversion (BitVec 32)) (s : Streambuf W) (calls : Nat)
    : Converted (Streambuf W) :=
  match wideFirst input fuel conv s with
  | none => ⟨.running, s, ⟨calls, []⟩⟩
  | some (c, s) =>
    if c.toInt < 0 then ⟨.inputFail, s, ⟨calls, []⟩⟩
    else
      let s := input.unget c s
      match wideSet conv.kind with
      | none => ⟨.inputFail, s, ⟨calls, []⟩⟩
      | some (invert, set) =>
        let (granted, fill) := Filling.begin grants conv calls
        if !granted then ⟨.inputFail, s, fill.drop⟩
        else
          wideEnd input conv
            (wideLoop input grants conv.long (fun c => inSet set c != invert) fuel conv.limit false
              fill s)

/-- The result of a call, `none` while it runs, and what it did with its blocks. -/
structure ScanResult where
  ret : Option Int
  events : List (BlockEvent UInt8)

/-- A call from `matches` conversions on. A conversion that assigns is counted. -/
def scanAll {S : Type} (convert : ScanConversion α → S → Nat → Converted S)
    : List (ScanConversion α) → Nat → S → Nat → ScanResult
  | [], matched, _, _ => ⟨some matched, []⟩
  | conv :: rest, matched, input, calls =>
    let r := convert conv input calls
    match r.verdict with
    | .running => ⟨none, r.heap.events⟩
    | .matchFail => ⟨some matched, r.heap.events⟩
    | .inputFail => ⟨some (if matched = 0 then -1 else matched), r.heap.events⟩
    | .converted =>
      if conv.assigns then
        let later := scanAll convert rest (matched + 1) r.input r.heap.calls
        ⟨later.ret, r.heap.events ++ .count :: later.events⟩
      else
        let later := scanAll convert rest matched r.input r.heap.calls
        ⟨later.ret, r.heap.events ++ later.events⟩

/-- `__vfscanf` of a format of such conversions. -/
def vfscanfBlocks (uflow : Streambuf W → Int × Streambuf W) (grants : Nat → Bool) (fuel : Nat)
    (conversions : List (ScanConversion UInt8)) (f : Scanbuf W)
    : ScanResult :=
  scanAll (narrowConversion uflow grants fuel) conversions 0 f 0

/-- `__vfwscanf` of a format of such conversions. -/
def vfwscanfBlocks (input : WideInput W) (grants : Nat → Bool) (fuel : Nat)
    (conversions : List (ScanConversion (BitVec 32))) (s : Streambuf W)
    : ScanResult :=
  scanAll (wideConversion input grants fuel) conversions 0 s 0

end Nglibc.Stdio
