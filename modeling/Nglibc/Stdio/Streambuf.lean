import Mathlib.Algebra.Group.Nat.Defs
import Mathlib.Algebra.Group.Int.Defs
import Nglibc.Lib.Memory

/-! The stream buffer behind a `FILE` and the functions that switch it between reading and
writing. Addresses are numbers with `NULL` as 0, the flags word is never `0xFBADxxxx`, and
plain `char` is signed.
-/

namespace Nglibc.Stdio

/-- A `streambuf` without its lock and its list links. The first fields are the bits of
`flags` that the functions below test, `memory` is the memory its pointers point into and
`cookie` what stands behind the stream.
-/
structure Streambuf (W : Type) where
  noRd : Bool
  noWr : Bool
  eof : Bool
  err : Bool
  lbf : Bool
  curWr : Bool
  app : Bool
  gptr : Nat
  egptr : Nat
  pbase : Nat
  pptr : Nat
  epptr : Nat
  buf : Nat
  bufend : Nat
  memory : Memory UInt8
  cookie : W

/-- `virt->write`: the bytes of its buffer argument, and the result. -/
abbrev WriteFn (W : Type) := Streambuf W → List UInt8 → Int × Streambuf W

inductive Whence where
  | seekSet
  | seekCur
  | seekEnd
  deriving DecidableEq

/-- The functions of a `cookie_io_functions_t`. A read returns its result and the bytes it
stores from the start of its buffer argument, a seek its result and the new offset.
-/
structure Jumptable (W : Type) where
  read : Streambuf W → Nat → Int × List UInt8 × Streambuf W
  write : WriteFn W
  seek : Streambuf W → Int → Whence → Int × Int × Streambuf W

inductive Errno where
  | einval
  | enomem
  | eoverflow
  | eilseq
  deriving DecidableEq

/-- `EOF`. -/
def eofValue : Int := -1

def weof : BitVec 32 := -1

def newline : UInt8 := 10

/-- `UNGET`, the bytes before `buf` that may be used for pushback. -/
def unget : Nat := 8

/-- A byte read as a plain `char` and converted to `int`. -/
def plainChar (b : UInt8) : Int :=
  if b.toNat < 128 then b.toNat else b.toNat - 256

/-- A conversion to `size_t`. -/
def toSizeT (n : Int) : Nat := (n % 2 ^ 64).toNat

/-- A conversion to `int`. -/
def toInt (n : Int) : Int := Int.bmod n (2 ^ 32)

theorem plainChar_ascii {b : UInt8} (ascii : b.toNat < 128) : plainChar b = b.toNat := by
  simp [plainChar, ascii]

theorem toSizeT_natCast {n : Nat} (small : n < 2 ^ 64) : toSizeT n = n := by
  unfold toSizeT
  omega

@[simp] theorem ofInt_toNat (b : UInt8) : UInt8.ofInt (b.toNat : Int) = b := by
  have bound := b.toNat_lt
  have same : ((b.toNat : Int) % 2 ^ 8).toNat = b.toNat := by omega
  rw [UInt8.ofInt, same, UInt8.ofNat_toNat]

theorem plainChar_ofInt (b : UInt8) : UInt8.ofInt (plainChar b) = b := by
  have bound := b.toNat_lt
  have same : (plainChar b % 2 ^ 8).toNat = b.toNat := by
    unfold plainChar
    split <;> omega
  rw [UInt8.ofInt, same, UInt8.ofNat_toNat]

namespace Streambuf

variable {W : Type}

/-- A zeroed stream after `__finit(f, iof, cookie, buf, n)`, with some of the flags set. -/
def finit (noRd noWr lbf app : Bool) (memory : Memory UInt8) (cookie : W) (buf n : Nat)
    : Streambuf W where
  noRd := noRd
  noWr := noWr
  eof := false
  err := false
  lbf := lbf
  curWr := false
  app := app
  gptr := 0
  egptr := 0
  pbase := 0
  pptr := 0
  epptr := 0
  buf := buf
  bufend := buf + n
  memory := memory
  cookie := cookie

def fsetwrite (s : Streambuf W) : Streambuf W :=
  { s with pptr := s.buf, pbase := s.buf, epptr := s.bufend }

def fseterror (s : Streambuf W) : Streambuf W :=
  { s with pptr := 0, pbase := 0, epptr := 0, curWr := false, err := true }

def fpending (s : Streambuf W) : Nat :=
  if s.epptr ≠ 0 then s.pptr - s.pbase else 0

def freadahead (s : Streambuf W) : Nat :=
  if s.egptr ≠ 0 then s.egptr - s.gptr else 0

/-- `__setg`, whose `eback` no function here reads. -/
def setg (s : Streambuf W) (gptr egptr : Nat) : Streambuf W :=
  { s with gptr := gptr, egptr := egptr }

def fpurge (s : Streambuf W) : Streambuf W :=
  { s with pptr := 0, pbase := 0, epptr := 0, gptr := 0, egptr := 0, curWr := false }

/-- `__towrite`. `F_CURWR` is set before `F_NOWR` is tested. -/
def towrite (s : Streambuf W) : Int × Streambuf W :=
  if s.curWr then (0, s)
  else if s.noWr then (eofValue, { s with curWr := true, err := true })
  else (0, fsetwrite { s with curWr := true, gptr := 0, egptr := 0 })

def toread (write : WriteFn W) (s : Streambuf W) : Int × Streambuf W :=
  let flushed := if s.pptr ≠ s.pbase then (write s []).2 else s
  let s := { flushed with pptr := 0, pbase := 0, epptr := 0, curWr := false }
  if s.noRd then (eofValue, { s with err := true })
  else (if s.eof then eofValue else 0, { s with gptr := s.bufend, egptr := s.bufend })

/-- The bytes in the put area that were not written out yet. -/
def pending (s : Streambuf W) : List UInt8 := s.memory.slice s.pbase s.fpending

/-- The bytes in the get area that were not read yet. -/
def unread (s : Streambuf W) : List UInt8 := s.memory.slice s.gptr (s.egptr - s.gptr)

theorem drop_unread (s : Streambuf W) (k : Nat)
    : s.unread.drop k = unread { s with gptr := s.gptr + k } := by
  unfold unread
  by_cases le : k ≤ s.egptr - s.gptr
  · rw [Memory.drop_slice le, Nat.sub_sub]
  · rw [List.drop_eq_nil_of_le (by rw [Memory.length_slice]; omega)]
    rw [show s.egptr - (s.gptr + k) = 0 by omega, Memory.slice_zero]

end Streambuf

/-! Flushing and positioning of a stream. -/

variable {W : Type}

/-- `__fflushx`, the body of `__fflush` on one stream. -/
def fflushx (virt : Jumptable W) (s : Streambuf W) : Int × Streambuf W :=
  let flushed := s.fpending ≠ 0
  let s := if flushed then (virt.write s []).2 else s
  if flushed ∧ s.pptr = 0 then (eofValue, s)
  else
    -- the result of the seek is not looked at
    let s := if s.freadahead ≠ 0 then (virt.seek s (-s.freadahead) .seekCur).2.2 else s
    (0, s.fpurge)

theorem fflushx_pending (virt : Jumptable W) {s t : Streambuf W} {n : Int}
    (some_ : s.fpending ≠ 0) (result : virt.write s [] = (n, t))
    : fflushx virt s = if t.pptr = 0 then (eofValue, t)
        else
          (0, (if t.freadahead ≠ 0 then
            (virt.seek t (-t.freadahead) .seekCur).2.2 else t).fpurge) := by
  simp only [fflushx, result, some_, ne_eq, not_false_eq_true, true_and, if_true]

/-- `__fseeko_unlocked`; `whence` is `none` for an invalid argument, which sets `errno` to
`EINVAL`.
-/
def fseekoUnlocked (virt : Jumptable W) (off : Int) (whence : Option Whence) (s : Streambuf W)
    : Int × Streambuf W :=
  match whence with
  | none => (-1, s)
  | some whence =>
    let off :=
      if whence = .seekCur ∧ s.egptr ≠ 0 then off - ((s.egptr : Int) - s.gptr) else off
    let flushed := s.pptr ≠ s.pbase
    let s := if flushed then (virt.write s []).2 else s
    if flushed ∧ s.pptr = 0 then (-1, s)
    else
      let (ret, _, s) := virt.seek { s with pptr := 0, pbase := 0, epptr := 0 } off whence
      if ret < 0 then (-1, s)
      else (0, { s with gptr := 0, egptr := 0, eof := false })

def ftelloUnlocked (virt : Jumptable W) (s : Streambuf W) : Int × Streambuf W :=
  let whence := if s.app ∧ s.pptr ≠ s.pbase then .seekEnd else .seekCur
  let (ret, pos, s) := virt.seek s 0 whence
  if ret < 0 then (ret, s)
  else if s.egptr ≠ 0 then (pos + ((s.gptr : Int) - s.egptr), s)
  else if s.pbase ≠ 0 then (pos + ((s.pptr : Int) - s.pbase), s)
  else (pos, s)

end Nglibc.Stdio
