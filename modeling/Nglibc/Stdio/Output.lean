import Nglibc.Stdio.Streambuf

/-! Output through the put area of a stream, and the writer of streams on descriptors. -/

namespace Nglibc.Stdio

variable {W : Type}

def lineEnd (bytes : List UInt8) : Nat :=
  bytes.length - (bytes.reverse.takeWhile (fun b => b ≠ newline)).length

theorem lineEnd_le (bytes : List UInt8) : lineEnd bytes ≤ bytes.length := Nat.sub_le _ _

/-- `memcpy` behind `pptr`. -/
def Streambuf.append (s : Streambuf W) (bytes : List UInt8) : Streambuf W :=
  { s with memory := s.memory.store s.pptr bytes, pptr := s.pptr + bytes.length }

/-- `__fwritex`, where `write` is `virt->write` and may be null. -/
def fwritex (write : Option (WriteFn W)) (bytes : List UInt8) (s : Streambuf W)
    : Nat × Streambuf W :=
  let (failed, s) := s.towrite
  if failed ≠ 0 then (0, s)
  else
    match write with
    | none =>
      -- output to memory is truncated, but reported as a success
      (bytes.length, s.append (bytes.take (s.epptr - s.pptr)))
    | some write =>
      if bytes.length > s.epptr - s.pptr then
        let (n, s) := write s bytes
        (toSizeT n, s)
      else
        let i := lineEnd bytes
        if s.lbf ∧ i ≠ 0 then
          let (n, s) := write s (bytes.take i)
          if toSizeT n < i then (toSizeT n, s)
          else (bytes.length, s.append (bytes.drop i))
        else (bytes.length, s.append bytes)

/-- `_IO_fwrite` of `nmemb` items, whose bytes are `src`. -/
def fwrite (write : WriteFn W) (src : List UInt8) (size nmemb : Nat) (s : Streambuf W)
    : Nat × Streambuf W :=
  let l := size * nmemb % 2 ^ 64
  let (k, s) := fwritex (some write) (src.take l) s
  (if k = l then (if size ≠ 0 then nmemb else 0) else k / size, s)

/-- `_IO_fputs` of the bytes before the terminator. -/
def fputs (write : WriteFn W) (bytes : List UInt8) (s : Streambuf W) : Int × Streambuf W :=
  let (k, s) := fwrite write bytes 1 bytes.length s
  ((if k = bytes.length then 1 else 0) - 1, s)

/-- `__overflowx`. A byte stored in the buffer is returned as a plain `char`. -/
def overflowx (write : WriteFn W) (ch : Int) (s : Streambuf W) : Int × Streambuf W :=
  let c : UInt8 := UInt8.ofInt ch
  let (failed, s) := if s.epptr = 0 then s.towrite else (0, s)
  if failed ≠ 0 then (eofValue, s)
  else if s.epptr ≠ s.pptr ∧ c ≠ newline ∧ s.lbf then (plainChar c, s.append [c])
  else
    let (n, s) := write s [c]
    if n ≠ 1 then (eofValue, s) else (c.toNat, s)

/-- `putc_unlocked`, the body of `_IO_putc`. -/
def putc (write : WriteFn W) (c : Int) (s : Streambuf W) : Int × Streambuf W :=
  if c ≠ newline.toNat ∧ s.pptr ≠ s.epptr then
    (plainChar (UInt8.ofInt c), s.append [UInt8.ofInt c])
  else overflowx write (UInt8.ofInt c).toNat s

def padSize : Nat := 16

/-- The loop of `_IO_padn` over whole blocks of padding, and what follows it for the
`rest`, with the number of bytes written so far.
-/
def padnLoop (write : WriteFn W) (pad : UInt8) (rest : Nat)
    : Nat → Nat → Streambuf W → Nat × Streambuf W
  | blocks + 1, written, s =>
    let (w, s) := fwrite write (List.replicate padSize pad) 1 padSize s
    if w ≠ padSize then (written + w, s) else padnLoop write pad rest blocks (written + w) s
  | 0, written, s =>
    if 0 < rest then
      let (w, s) := fwrite write (List.replicate rest pad) 1 rest s
      (written + w, s)
    else (written, s)

/-- `_IO_padn`, whose counter is an `int`. -/
def padn (write : WriteFn W) (pad count : Int) (s : Streambuf W) : Nat × Streambuf W :=
  let i := (toInt count).toNat
  padnLoop write (UInt8.ofInt pad) (i % padSize) (i / padSize) 0 s

/-- A file descriptor: the bytes it has accepted and the number of `writev` calls so far. -/
structure Descriptor where
  accepted : List UInt8
  calls : Nat

/-- The loop of `__stdio_write`, with the rest of the first vector and the second one while
`iovcnt` is 2. The `n`-th `writev` call fails if `writev n` is `none`, and accepts at most
`k + 1` bytes if it is `some k`. It accepts at least one byte, so `fuel` is not used up.
-/
def stdioWriteLoop (writev : Nat → Option Nat) (len : Nat)
    : Nat → List UInt8 → Option (List UInt8) → Streambuf Descriptor → Int × Streambuf Descriptor
  | 0, _, _, s => (0, s)
  | fuel + 1, iov0, iov1, s =>
    let all := iov0 ++ iov1.getD []
    let called := { s.cookie with calls := s.cookie.calls + 1 }
    match writev s.cookie.calls with
    | none =>
      (if iov1.isSome then 0 else len - iov0.length,
        Streambuf.fseterror { s with cookie := called })
    | some k =>
      let cnt := min (k + 1) all.length
      let s := { s with
        cookie := { called with accepted := called.accepted ++ all.take cnt } }
      if cnt = all.length then (len, s.fsetwrite)
      else
        match iov1 with
        | some second =>
          if cnt > iov0.length then
            stdioWriteLoop writev len fuel (second.drop (cnt - iov0.length)) none s
          else stdioWriteLoop writev len fuel (iov0.drop cnt) iov1 s
        | none => stdioWriteLoop writev len fuel (iov0.drop cnt) none s

def stdioWrite (writev : Nat → Option Nat) : WriteFn Descriptor := fun s bytes =>
  stdioWriteLoop writev bytes.length (s.pending.length + bytes.length + 1) s.pending (some bytes) s

end Nglibc.Stdio
