import Nglibc.Stdio.Streambuf

/-! Input through the get area of a stream. -/

namespace Nglibc.Stdio

variable {W : Type}

/-- `__uflowx`. The byte goes through a plain `char`. -/
def uflowx (virt : Jumptable W) (s : Streambuf W) : Int × Streambuf W :=
  let (failed, s) := s.toread virt.write
  if failed ≠ 0 then (eofValue, s)
  else
    let (n, bytes, s) := virt.read s 1
    if n = 1 then (plainChar (bytes.headD 0), s) else (eofValue, s)

def getcUnlocked (virt : Jumptable W) (s : Streambuf W) : Int × Streambuf W :=
  if s.gptr ≠ s.egptr then ((s.memory s.gptr).toNat, { s with gptr := s.gptr + 1 })
  else uflowx virt s

/-- The loop of `__fread_unlocked` that reads directly. `l` bytes are missing, `dest` holds
what was stored so far and the next byte goes to the offset `place`. A negative result of
`read` is converted to `size_t`; then the loop need not end. Only `place` wraps, as `dest` does: the
bytes of one call go to offsets without wrapping.
-/
def freadLoop (virt : Jumptable W) (size nmemb len : Nat)
    : Nat → Nat → Nat → Memory UInt8 → Streambuf W → Option (Nat × Memory UInt8 × Streambuf W)
  | 0, _, _, _, _ => none
  | _ + 1, 0, _, dest, s => some (nmemb, dest, s)
  | fuel + 1, l + 1, place, dest, s =>
    let (failed, s) := s.toread virt.write
    let (k, bytes, s) := if failed ≠ 0 then (0, [], s) else virt.read s (l + 1)
    if toSizeT k = 0 then some (toSizeT (len - (l + 1)) / size, dest, s)
    else
      freadLoop virt size nmemb len fuel (toSizeT (l + 1 - toSizeT k))
        ((place + toSizeT k) % 2 ^ 64) (dest.store place bytes) s

/-- `__fread_unlocked`: the number of items, the bytes stored at its buffer argument and the
stream.
-/
def freadUnlocked (virt : Jumptable W) (fuel : Nat) (dest : Memory UInt8) (size nmemb : Nat)
    (s : Streambuf W)
    : Option (Nat × Memory UInt8 × Streambuf W) :=
  let len := size * nmemb % 2 ^ 64
  let nmemb := if size = 0 then 0 else nmemb
  -- first exhaust the buffer
  let k := min (s.egptr - s.gptr) len
  freadLoop virt size nmemb len fuel (len - k) k
    (dest.store 0 (s.memory.slice s.gptr k)) { s with gptr := s.gptr + k }

/-- The bytes up to the first `delim` in the get area, or all of them, and whether there is
one.
-/
def Streambuf.upTo (s : Streambuf W) (delim : UInt8) : Nat × Bool :=
  match s.unread.idxOf? delim with
  | some i => (i + 1, true)
  | none => (s.unread.length, false)

/-- The arguments `*s` and `*n` of `__getdelim`: whether `*s` is null, the bytes it points to
and its size.
-/
structure Line where
  null : Bool
  block : Memory UInt8
  size : Nat

structure GetdelimResult (W : Type) where
  ret : Int
  errno : Option Errno
  line : Line
  stream : Streambuf W

/-- The size that `__getdelim` asks for first. -/
def getdelimGrow (i k : Nat) (found : Bool) : Nat :=
  let m := i + k + 2
  if !found ∧ m < (2 ^ 64 - 1) / 4 then m + m / 2 else m

/-- The loop of `__getdelim` with `i` bytes stored. `realloc n` says whether the `n`-th call
succeeds, and `calls` counts them.
-/
def getdelimLoop (virt : Jumptable W) (realloc : Nat → Bool) (delim : Int)
    : Nat → Nat → Nat → Line → Streambuf W → Option (GetdelimResult W)
  | 0, _, _, _, _ => none
  | fuel + 1, i, calls, line, s =>
    let (k, found) := s.upTo (UInt8.ofInt delim)
    let grown : Option (Line × Nat) :=
      if i + k ≥ line.size then
        if realloc calls then
          some ({ line with null := false, size := getdelimGrow i k found }, calls + 1)
        else if realloc (calls + 1) then
          some ({ line with null := false, size := i + k + 2 }, calls + 2)
        else none
      else some (line, calls)
    match grown with
    | none =>
      -- what fits is copied, so that no pushback remains in the buffer
      let k := line.size - i
      some {
        ret := -1
        errno := some .enomem
        line := { line with block := line.block.store i (s.memory.slice s.gptr k) }
        stream := { s with gptr := s.gptr + k, err := true } }
    | some (line, calls) =>
      let line := { line with block := line.block.store i (s.memory.slice s.gptr k) }
      let s := { s with gptr := s.gptr + k }
      let i := i + k
      let finish (i : Nat) (line : Line) (s : Streambuf W) : GetdelimResult W :=
        { ret := i
          errno := none
          line := { line with block := line.block.store i [0] }
          stream := s }
      if found then some (finish i line s)
      else
        let (c, s) := getcUnlocked virt s
        if c = eofValue then
          if i = 0 ∨ !s.eof then
            some { ret := -1, errno := none, line := line, stream := s }
          else some (finish i line s)
        else if i + 1 ≥ line.size then
          getdelimLoop virt realloc delim fuel i calls line
            { s with
              gptr := s.gptr - 1
              memory := s.memory.store (s.gptr - 1) [UInt8.ofInt c] }
        else
          let line := { line with block := line.block.store i [UInt8.ofInt c] }
          if plainChar (UInt8.ofInt c) = delim then some (finish (i + 1) line s)
          else getdelimLoop virt realloc delim fuel (i + 1) calls line s

/-- `__getdelim`; `line` is `none` if one of its pointer arguments is null. -/
def getdelim (virt : Jumptable W) (realloc : Nat → Bool) (fuel : Nat) (line : Option Line)
    (delim : Int) (s : Streambuf W)
    : Option (GetdelimResult W) :=
  match line with
  | none =>
    some {
      ret := -1
      errno := some .einval
      line := { null := true, block := fun _ => 0, size := 0 }
      stream := { s with err := true } }
  | some line =>
    getdelimLoop virt realloc delim fuel 0 0
      { line with size := if line.null then 0 else line.size } s

def ungetc (virt : Jumptable W) (c : Int) (s : Streambuf W) : Int × Streambuf W :=
  if c = eofValue then (c, s)
  else
    let s := if s.curWr then (s.toread virt.write).2 else s
    if s.gptr = 0 ∨ s.gptr ≤ s.buf - unget then (eofValue, s)
    else
      ((UInt8.ofInt c).toNat, { s with
          gptr := s.gptr - 1
          memory := s.memory.store (s.gptr - 1) [UInt8.ofInt c]
          eof := false })

end Nglibc.Stdio
