import Nglibc.Stdio.Streambuf

/-! The reading of formats by `printf_core` and `wprintf_core`, which have the same text there:
flags, width, precision, the state machine of length modifiers and conversions, and the
arguments. A format is the list of its code units, bytes or wide characters, without the
terminator.
-/

namespace Nglibc.Stdio

def intMax : Int := 2 ^ 31 - 1

def argMax : Nat := 32

/-- The modifier flags, which are bits of an `unsigned` in the source. -/
structure Flags where
  alt : Bool
  zero : Bool
  left : Bool
  padPos : Bool
  markPos : Bool
  grouped : Bool
  deriving DecidableEq

def Flags.none : Flags := ⟨false, false, false, false, false, false⟩

def Flags.set (fl : Flags) (u : Nat) : Option Flags :=
  if u = '#'.toNat then some { fl with alt := true }
  else if u = '0'.toNat then some { fl with zero := true }
  else if u = '-'.toNat then some { fl with left := true }
  else if u = ' '.toNat then some { fl with padPos := true }
  else if u = '+'.toNat then some { fl with markPos := true }
  else if u = 39 then some { fl with grouped := true }
  else .none

/-- The states of the machine that stand for length modifiers. -/
inductive Pre where
  | bare
  | l
  | ll
  | h
  | hh
  | bigL
  | zt
  | j
  deriving DecidableEq

/-- The states that stand for the type of the argument to pop. -/
inductive ArgType where
  | ptr
  | int
  | uint
  | ullong
  | long
  | ulong
  | short
  | ushort
  | char
  | uchar
  | llong
  | sizet
  | imax
  | umax
  | pdiff
  | uiptr
  | dbl
  | ldbl
  | noarg
  deriving DecidableEq

/-- The table `states`. -/
def states (st : Pre) (u : Char) : Option (Pre ⊕ ArgType) :=
  match st, u with
  | .bare, 'd' | .bare, 'i' => some (.inr .int)
  | .bare, 'o' | .bare, 'u' | .bare, 'x' | .bare, 'X' => some (.inr .uint)
  | .bare, 'e' | .bare, 'f' | .bare, 'g' | .bare, 'a' => some (.inr .dbl)
  | .bare, 'E' | .bare, 'F' | .bare, 'G' | .bare, 'A' => some (.inr .dbl)
  | .bare, 'c' => some (.inr .char)
  | .bare, 'C' => some (.inr .int)
  | .bare, 's' | .bare, 'S' | .bare, 'n' => some (.inr .ptr)
  | .bare, 'p' => some (.inr .uiptr)
  | .bare, 'm' => some (.inr .noarg)
  | .bare, 'l' => some (.inl .l)
  | .bare, 'h' => some (.inl .h)
  | .bare, 'L' => some (.inl .bigL)
  | .bare, 'z' | .bare, 't' => some (.inl .zt)
  | .bare, 'j' => some (.inl .j)
  | .l, 'd' | .l, 'i' => some (.inr .long)
  | .l, 'o' | .l, 'u' | .l, 'x' | .l, 'X' => some (.inr .ulong)
  | .l, 'e' | .l, 'f' | .l, 'g' | .l, 'a' => some (.inr .dbl)
  | .l, 'E' | .l, 'F' | .l, 'G' | .l, 'A' => some (.inr .dbl)
  | .l, 'c' => some (.inr .int)
  | .l, 's' | .l, 'n' => some (.inr .ptr)
  | .l, 'l' => some (.inl .ll)
  | .ll, 'd' | .ll, 'i' => some (.inr .llong)
  | .ll, 'o' | .ll, 'u' | .ll, 'x' | .ll, 'X' => some (.inr .ullong)
  | .ll, 'n' => some (.inr .ptr)
  | .h, 'd' | .h, 'i' => some (.inr .short)
  | .h, 'o' | .h, 'u' | .h, 'x' | .h, 'X' => some (.inr .ushort)
  | .h, 'n' => some (.inr .ptr)
  | .h, 'h' => some (.inl .hh)
  | .hh, 'd' | .hh, 'i' => some (.inr .char)
  | .hh, 'o' | .hh, 'u' | .hh, 'x' | .hh, 'X' => some (.inr .uchar)
  | .hh, 'n' => some (.inr .ptr)
  | .bigL, 'e' | .bigL, 'f' | .bigL, 'g' | .bigL, 'a' => some (.inr .ldbl)
  | .bigL, 'E' | .bigL, 'F' | .bigL, 'G' | .bigL, 'A' => some (.inr .ldbl)
  | .bigL, 'n' => some (.inr .ptr)
  | .zt, 'd' | .zt, 'i' => some (.inr .pdiff)
  | .zt, 'o' | .zt, 'u' | .zt, 'x' | .zt, 'X' => some (.inr .sizet)
  | .zt, 'n' => some (.inr .ptr)
  | .j, 'd' | .j, 'i' => some (.inr .imax)
  | .j, 'o' | .j, 'u' | .j, 'x' | .j, 'X' => some (.inr .umax)
  | .j, 'n' => some (.inr .ptr)
  | _, _ => none

/-- What a pointer argument points to: nothing that is read, the bytes of a string before its
terminator, or the characters of a wide string before its terminator.
-/
inductive Target where
  | other
  | bytes (b : List UInt8)
  | wide (w : List (BitVec 32))
  deriving DecidableEq

structure Pointer where
  addr : BitVec 64
  target : Target
  null : addr = 0 → target = .other
  deriving DecidableEq

/-- A variable argument: an `int`, a type of 64 bits, a pointer, or a floating point number,
whose type is `F`.
-/
inductive Va (F : Type) where
  | int (n : BitVec 32)
  | word (n : BitVec 64)
  | ptr (p : Pointer)
  | dbl (x : F)
  | ldbl (x : F)

/-- `union arg`; the member `i` of a pointer is its address. -/
inductive Arg (F : Type) where
  | i (n : BitVec 64)
  | f (x : F)
  | p (p : Pointer)

variable {F : Type}

/-- `pop_arg`; an argument of another type is undefined behaviour. -/
def popArg : ArgType → List (Va F) → Option (Arg F × List (Va F))
  | .ptr, .ptr p :: ap => some (.p p, ap)
  | .int, .int n :: ap => some (.i (n.signExtend 64), ap)
  | .uint, .int n :: ap => some (.i (n.zeroExtend 64), ap)
  | .long, .word n :: ap => some (.i n, ap)
  | .ulong, .word n :: ap => some (.i n, ap)
  | .ullong, .word n :: ap => some (.i n, ap)
  | .short, .int n :: ap => some (.i ((n.setWidth 16).signExtend 64), ap)
  | .ushort, .int n :: ap => some (.i ((n.setWidth 16).zeroExtend 64), ap)
  | .char, .int n :: ap => some (.i ((n.setWidth 8).signExtend 64), ap)
  | .uchar, .int n :: ap => some (.i ((n.setWidth 8).zeroExtend 64), ap)
  | .llong, .word n :: ap => some (.i n, ap)
  | .sizet, .word n :: ap => some (.i n, ap)
  | .imax, .word n :: ap => some (.i n, ap)
  | .umax, .word n :: ap => some (.i n, ap)
  | .pdiff, .word n :: ap => some (.i n, ap)
  | .uiptr, .ptr p :: ap => some (.p p, ap)
  | .dbl, .dbl x :: ap => some (.f x, ap)
  | .ldbl, .ldbl x :: ap => some (.f x, ap)
  | _, _ => none

/-- The result -1 with its `errno`, or undefined behaviour. -/
inductive Fault where
  | errno (e : Errno)
  | undefined
  deriving DecidableEq

/-- `l10n`, the table of the numbered arguments and the arguments left. -/
structure Core (F : Type) where
  l10n : Bool
  nlType : Nat → Option ArgType
  nlArg : Nat → Option (Arg F)
  ap : List (Va F)

def Core.setType (c : Core F) (k : Nat) (type : ArgType) : Core F :=
  { c with nlType := fun i => if i = k then some type else c.nlType i }

def Core.setArg (c : Core F) (k : Nat) (arg : Arg F) : Core F :=
  { c with nlArg := fun i => if i = k then some arg else c.nlArg i }

def isdigit (u : Nat) : Bool := '0'.toNat ≤ u ∧ u ≤ '9'.toNat

/-- `getint` with the number so far. -/
def getint : Int → List Nat → Int × List Nat
  | i, [] => (i, [])
  | i, u :: rest =>
    if isdigit u then
      let digit : Int := u - '0'.toNat
      -- the first comparison is one of unsigned numbers
      if i < 0 ∨ i > intMax / 10 ∨ digit > intMax - 10 * i then getint (-1) rest
      else getint (10 * i + digit) rest
    else (i, u :: rest)

def readFlags : Flags → List Nat → Flags × List Nat
  | fl, [] => (fl, [])
  | fl, u :: rest =>
    match fl.set u with
    | some fl => readFlags fl rest
    | none => (fl, u :: rest)

/-- An `int` from the numbered argument `k`. Without a stream its type is noted instead; what
`wprintf_core` reads there at that time is not used.
-/
def Core.starAt (f : Bool) (k : Nat) (c : Core F) : Except Fault (Int × Core F) :=
  if !f then .ok (0, c.setType k .int)
  else
    match c.nlArg k with
    | some (.i n) => .ok ((n.setWidth 32).toInt, c)
    | _ => .error .undefined

/-- An `int` from the next argument. -/
def Core.star (f : Bool) (c : Core F) : Except Fault (Int × Core F) :=
  if f then
    match c.ap with
    | .int n :: ap => .ok (n.toInt, { c with ap := ap })
    | _ => .error .undefined
  else .ok (0, c)

/-- The argument position behind `%`. -/
def readPosition (s : List Nat) (c : Core F) : Option Nat × List Nat × Core F :=
  if isdigit (s.getD 0 0) ∧ s.getD 1 0 = '$'.toNat then
    (some (s.getD 0 0 - '0'.toNat), s.drop 2, { c with l10n := true })
  else (none, s, c)

/-- A width from an argument. A negative one sets the flag `-`; `-INT_MIN` is undefined. -/
def negateWidth (fl : Flags) (w : Int) : Except Fault (Flags × Int) :=
  if w < 0 then
    if -w > intMax then .error .undefined else .ok ({ fl with left := true }, -w)
  else .ok (fl, w)

def readWidth (f : Bool) (fl : Flags) (s : List Nat) (c : Core F)
    : Except Fault (Flags × Int × List Nat × Core F) :=
  if s.getD 0 0 = '*'.toNat then
    if isdigit (s.getD 1 0) ∧ s.getD 2 0 = '$'.toNat then do
      let (w, c) ← Core.starAt f (s.getD 1 0 - '0'.toNat) { c with l10n := true }
      let (fl, w) ← negateWidth fl w
      pure (fl, w, s.drop 3, c)
    else if !c.l10n then do
      let (w, c) ← c.star f
      let (fl, w) ← negateWidth fl w
      pure (fl, w, s.drop 1, c)
    else .error (.errno .einval)
  else
    let (w, s) := getint 0 s
    if w < 0 then .error (.errno .eoverflow) else .ok (fl, w, s, c)

def readPrecision (f : Bool) (s : List Nat) (c : Core F)
    : Except Fault (Int × Bool × List Nat × Core F) :=
  if s.getD 0 0 = '.'.toNat ∧ s.getD 1 0 = '*'.toNat then
    if isdigit (s.getD 2 0) ∧ s.getD 3 0 = '$'.toNat then
      (c.starAt f (s.getD 2 0 - '0'.toNat)).map (fun (p, c) => (p, p ≥ 0, s.drop 4, c))
    else if !c.l10n then (c.star f).map (fun (p, c) => (p, p ≥ 0, s.drop 2, c))
    else .error (.errno .einval)
  else if s.getD 0 0 = '.'.toNat then
    let (p, s) := getint 0 (s.drop 1)
    .ok (p, true, s, c)
  else .ok (-1, false, s, c)

def readSpecifier : Pre → List Nat → Except Fault (Pre × ArgType × Char × List Nat)
  | _, [] => .error (.errno .einval)
  | st, u :: rest =>
    match states st (Char.ofNat u) with
    | none => .error (.errno .einval)
    | some (.inl st) => readSpecifier st rest
    | some (.inr type) => .ok (st, type, Char.ofNat u, rest)

structure Directive where
  argpos : Option Nat
  fl : Flags
  w : Int
  p : Int
  xp : Bool
  ps : Pre
  st : ArgType
  t : Char
  deriving DecidableEq

/-- A directive, from behind its `%`. `f` says whether there is a stream. -/
def readDirective (f : Bool) (s : List Nat) (c : Core F)
    : Except Fault (Directive × List Nat × Core F) := do
  let (argpos, s, c) := readPosition s c
  let (fl, s) := readFlags .none s
  let (fl, w, s, c) ← readWidth f fl s c
  let (p, xp, s, c) ← readPrecision f s c
  let (ps, st, t, s) ← readSpecifier .bare s
  pure (⟨argpos, fl, w, p, xp, ps, st, t⟩, s, c)

/-- The pairs `%%` at the start of a format. -/
def readPercents : List Nat → Nat × List Nat
  | u :: v :: rest =>
    if u = '%'.toNat ∧ v = '%'.toNat then
      let (n, s) := readPercents rest
      (n + 1, s)
    else (0, u :: v :: rest)
  | s => (0, s)

/-- The literal text up to the next directive, with one `%` for each pair behind it. -/
def readLiteral (s : List Nat) : List Nat × List Nat :=
  let literal := s.takeWhile (fun u => u ≠ '%'.toNat)
  let (n, rest) := readPercents (s.dropWhile (fun u => u ≠ '%'.toNat))
  (s.take (literal.length + n), rest)

/-- The numbered arguments are popped in order. None may be missing before the last one. -/
def popNumbered : Nat → Nat → Core F → Except Fault (Core F)
  | 0, _, c => .ok c
  | n + 1, i, c =>
    match c.nlType i with
    | none =>
      if (List.range (n + 1)).all (fun k => c.nlType (i + k) = none) then .ok c
      else .error (.errno .einval)
    | some type =>
      match popArg type c.ap with
      | none => .error .undefined
      | some (arg, ap) => popNumbered n (i + 1) { c.setArg i arg with ap := ap }

/-- The first pass over a format, without a stream: it notes the types of the numbered
arguments and ends at the first argument that has no number. `l` is the length of the last
piece of text.
-/
def scanLoop : Nat → Int → Int → List Nat → Core F → Except Fault (Core F)
  | 0, _, _, _, _ => .error .undefined
  | fuel + 1, cnt, l, s, c =>
    if l > intMax - cnt then .error (.errno .eoverflow)
    else
      let cnt := cnt + l
      if s = [] then
        if c.l10n then popNumbered argMax 1 c else .ok c
      else
        let (text, s) := readLiteral s
        if text.length > intMax - cnt then .error (.errno .eoverflow)
        else if text ≠ [] then scanLoop fuel cnt text.length s c
        else do
          let (d, s, c) ← readDirective false (s.drop 1) c
          match d.st, d.argpos with
          | .noarg, some _ => .error (.errno .einval)
          | .noarg, none => scanLoop fuel cnt 0 s c
          | st, some k => scanLoop fuel cnt 0 s (c.setType k st)
          | _, none => .ok c

/-- The first pass from the start of a format; each round reads at least one unit. -/
def scanFormat (s : List Nat) (ap : List (Va F)) : Except Fault (Core F) :=
  scanLoop (s.length + 1) 0 0 s ⟨false, fun _ => none, fun _ => none, ap⟩

/-- The argument of a directive with a stream, if it takes one. -/
def Core.fetch (d : Directive) (c : Core F) : Except Fault (Option (Arg F) × Core F) :=
  match d.st, d.argpos with
  | .noarg, some _ => .error (.errno .einval)
  | .noarg, none => .ok (none, c)
  | _, some k =>
    match c.nlArg k with
    | some arg => .ok (some arg, c)
    | none => .error .undefined
  | st, none =>
    match popArg st c.ap with
    | some (arg, ap) => .ok (some arg, { c with ap := ap })
    | none => .error .undefined

end Nglibc.Stdio
