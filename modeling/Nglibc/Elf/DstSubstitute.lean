import Mathlib.Data.List.Basic

/-! Dynamic string tokens of `elf/dl-load.c` and `elf/dl-dst.h`. Strings are lists of bytes without
the terminator. Sizes are those of objects in memory and do not wrap. A computation that is `none`
reads or writes outside a buffer.
-/

namespace Nglibc.Elf

def slash : UInt8 := 47

def dot : UInt8 := 46

def dollar : UInt8 := 36

inductive Token where
  | origin
  | platform
  | lib
deriving DecidableEq

def Token.name : Token → List UInt8
  | origin => [79, 82, 73, 71, 73, 78]
  | platform => [80, 76, 65, 84, 70, 79, 82, 77]
  | lib => [76, 73, 66]

def identifierByte (c : UInt8) : Bool :=
  decide (65 ≤ c ∧ c ≤ 90) || decide (97 ≤ c ∧ c ≤ 122) || decide (48 ≤ c ∧ c ≤ 57) || c == 95

def isDst (input ref : List UInt8) : Nat :=
  let isCurly := input.headD 0 == 123
  let input := if isCurly then input.tail else input
  let next := (input.drop ref.length).headD 0
  if !ref.isPrefixOf input || (isCurly && next != 125) || identifierByte next then 0
  else if isCurly then ref.length + 2
  else ref.length

/-- The token that `is_dst` finds behind a `$`, with its length. -/
def knownDst (input : List UInt8) : Option (Token × Nat) :=
  if isDst input Token.origin.name ≠ 0 then some (.origin, isDst input Token.origin.name)
  else if isDst input Token.platform.name ≠ 0 then
    some (.platform, isDst input Token.platform.name)
  else if isDst input Token.lib.name ≠ 0 then some (.lib, isDst input Token.lib.name)
  else none

/-- The loop of `_dl_dst_count`, at the `strchr` for the next `$`. -/
def dstCountLoop : Nat → List UInt8 → Nat
  | 0, _ => 0
  | fuel + 1, input =>
    match input.dropWhile (fun c => c != dollar) with
    | [] => 0
    | _ :: input =>
      match knownDst input with
      | some (_, len) => 1 + dstCountLoop fuel (input.drop len)
      | none => dstCountLoop fuel input

/-- `_dl_dst_count`. -/
def dstCount (input : List UInt8) : Nat := dstCountLoop (input.length + 1) input

/-- A trusted directory, as the names of an absolute path. -/
structure Directory where
  names : List (List UInt8)
  valid : ∀ name ∈ names, name ≠ [] ∧ slash ∉ name

/-- The text of a directory in `system_dirs`. -/
def directoryText (names : List (List UInt8)) : List UInt8 :=
  slash :: names.flatMap fun name => name ++ [slash]

/-- What the substitution uses: `__libc_enable_secure`, whether `l_type` is `lt_executable`,
`l_origin` (none if `NULL` or -1), `GLRO(dl_platform)`, `DL_DST_LIB` and `system_dirs`. A secure
program does not take the origin from `LD_ORIGIN_PATH`, so that it is absolute.
-/
structure Loader where
  secure : Bool
  executable : Bool
  origin : Option (List UInt8)
  platform : Option (List UInt8)
  lib : List UInt8
  systemDirs : List Directory
  noNul : 0 ∉ origin.getD [] ∧ 0 ∉ platform.getD [] ∧ 0 ∉ lib
  absolute : secure = true → ∀ text, origin = some text → text.head? = some slash

def Loader.longest (l : Loader) : Nat :=
  max (max (l.origin.getD []).length (l.platform.getD []).length) l.lib.length

/-- `DL_DST_REQUIRED`, with the count of `_dl_dst_count`. -/
def Loader.dstRequired (l : Loader) (input : List UInt8) : Nat :=
  input.length + dstCount input * (l.longest - 4)

def cString (buffer : List UInt8) : Option (List UInt8) :=
  if 0 ∈ buffer then some (buffer.takeWhile fun c => c != 0) else none

/-- The loop of `is_trusted_path_normalize`, where `wnp` is what was written, last byte first, to
a buffer of `size` bytes.
-/
def normalizeLoop (size : Nat) : Nat → List UInt8 → List UInt8 → Option (List UInt8)
  | 0, _, _ => none
  | _ + 1, [], wnp => some wnp
  | fuel + 1, c :: path, wnp =>
    if c = slash ∧ path.headD 0 = dot ∧ path.getD 1 0 = dot
        ∧ (path.getD 2 0 = slash ∨ path.getD 2 0 = 0) then
      normalizeLoop size fuel (path.drop 2) (wnp.dropWhile fun c => c != slash).tail
    else if c = slash ∧ path.headD 0 = dot ∧ (path.getD 1 0 = slash ∨ path.getD 1 0 = 0) then
      normalizeLoop size fuel (path.drop 1) wnp
    else if c = slash ∧ wnp.head? = some slash then normalizeLoop size fuel path wnp
    else if wnp.length < size then normalizeLoop size fuel path (c :: wnp)
    else none

/-- `is_trusted_path_normalize` for the string in a buffer. -/
def Loader.isTrustedPathNormalize (l : Loader) (buffer : List UInt8) (len : Nat) : Option Bool :=
  if len = 0 then some false
  else
    (cString buffer).bind fun path =>
      (normalizeLoop (len + 2) (path.length + 1) path []).bind fun wnp =>
        let full := if wnp.head? = some slash then wnp else slash :: wnp
        if full.length ≤ len + 2 then
          some (l.systemDirs.any fun dir => (directoryText dir.names).isPrefixOf full.reverse)
        else none

def put (buffer : List UInt8) (i : Nat) (c : UInt8) : Option (List UInt8) :=
  if i < buffer.length then some (buffer.set i c) else none

/-- `__stpcpy` to the index `wp` of a buffer. -/
def stpcpy (buffer : List UInt8) (wp : Nat) (text : List UInt8) : Option (List UInt8) :=
  if wp + text.length < buffer.length then
    some (buffer.take wp ++ (text ++ 0 :: buffer.drop (wp + text.length + 1)))
  else none

/-- The replacement of a token, none if there is none. A secure program takes `$ORIGIN` only as
the first element of the path.
-/
def Loader.replacement (l : Loader) (first : Bool) : Token → Option (List UInt8)
  | .origin => if l.secure && !first then none else l.origin
  | .platform => l.platform
  | .lib => some l.lib

/-- The state of the loop of `_dl_dst_substitute`. -/
structure Substitution where
  buffer : List UInt8
  wp : Nat
  checkForTrusted : Bool

inductive Outcome where
  | discarded (buffer : List UInt8)
  | finished (s : Substitution)

def endsElement (rest : List UInt8) : Bool := rest.headD 0 == 0 || rest.headD 0 == slash

/-- `check_for_trusted` after a token. -/
def Loader.checks (l : Loader) (token : Token) (before : Bool) : Bool :=
  if token = .origin then l.secure && l.executable else before

/-- The loop of `_dl_dst_substitute`, at the index `pos` of its input. -/
def Loader.substituteLoop (l : Loader)
    : Nat → Nat → List UInt8 → Substitution → Option Outcome
  | 0, _, _, _ => none
  | _ + 1, _, [], s => some (.finished s)
  | fuel + 1, pos, c :: input, s =>
    if c = dollar then
      match knownDst input with
      | some (token, len) =>
        match l.replacement (pos == 0 && endsElement (input.drop len)) token with
        | some text =>
          (stpcpy s.buffer s.wp text).bind fun buffer =>
            l.substituteLoop fuel (pos + 1 + len) (input.drop len)
              ⟨buffer, s.wp + text.length, l.checks token s.checkForTrusted⟩
        | none => some (.discarded s.buffer)
      | none =>
        (put s.buffer s.wp dollar).bind fun buffer =>
          l.substituteLoop fuel (pos + 1) input ⟨buffer, s.wp + 1, s.checkForTrusted⟩
    else
      (put s.buffer s.wp c).bind fun buffer =>
        l.substituteLoop fuel (pos + 1) input ⟨buffer, s.wp + 1, s.checkForTrusted⟩

/-- The end of `_dl_dst_substitute`. -/
def Loader.conclude (l : Loader) : Outcome → Option (List UInt8)
  | .discarded buffer => put buffer 0 0
  | .finished s =>
    if s.checkForTrusted then
      (l.isTrustedPathNormalize s.buffer s.wp).bind fun trusted =>
        if trusted then put s.buffer s.wp 0 else put s.buffer 0 0
    else put s.buffer s.wp 0

/-- `_dl_dst_substitute`: the buffer that it leaves. The loop reads behind an empty path. -/
def Loader.dstSubstitute (l : Loader) (input buffer : List UInt8) : Option (List UInt8) :=
  if input = [] then none
  else (l.substituteLoop (input.length + 1) 0 input ⟨buffer, 0, false⟩).bind l.conclude

end Nglibc.Elf
