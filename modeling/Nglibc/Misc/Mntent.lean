import Mathlib.Data.List.DropRight
import Mathlib.Tactic

/-! The mount table entries of `misc/mntent_r.c`. A stream is the list of the bytes that are left.
Strings are lists of bytes without the NUL. The conversions `%d` are a parameter.
-/

namespace Nglibc.Mntent

/-- The conversions `%d` of `fprintf` and of `sscanf`, which are inverse to each other. White space
before the number is skipped before `scan`.
-/
structure IntFormat where
  print : BitVec 32 → List UInt8
  scan : List UInt8 → Option (BitVec 32 × List UInt8)
  nonempty : ∀ n, print n ≠ []
  plain : ∀ n, ∀ c ∈ print n, 32 < c
  inverse : ∀ n rest, (∀ c ∈ rest.head?, c ≤ 32) → scan (print n ++ rest) = some (n, rest)

/-- `struct mntent`. -/
structure Entry where
  fsname : List UInt8
  dir : List UInt8
  type : List UInt8
  opts : List UInt8
  freq : BitVec 32
  passno : BitVec 32
deriving DecidableEq

def tab : UInt8 := 9
def newline : UInt8 := 10
def space : UInt8 := 32
def hash : UInt8 := 35
def backslash : UInt8 := 92

/-- The characters of `encode_chars`. -/
def IsEncoded (c : UInt8) : Prop := c = space ∨ c = tab ∨ c = newline ∨ c = backslash

instance (c : UInt8) : Decidable (IsEncoded c) := inferInstanceAs (Decidable (_ ∨ _ ∨ _ ∨ _))

/-- A character as `write_string` writes it. -/
def encodeChar (c : UInt8) : List UInt8 :=
  if IsEncoded c then
    [backslash, ((c &&& 0xc0) >>> 6) + 48, ((c &&& 0x38) >>> 3) + 48, (c &&& 0x07) + 48]
  else [c]

def writeString (str : List UInt8) : List UInt8 := str.flatMap encodeChar ++ [space]

/-- The line that `__addmntent` writes. -/
def line (format : IntFormat) (mnt : Entry) : List UInt8 :=
  writeString mnt.fsname ++ writeString mnt.dir ++ writeString mnt.type ++ writeString mnt.opts
    ++ format.print mnt.freq ++ [space] ++ format.print mnt.passno ++ [newline]

def addmntent (format : IntFormat) (stream : List UInt8) (mnt : Entry) : List UInt8 :=
  stream ++ line format mnt

/-- The loop of `__fgets_unlocked`, `stdio/streambuf/fgets.c`, which also delivers the newline. -/
def getline : Nat → List UInt8 → List UInt8 × List UInt8
  | 0, stream => ([], stream)
  | _ + 1, [] => ([], [])
  | n + 1, c :: stream =>
    if c = newline then ([c], stream)
    else (c :: (getline n stream).1, (getline n stream).2)

/-- `__fgets_unlocked`. -/
def fgets (n : Int) (stream : List UInt8) : Option (List UInt8 × List UInt8) :=
  if n ≤ 0 then none
  else if n = 1 then some ([], stream)
  else if stream = [] then none
  else some (getline (n - 1).toNat stream)

theorem getline_length (n : Nat) (stream : List UInt8)
    : (getline n stream).2.length ≤ stream.length := by
  induction n generalizing stream with
  | zero => exact le_rfl
  | succ n ih =>
    cases stream with
    | nil => exact le_rfl
    | cons c stream =>
      unfold getline
      split_ifs
      · exact Nat.le_succ _
      · exact (ih stream).trans (Nat.le_succ _)

theorem getline_succ_length (n : Nat) (c : UInt8) (stream : List UInt8)
    : (getline (n + 1) (c :: stream)).2.length < (c :: stream).length := by
  unfold getline
  split_ifs
  · exact Nat.lt_succ_self _
  · exact Nat.lt_succ_of_le (getline_length n stream)

def cstring (buffer : List UInt8) : List UInt8 := buffer.takeWhile (· ≠ 0)

/-- The rest of a line that did not fit into the buffer is forgotten. -/
def discard (stream : List UInt8) : List UInt8 :=
  match stream with
  | [] => []
  | c :: rest =>
    if newline ∈ cstring (getline 1023 (c :: rest)).1 then (getline 1023 (c :: rest)).2
    else discard (getline 1023 (c :: rest)).2
termination_by stream.length
decreasing_by exact getline_succ_length 1022 c rest

def IsBlank (c : UInt8) : Prop := c = space ∨ c = tab

instance (c : UInt8) : Decidable (IsBlank c) := inferInstanceAs (Decidable (_ ∨ _))

/-- The text of a line in the buffer and what is left of the stream. -/
def chop (buffer rest : List UInt8) : List UInt8 × List UInt8 :=
  if newline ∈ buffer then ((buffer.takeWhile (· ≠ newline)).rdropWhile (IsBlank ·), rest)
  else (buffer, discard rest)

/-- `decode_name`, which only writes where it has read before. -/
def decodeName (rp : List UInt8) : List UInt8 :=
  match rp with
  | [] => []
  | c :: rest =>
    if (c :: rest).take 4 = [backslash, 48, 52, 48] then space :: decodeName (rest.drop 3)
    else if (c :: rest).take 4 = [backslash, 48, 49, 49] then tab :: decodeName (rest.drop 3)
    else if (c :: rest).take 4 = [backslash, 48, 49, 50] then newline :: decodeName (rest.drop 3)
    else if (c :: rest).take 2 = [backslash, backslash] then backslash :: decodeName (rest.drop 1)
    else if (c :: rest).take 4 = [backslash, 49, 51, 52] then backslash :: decodeName (rest.drop 3)
    else c :: decodeName rest
termination_by rp.length

/-- `__strsep` with blanks as delimiters: the token and the new value of the pointer. -/
def strsep (head : Option (List UInt8)) : Option (List UInt8) × Option (List UInt8) :=
  match head with
  | none => (none, none)
  | some s =>
    (some (s.takeWhile (¬ IsBlank ·)),
      match s.dropWhile (¬ IsBlank ·) with
      | [] => none
      | _ :: rest => some rest)

def skipBlanks (s : List UInt8) : List UInt8 := s.dropWhile (IsBlank ·)

def field (token : Option (List UInt8)) : List UInt8 :=
  match token with
  | none => []
  | some s => decodeName s

/-- White space as `isspace` has it. -/
def skipSpaces (s : List UInt8) : List UInt8 := s.dropWhile (fun c => c = 32 ∨ 9 ≤ c ∧ c ≤ 13)

/-- The numbers of an entry, as `sscanf` leaves them. At the end of the text it stores nothing, and
no case of the switch applies.
-/
def scanNumbers (format : IntFormat) (mp : Entry) (head : Option (List UInt8))
    : BitVec 32 × BitVec 32 :=
  match head with
  | none => (0, 0)
  | some s =>
    if skipSpaces s = [] then (mp.freq, mp.passno)
    else
      match format.scan (skipSpaces s) with
      | none => (0, 0)
      | some (freq, rest) =>
        match format.scan (skipSpaces rest) with
        | none => (freq, 0)
        | some (passno, _) => (freq, passno)

def parse (format : IntFormat) (mp : Entry) (head : List UInt8) : Entry :=
  let (fsname, head) := strsep (some head)
  let (dir, head) := strsep (head.map skipBlanks)
  let (type, head) := strsep (head.map skipBlanks)
  let (opts, head) := strsep (head.map skipBlanks)
  let (freq, passno) := scanNumbers format mp head
  ⟨field fsname, field dir, field type, field opts, freq, passno⟩

/-- `get_mnt_entry`; `none` if the fuel does not suffice. -/
def getMntEntry (format : IntFormat) (bufsiz : Int)
    : Nat → Entry → List UInt8 → Option (Option Entry × List UInt8)
  | 0, _, _ => none
  | fuel + 1, mp, stream =>
    match fgets bufsiz stream with
    | none => some (none, stream)
    | some (buffer, rest) =>
      let (text, rest) := chop (cstring buffer) rest
      let head := skipBlanks text
      if head = [] ∨ head.head? = some hash then getMntEntry format bufsiz fuel mp rest
      else some (some (parse format mp head), rest)

def autofs : List UInt8 := [97, 117, 116, 111, 102, 115]
def ignore : List UInt8 := [105, 103, 110, 111, 114, 101]

def comma : UInt8 := 44

/-- `strstr`: what stands before the first occurrence, and the text from there on. -/
def strstr (opt : List UInt8) : List UInt8 → Option (List UInt8 × List UInt8)
  | [] => if opt = [] then some ([], []) else none
  | c :: rest =>
    if opt <+: c :: rest then some ([], c :: rest)
    else (strstr opt rest).map fun (before, p) => (c :: before, p)

/-- The loop of `__hasmntopt`. Each round goes behind a comma. -/
def hasmntoptLoop (opt : List UInt8) : Nat → List UInt8 → Bool
  | 0, _ => false
  | fuel + 1, rest =>
    match strstr opt rest with
    | none => false
    | some (before, p) =>
      let after := (p.drop opt.length).head?
      if (before = [] ∨ before.getLast? = some comma)
          ∧ (after = none ∨ after = some 61 ∨ after = some comma) then true
      else
        match p.dropWhile (· ≠ comma) with
        | [] => false
        | _ :: rest => hasmntoptLoop opt fuel rest

def hasmntopt (mnt : Entry) (opt : List UInt8) : Bool :=
  hasmntoptLoop opt (mnt.opts.length + 1) mnt.opts

/-- `__getmntent_r`; `none` if the fuel does not suffice. -/
def getmntent (format : IntFormat) (bufsiz : Int)
    : Nat → Entry → List UInt8 → Option (Option Entry × List UInt8)
  | 0, _, _ => none
  | fuel + 1, mp, stream =>
    match getMntEntry format bufsiz (fuel + 1) mp stream with
    | none => none
    | some (none, rest) => some (none, rest)
    | some (some mp, rest) =>
      if mp.type = autofs ∧ hasmntopt mp ignore = true then
        getmntent format bufsiz fuel ⟨[], [], [], [], 0, 0⟩ rest
      else some (some mp, rest)

/-- The entries until `__getmntent_r` returns `NULL`. -/
def readAll (format : IntFormat) (bufsiz : Int) : Nat → Entry → List UInt8 → Option (List Entry)
  | 0, _, _ => none
  | fuel + 1, mp, stream =>
    match getmntent format bufsiz (fuel + 1) mp stream with
    | none => none
    | some (none, _) => some []
    | some (some mp, rest) => (readAll format bufsiz fuel mp rest).map (mp :: ·)

end Nglibc.Mntent
