import Mathlib.Data.List.TakeWhile
import Nglibc.Stdio.InputFeed

/-! `gets` and its checked variant, which gives `_IO_getline` the rest of a line whose first byte it has read
itself.
-/

namespace Nglibc.Stdio

open List

variable {W : Type} {refills : W → List (List UInt8)}

/-! The functions -/

/-- `INT_MAX` -/
def getsMax : Nat := 2 ^ 31 - 1

/-- The loop of `_IO_getline` with room for `n` more bytes behind `line`: the last character, the bytes
stored, and the stream.
-/
def getlineLoop (uflow : Streambuf W → Int × Streambuf W) (delim : Int)
    : Nat → Int → List UInt8 → Streambuf W → Int × List UInt8 × Streambuf W
  | 0, c, line, s => (c, line, s)
  | n + 1, _, line, s =>
    let (c, s) := getcOver uflow s
    if c ≠ eofValue ∧ c ≠ delim then getlineLoop uflow delim n c (line ++ [UInt8.ofInt c]) s
    else (c, line, s)

/-- `_IO_getline`: the result, the bytes stored, and the stream. -/
def ioGetline (uflow : Streambuf W → Int × Streambuf W) (putback : Int → Streambuf W → Streambuf W)
    (n : Nat) (delim : Int) (extractDelim : Int) (s : Streambuf W)
    : Nat × List UInt8 × Streambuf W :=
  let (c, line, s) := getlineLoop uflow delim n (eofValue - 1) [] s
  if c = delim then
    if extractDelim > 0 ∧ line.length < n then (line.length + 1, line ++ [UInt8.ofInt c], s)
    else if extractDelim < 0 then (line.length, line, putback c s)
    else (line.length, line, s)
  else if extractDelim = 0 ∧ (!s.eof ∨ line.length = 0) then (2 ^ 64 - 1, line, s)
  else (line.length, line, s)

/-- Whether the result is not null, the buffer, and the stream. -/
structure GetsResult (W : Type) where
  ret : Bool
  buf : Memory UInt8
  stream : Streambuf W

def gets (uflow : Streambuf W → Int × Streambuf W) (putback : Int → Streambuf W → Streambuf W)
    (buf : Memory UInt8) (s : Streambuf W)
    : GetsResult W :=
  let (i, line, s) := ioGetline uflow putback getsMax newline.toNat 0 s
  let buf := buf.store 0 line
  if (i + 1) % 2 ^ 64 = 0 then ⟨false, buf, s⟩ else ⟨true, buf.store i [0], s⟩

/-- `_IO_getc_unlocked` -/
def getcChk (uflow : Streambuf W → Int × Streambuf W) (s : Streambuf W) : Int × Streambuf W :=
  if s.gptr ≥ s.egptr then uflow s
  else ((s.memory s.gptr).toNat, { s with gptr := s.gptr + 1 })

/-- The end of `__gets_chk`: `none` for `__chk_fail`. -/
def getsChkEnd (size count : Nat) (buf : Memory UInt8) (s : Streambuf W) : Option (GetsResult W) :=
  if count ≥ size then none else some ⟨true, buf.store count [0], s⟩

def getsChk (uflow : Streambuf W → Int × Streambuf W) (putback : Int → Streambuf W → Streambuf W)
    (buf : Memory UInt8) (size : Nat) (s : Streambuf W)
    : Option (GetsResult W) :=
  if size = 0 then none
  else
    let (ch, s) := getcChk uflow s
    if ch = eofValue then some ⟨false, buf, s⟩
    else if ch = newline.toNat then getsChkEnd size 0 buf s
    else
      let oldError := s.err
      let buf := buf.store 0 [UInt8.ofInt ch]
      let (i, line, s) := ioGetline uflow putback (size - 1) newline.toNat 0 { s with err := false }
      let count := (i + 1) % 2 ^ 64
      let buf := buf.store 1 line
      if s.err then some ⟨false, buf, s⟩
      else getsChkEnd size count buf { s with err := s.err || oldError }

/-! Lines -/

def lineOf (input : List UInt8) : List UInt8 := input.takeWhile (· ≠ newline)

def behindLine (input : List UInt8) : List UInt8 := input.dropWhile (· ≠ newline)

theorem line_append (input : List UInt8) : lineOf input ++ behindLine input = input :=
  takeWhile_append_dropWhile

variable {uflow : Streambuf W → Int × Streambuf W} {s : Streambuf W} {input : List UInt8}
  {checked : Option (GetsResult W)} {buf : Memory UInt8}

/-- What a call of `getc_unlocked` does. -/
theorem getcOver_next_byte (refill : Refill refills byteValue uflow) (fed : Fed refills s)
    : Fed refills (getcOver uflow s).2 ∧ (getcOver uflow s).2.err = s.err
      ∧ (inputOf refills s = [] ∧ (getcOver uflow s).1 = eofValue
          ∧ getcOver uflow s = uflow s ∧ inputOf refills (getcOver uflow s).2 = []
        ∨ ∃ b, inputOf refills s = b :: inputOf refills (getcOver uflow s).2
          ∧ (getcOver uflow s).1 = b.toNat ∧ (getcOver uflow s).2.eof = s.eof) := by
  cases fed.next with
  | ready b some_ byte unread =>
    rw [getcOver, if_pos some_]
    refine ⟨fed.advance some_, rfl, .inr ⟨b, ?_, by rw [byte], rfl⟩⟩
    rw [inputOf, unread]
    rfl
  | refill b more later empty unread coming =>
    obtain ⟨read, refilled⟩ := (refill s fed empty).2 b more later coming
    rw [getcOver, if_neg (not_not_intro empty)]
    refine ⟨refilled.fed, refilled.err, .inr ⟨b, ?_, read, refilled.eof⟩⟩
    rw [inputOf, inputOf, unread, coming, refilled.unread, refilled.later]
    rfl
  | ended empty unread coming =>
    obtain ⟨eof, ended⟩ := (refill s fed empty).1 coming
    rw [getcOver, if_neg (not_not_intro empty)]
    refine ⟨ended.fed, ended.err, .inl ⟨?_, eof, rfl, ?_⟩⟩
    · rw [inputOf, unread, coming]
      rfl
    · rw [inputOf, ended.unread, ended.later]
      rfl

theorem getcChk_eq (fed : Fed refills s)
    : getcChk uflow s = getcOver uflow s := by
  have get := fed.get
  rw [getcChk, getcOver]
  by_cases empty : s.gptr = s.egptr
  · rw [if_pos (Nat.le_of_eq empty.symm), if_neg (not_not_intro empty)]
  · rw [if_neg (by omega), if_pos empty]

/-- The outcomes of the loop of `_IO_getline` on an input. -/
inductive LineRead (refills : W → List (List UInt8)) (n : Nat) (input : List UInt8)
    (s : Streambuf W) (c : Int) (line : List UInt8) (s' : Streambuf W) : Prop where
  /-- the room is used up -/
  | full (most : n ≤ (lineOf input).length) (stored : line = (lineOf input).take n)
      (other : c ≠ newline.toNat) (left : inputOf refills s' = input.drop n) (eof : s'.eof = s.eof)
  /-- a newline follows the line -/
  | newline (room : (lineOf input).length < n) (stored : line = lineOf input)
      (read : c = Stdio.newline.toNat) (left : behindLine input = Stdio.newline :: inputOf refills s')
  /-- the input ends the line -/
  | ended (room : (lineOf input).length < n) (stored : line = lineOf input)
      (read : c = eofValue) (none : behindLine input = []) (left : inputOf refills s' = [])
      (eof : s'.eof = true)

theorem lineOf_cons {b : UInt8} (other : b ≠ newline) (rest : List UInt8)
    : lineOf (b :: rest) = b :: lineOf rest ∧ behindLine (b :: rest) = behindLine rest := by
  have keeps : decide (b ≠ newline) = true := decide_eq_true other
  rw [lineOf, behindLine, takeWhile_cons, dropWhile_cons, if_pos keeps, if_pos keeps]
  exact ⟨rfl, rfl⟩

theorem byteValue_newline {b : UInt8} : (b.toNat : Int) = newline.toNat ↔ b = newline := by
  rw [Int.ofNat_inj]
  exact UInt8.toNat_inj

/-- By induction on the room. -/
theorem getlineLoop_lineRead {n : Nat} {first : Int} (refill : Refill refills byteValue uflow)
    (ends : MarksEnd refills uflow) (fed : Fed refills s) (other : first ≠ newline.toNat)
    (before : List UInt8)
    : ∃ c line s', getlineLoop uflow newline.toNat n first before s = (c, before ++ line, s')
      ∧ Fed refills s' ∧ s'.err = s.err
      ∧ LineRead refills n (inputOf refills s) s c line s' := by
  induction n generalizing s first before with
  | zero =>
    refine ⟨first, [], s, by rw [getlineLoop, append_nil], fed, rfl, ?_⟩
    exact .full (Nat.zero_le _) rfl other rfl rfl
  | succ n ih =>
    obtain ⟨fed', err, next⟩ := getcOver_next_byte refill fed
    rw [getlineLoop]
    rcases next with ⟨none, eof, call, left⟩ | ⟨b, input, read, flag⟩
    · have stop : ¬ ((getcOver uflow s).1 ≠ eofValue ∧ (getcOver uflow s).1 ≠ newline.toNat) :=
        fun both => both.1 eof
      refine ⟨(getcOver uflow s).1, [], (getcOver uflow s).2, ?_, fed', err, ?_⟩
      · simp only
        rw [if_neg stop, append_nil]
      · rw [none]
        refine .ended (Nat.succ_pos n) rfl eof rfl left ?_
        rw [call]
        exact ends s fed none
    · by_cases lineEnd : b = newline
      · have stop : ¬ ((getcOver uflow s).1 ≠ eofValue ∧ (getcOver uflow s).1 ≠ newline.toNat) :=
          fun both => both.2 (read.trans (byteValue_newline.mpr lineEnd))
        have line : lineOf (newline :: inputOf refills (getcOver uflow s).2) = []
            ∧ behindLine (newline :: inputOf refills (getcOver uflow s).2)
              = newline :: inputOf refills (getcOver uflow s).2 := by
          simp [lineOf, behindLine]
        refine ⟨(getcOver uflow s).1, [], (getcOver uflow s).2, ?_, fed', err, ?_⟩
        · simp only
          rw [if_neg stop, append_nil]
        · rw [input, lineEnd]
          refine .newline ?_ line.1.symm (read.trans (byteValue_newline.mpr lineEnd)) line.2
          exact Nat.succ_pos n
      · have on : (getcOver uflow s).1 ≠ eofValue ∧ (getcOver uflow s).1 ≠ newline.toNat := by
          rw [read]
          exact ⟨by rw [eofValue]; omega, fun same => lineEnd (byteValue_newline.mp same)⟩
        obtain ⟨c, line, s', run, fed'', err', outcome⟩ := ih fed' on.2 (before ++ [b])
        obtain ⟨line', behind⟩ := lineOf_cons lineEnd (inputOf refills (getcOver uflow s).2)
        refine ⟨c, b :: line, s', ?_, fed'', err'.trans err, ?_⟩
        · rw [read] at run
          simp only
          rw [if_pos on, read, ofInt_toNat, run, append_assoc]
          rfl
        · rw [input]
          cases outcome with
          | full most stored other left eof =>
            refine .full ?_ ?_ other left (eof.trans flag)
            · rw [line']
              exact Nat.succ_le_succ most
            · rw [line', stored, take_succ_cons]
          | newline room stored read' left =>
            refine .newline ?_ ?_ read' (behind.trans left)
            · rw [line']
              exact Nat.succ_lt_succ room
            · rw [line', stored]
          | ended room stored read' none left eof =>
            refine .ended ?_ ?_ read' (behind.trans none) left eof
            · rw [line']
              exact Nat.succ_lt_succ room
            · rw [line', stored]

/-! The results -/

/-- What `_IO_getline` without the delimiter returns. The result `(size_t)-1` stands for the end. -/
inductive GotLine (refills : W → List (List UInt8)) (n : Nat) (s : Streambuf W) (r : Nat)
    (line : List UInt8) (s' : Streambuf W) : Prop where
  | full (most : n ≤ (lineOf (inputOf refills s)).length)
      (stored : line = (lineOf (inputOf refills s)).take n) (ret : r = 2 ^ 64 - 1)
  | newline (room : (lineOf (inputOf refills s)).length < n) (stored : line = lineOf (inputOf refills s))
      (ret : r = line.length)
      (left : behindLine (inputOf refills s) = Stdio.newline :: inputOf refills s')
  | ended (room : (lineOf (inputOf refills s)).length < n) (stored : line = lineOf (inputOf refills s))
      (ret : r = if line.length = 0 then 2 ^ 64 - 1 else line.length)
      (none : behindLine (inputOf refills s) = []) (left : inputOf refills s' = [])

/-- `_IO_getline` on a stream whose end flag is set only at the end. -/
theorem ioGetline_gotLine (refill : Refill refills byteValue uflow) (ends : MarksEnd refills uflow)
    (fed : Fed refills s) {n : Nat} (flag : s.eof = false ∨ inputOf refills s = [] ∧ 0 < n)
    (putback : Int → Streambuf W → Streambuf W)
    : ∃ r line s', ioGetline uflow putback n newline.toNat 0 s = (r, line, s')
      ∧ s'.err = s.err ∧ GotLine refills n s r line s' := by
  have other : eofValue - 1 ≠ (newline.toNat : Int) := by decide
  obtain ⟨c, line, s', run, fed', err, outcome⟩ :=
    getlineLoop_lineRead (n := n) refill ends fed other []
  rw [ioGetline, run, nil_append]
  simp only
  cases outcome with
  | full most stored other left eof =>
    have flag' : s.eof = false := by
      rcases flag with flag | ⟨none, positive⟩
      · exact flag
      · rw [none] at most
        exact absurd (Nat.lt_of_lt_of_le positive most) (Nat.lt_irrefl 0)
    rw [if_neg other, if_pos ⟨trivial, .inl (by rw [eof, flag']; rfl)⟩]
    exact ⟨_, _, _, rfl, err, .full most stored rfl⟩
  | newline room stored read left =>
    have keep : ¬ ((0 : Int) > 0 ∧ line.length < n) := fun both => absurd both.1 (by decide)
    have back : ¬ (0 : Int) < 0 := by decide
    rw [if_pos read]
    exact ⟨_, _, _, rfl, err, .newline room stored rfl left⟩
  | ended room stored read none left eof =>
    have apart : ¬ c = (newline.toNat : Int) := by
      rw [read]
      decide
    rw [if_neg apart, eof]
    by_cases empty : line.length = 0
    · rw [if_pos ⟨trivial, .inr empty⟩]
      exact ⟨_, _, _, rfl, err, .ended room stored (if_pos empty).symm none left⟩
    · have more : ¬ (True ∧ ((!true) = true ∨ line.length = 0)) := by
        rintro ⟨-, flag | short⟩
        · cases flag
        · exact empty short
      rw [if_neg more]
      exact ⟨_, _, _, rfl, err, .ended room stored (if_neg empty).symm none left⟩

def HoldsString (buf : Memory UInt8) (str : List UInt8) : Prop :=
  buf.slice 0 (str.length + 1) = str ++ [0]

def stringOf (line : List UInt8) : List UInt8 := line.takeWhile (· ≠ 0)

def SameString (buf buf' : Memory UInt8) : Prop :=
  ∀ str, 0 ∉ str → (HoldsString buf str ↔ HoldsString buf' str)

theorem holdsString_iff {str : List UInt8}
    : HoldsString buf str ↔ buf.slice 0 str.length = str ∧ buf str.length = 0 := by
  have split : buf.slice 0 (str.length + 1) = buf.slice 0 str.length ++ [buf str.length] := by
    rw [Memory.slice_add, Nat.zero_add]
    rfl
  rw [HoldsString, split]
  constructor
  · intro same
    obtain ⟨bytes, terminator⟩ := append_inj' same rfl
    exact ⟨bytes, head_eq_of_cons_eq terminator⟩
  · rintro ⟨bytes, terminator⟩
    rw [bytes, terminator]

/-- A buffer holds no second string that goes on behind the terminator of the first. -/
theorem HoldsString.length_le {str str' : List UInt8} (holds : HoldsString buf str)
    (holds' : HoldsString buf str') (none' : 0 ∉ str')
    : str'.length ≤ str.length := by
  by_contra longer
  obtain ⟨-, terminator⟩ := holdsString_iff.mp holds
  obtain ⟨bytes, -⟩ := holdsString_iff.mp holds'
  have inside : str.length < (buf.slice 0 str'.length).length := by
    rw [Memory.length_slice]
    exact Nat.not_le.mp longer
  have member := getElem_mem inside
  rw [Memory.getElem_slice inside, Nat.zero_add, terminator, bytes] at member
  exact none' member

theorem HoldsString.unique {str str' : List UInt8} (holds : HoldsString buf str)
    (holds' : HoldsString buf str') (none : 0 ∉ str) (none' : 0 ∉ str')
    : str = str' := by
  have same := Nat.le_antisymm (holds'.length_le holds none) (holds.length_le holds' none')
  rw [← (holdsString_iff.mp holds).1, ← (holdsString_iff.mp holds').1, same]

theorem HoldsString.sameString {buf buf' : Memory UInt8} {str : List UInt8} (holds : HoldsString buf str)
    (holds' : HoldsString buf' str) (none : 0 ∉ str)
    : SameString buf buf' := by
  intro str' none'
  constructor
  · intro other
    rw [other.unique holds none' none]
    exact holds'
  · intro other
    rw [other.unique holds' none' none]
    exact holds

theorem stringOf_zero (line : List UInt8) : 0 ∉ stringOf line := by
  intro member
  have kept := mem_takeWhile_imp member
  simp at kept

theorem holdsString_line {line : List UInt8} (stored : buf.slice 0 (line.length + 1) = line ++ [0])
    : HoldsString buf (stringOf line) := by
  obtain ⟨more, split⟩ : ∃ more, line ++ [0] = stringOf line ++ 0 :: more := by
    have parts := takeWhile_append_dropWhile (p := fun b : UInt8 => decide (b ≠ 0)) (l := line)
    cases rest : line.dropWhile (fun b => decide (b ≠ 0)) with
    | nil =>
      rw [rest, append_nil] at parts
      exact ⟨[], by rw [stringOf, parts]⟩
    | cons b more =>
      have stop := head_dropWhile_not (fun b : UInt8 => decide (b ≠ 0)) (l := line) (by rw [rest]; simp)
      simp only [rest, head_cons, decide_eq_false_iff_not, not_not] at stop
      refine ⟨more ++ [0], ?_⟩
      rw [← stop, ← cons_append, ← append_assoc, stringOf, ← rest, parts]
  have shorter : (stringOf line).length ≤ line.length := (takeWhile_sublist _).length_le
  have front : (stringOf line ++ 0 :: more).take ((stringOf line).length + 1) = stringOf line ++ [0] := by
    rw [take_length_add_append]
    rfl
  rw [HoldsString, ← Memory.take_slice (Nat.succ_le_succ shorter), stored, split, front]

def LeftOf (refills : W → List (List UInt8)) (input : List UInt8) (s : Streambuf W) : Prop :=
  behindLine input = newline :: inputOf refills s ∨ behindLine input = [] ∧ inputOf refills s = []

/-- `__gets` on a line. -/
inductive Gets (refills : W → List (List UInt8)) (input : List UInt8) (r : GetsResult W) : Prop where
  | full (most : getsMax ≤ (lineOf input).length) (null : r.ret = false)
  | line (room : (lineOf input).length < getsMax) (some_ : input ≠ []) (ret : r.ret = true)
      (holds : HoldsString r.buf (stringOf (lineOf input))) (left : LeftOf refills input r.stream)
  | ended (none : input = []) (null : r.ret = false) (left : inputOf refills r.stream = [])

theorem lineOf_nil_of_behind (line : lineOf input = []) (behind : behindLine input = [])
    : input = [] := by
  rw [← line_append input, line, behind]
  rfl

/-- `gets` on any input: a line, the end of the input, or a read error. -/
theorem gets_line (refill : Refill refills byteValue uflow) (ends : MarksEnd refills uflow)
    (fed : Fed refills s) (flag : s.eof = true → inputOf refills s = [])
    (putback : Int → Streambuf W → Streambuf W) (buf : Memory UInt8)
    : Gets refills (inputOf refills s) (gets uflow putback buf s) := by
  have flag' : s.eof = false ∨ inputOf refills s = [] ∧ 0 < getsMax := by
    cases eof : s.eof with
    | false => exact .inl rfl
    | true => exact .inr ⟨flag eof, by decide⟩
  obtain ⟨r, line, s', run, -, outcome⟩ := ioGetline_gotLine refill ends fed flag' putback
  have stores : HoldsString ((buf.store 0 line).store line.length [0]) (stringOf line) := by
    apply holdsString_line
    have all := @Memory.store_store_append _ buf 0 line [0]
    rw [Nat.zero_add] at all
    rw [all, ← length_singleton (a := (0 : UInt8)), ← length_append]
    exact Memory.slice_store_self
  rw [gets, run]
  simp only
  cases outcome with
  | full most stored ret =>
    rw [ret]
    exact .full most rfl
  | newline room stored ret left =>
    have some_ : inputOf refills s ≠ [] := by
      intro none
      rw [none] at left
      cases left
    have kept : ¬ (r + 1) % 2 ^ 64 = 0 := by
      unfold getsMax at room
      rw [ret, stored]
      omega
    rw [if_neg kept, ret]
    rw [stored] at stores ⊢
    exact .line room some_ rfl stores (.inl left)
  | ended room stored ret none left =>
    by_cases empty : line.length = 0
    · have nothing : lineOf (inputOf refills s) = [] := by
        rw [← stored]
        exact length_eq_zero_iff.mp empty
      rw [ret, if_pos empty]
      exact .ended (lineOf_nil_of_behind nothing none) rfl left
    · have some_ : inputOf refills s ≠ [] := by
        intro nothing
        rw [stored, nothing] at empty
        exact empty rfl
      have kept : ¬ (r + 1) % 2 ^ 64 = 0 := by
        unfold getsMax at room
        rw [ret, if_neg empty, stored]
        omega
      rw [if_neg kept, ret, if_neg empty]
      rw [stored] at stores ⊢
      exact .line room some_ rfl stores (.inr ⟨none, left⟩)

/-- `__gets_chk` on a line. -/
inductive GetsChk (refills : W → List (List UInt8)) (size : Nat) (input : List UInt8)
    (checked : Option (GetsResult W)) : Prop where
  | ended (none : input = []) (r : GetsResult W) (returns : checked = some r) (null : r.ret = false)
      (left : inputOf refills r.stream = [])
  /-- the room is used up, and the string is empty -/
  | full (most : size ≤ (lineOf input).length) (r : GetsResult W) (returns : checked = some r)
      (ret : r.ret = true)
  | line (room : (lineOf input).length < size) (some_ : input ≠ [])
      (several : behindLine input ≠ [] ∨ (lineOf input).length ≠ 1) (r : GetsResult W)
      (returns : checked = some r) (ret : r.ret = true)
      (holds : HoldsString r.buf (stringOf (lineOf input))) (left : LeftOf refills input r.stream)
  /-- a last line of one byte, and the string is empty -/
  | one (room : (lineOf input).length < size) (b : UInt8) (single : input = [b]) (other : b ≠ newline)
      (r : GetsResult W) (returns : checked = some r) (ret : r.ret = true)
      (empty : HoldsString r.buf []) (left : inputOf refills r.stream = [])

theorem getsChkEnd_some {size count : Nat} (room : count < size) (buf : Memory UInt8) (s : Streambuf W)
    : getsChkEnd size count buf s = some ⟨true, buf.store count [0], s⟩ := by
  rw [getsChkEnd, if_neg (Nat.not_le.mpr room)]

theorem holdsString_nil (buf : Memory UInt8) : HoldsString (buf.store 0 [0]) [] := by
  exact @Memory.slice_store_self _ buf 0 [0]

theorem holdsString_pieces (buf : Memory UInt8) (b : UInt8) (line : List UInt8)
    : HoldsString (((buf.store 0 [b]).store 1 line).store (line.length + 1) [0])
        (stringOf (b :: line)) := by
  apply holdsString_line
  have front : (buf.store 0 [b]).store 1 line = buf.store 0 (b :: line) :=
    @Memory.store_store_append _ buf 0 [b] line
  have all := @Memory.store_store_append _ buf 0 (b :: line) [0]
  rw [Nat.zero_add, length_cons] at all
  rw [front, all]
  have stored := @Memory.slice_store_self _ buf 0 (b :: line ++ [0])
  rw [length_append] at stored
  exact stored

variable {size : Nat}

/-- The line behind its first byte, which is not its end. -/
theorem GotLine.getsChk {b : UInt8} {line : List UInt8} {s' t : Streambuf W} {r : Nat}
    (outcome : GotLine refills (size - 1) s r line s') (lineEnd : b ≠ Stdio.newline) (positive : 1 ≤ size)
    (fits : size < 2 ^ 64) (buf : Memory UInt8) (same : inputOf refills t = inputOf refills s')
    : GetsChk refills size (b :: inputOf refills s)
        (getsChkEnd size ((r + 1) % 2 ^ 64) ((buf.store 0 [b]).store 1 line) t) := by
  obtain ⟨line', behind⟩ := lineOf_cons lineEnd (inputOf refills s)
  cases outcome with
  | full most stored ret =>
    have zero : (r + 1) % 2 ^ 64 = 0 := by simp [ret]
    rw [zero, getsChkEnd_some positive]
    refine .full ?_ _ rfl rfl
    rw [line', length_cons]
    omega
  | newline room stored ret left =>
    rw [← stored] at room
    rw [← same] at left
    have count : (r + 1) % 2 ^ 64 = line.length + 1 := by omega
    have fits' : line.length + 1 < size := by omega
    rw [count, getsChkEnd_some fits']
    refine .line ?_ (cons_ne_nil _ _) (.inl ?_) _ rfl rfl ?_ (.inl (behind.trans left))
    · rw [line', ← stored]
      exact fits'
    · rw [behind, left]
      exact cons_ne_nil _ _
    · rw [line', ← stored]
      exact holdsString_pieces buf b line
  | ended room stored ret none left =>
    rw [← stored] at room
    rw [← same] at left
    by_cases empty : line.length = 0
    · have zero : (r + 1) % 2 ^ 64 = 0 := by simp [ret, empty]
      have nothing : inputOf refills s = [] :=
        lineOf_nil_of_behind (stored ▸ length_eq_zero_iff.mp empty) none
      rw [zero, getsChkEnd_some positive]
      refine .one ?_ b (by rw [nothing]) lineEnd _ rfl rfl (holdsString_nil _) left
      rw [line', ← stored, length_cons]
      omega
    · have count : (r + 1) % 2 ^ 64 = line.length + 1 := by
        rw [ret, if_neg empty]
        omega
      rw [count, getsChkEnd_some (by omega)]
      refine .line ?_ (cons_ne_nil _ _) (.inr ?_) _ rfl rfl ?_ (.inr ⟨behind.trans none, left⟩)
      · rw [line', ← stored, length_cons]
        omega
      · rw [line', ← stored, length_cons]
        omega
      · rw [line', ← stored]
        exact holdsString_pieces buf b line

/-- `__gets_chk` on any input: what `gets` does, or the failure on a long line. -/
theorem getsChk_line (refill : Refill refills byteValue uflow) (ends : MarksEnd refills uflow)
    (fed : Fed refills s) (flag : s.eof = true → inputOf refills s = [])
    (putback : Int → Streambuf W → Streambuf W) (buf : Memory UInt8) (positive : 1 ≤ size)
    (fits : size < 2 ^ 64)
    : GetsChk refills size (inputOf refills s) (getsChk uflow putback buf size s) := by
  obtain ⟨fed', err, next⟩ := getcOver_next_byte refill fed
  rw [getsChk, if_neg (by omega), getcChk_eq fed]
  rcases next with ⟨none, eof, -, left⟩ | ⟨b, input, read, flag'⟩
  · simp only
    rw [if_pos eof]
    exact .ended none _ rfl rfl left
  · have more : ¬ (getcOver uflow s).1 = eofValue := by
      rw [eofValue]
      omega
    simp only
    rw [if_neg more]
    by_cases lineEnd : b = newline
    · have empty : lineOf (newline :: inputOf refills (getcOver uflow s).2) = []
          ∧ behindLine (newline :: inputOf refills (getcOver uflow s).2)
            = newline :: inputOf refills (getcOver uflow s).2 := by
        simp [lineOf, behindLine]
      rw [if_pos (read.trans (byteValue_newline.mpr lineEnd)), input, lineEnd,
        getsChkEnd_some positive]
      refine .line ?_ (cons_ne_nil _ _) (.inl ?_) _ rfl rfl ?_ (.inl ?_)
      · exact positive
      · exact cons_ne_nil _ _
      · exact holdsString_nil buf
      · exact empty.2
    · have apart : ¬ (getcOver uflow s).1 = newline.toNat :=
        fun same => lineEnd (byteValue_newline.mp (read.symm.trans same))
      rw [if_neg apart, read, ofInt_toNat]
      -- the rest of the line, with the error flag cleared
      have unflagged : s.eof = false := by
        cases eof : s.eof with
        | false => rfl
        | true =>
          have none := flag eof
          rw [input] at none
          cases none
      have clear : Fed refills { (getcOver uflow s).2 with err := false } :=
        ⟨fed'.noRd, fed'.put, fed'.get, fed'.eof, fed'.some_⟩
      obtain ⟨r, line, s', run, err', outcome⟩ := ioGetline_gotLine (n := size - 1) refill ends clear
        (.inl (flag'.trans unflagged)) putback
      have noError : ¬ s'.err = true := by
        rw [err']
        exact Bool.false_ne_true
      rw [run]
      rw [if_neg noError, input]
      exact outcome.getsChk lineEnd positive fits buf rfl

/-! The two functions compared -/

/-- `__gets_chk` stands in for `__gets` on the next line of the input. -/
structure ChecksGets (refills : W → List (List UInt8)) (size : Nat) (input : List UInt8)
    (plain : GetsResult W) (checked : Option (GetsResult W)) : Prop where
  alike : (lineOf input).length < size → ∃ r, checked = some r ∧ r.ret = plain.ret
    ∧ (plain.ret = true → SameString r.buf plain.buf)
    ∧ inputOf refills r.stream = inputOf refills plain.stream
  null : (∃ r, checked = some r ∧ r.ret = false) ↔ plain.ret = false
  fails : size ≤ (lineOf input).length → plain.ret = true → checked = none
  whole : ∀ r, checked = some r → r.ret = true →
    HoldsString r.buf (stringOf (lineOf input)) ∧ LeftOf refills input r.stream

/-- An empty line, or one below the size and `INT_MAX` that is not a last line of one byte other than
null.
-/
def ShortLine (size : Nat) (input : List UInt8) : Prop := lineOf input = []
  ∨ (lineOf input).length < size ∧ (lineOf input).length < getsMax ∧ ∀ b, input = [b] → b = 0

theorem LeftOf.unique {s s' : Streambuf W} (left : LeftOf refills input s)
    (left' : LeftOf refills input s')
    : inputOf refills s = inputOf refills s' := by
  rcases left with behind | ⟨none, nothing⟩
  · rcases left' with behind' | ⟨none, -⟩
    · exact (List.cons.inj (behind.symm.trans behind')).2
    · rw [none] at behind
      cases behind
  · rcases left' with behind' | ⟨-, nothing'⟩
    · rw [none] at behind'
      cases behind'
    · rw [nothing, nothing']

theorem lineOf_singleton {b : UInt8} (other : b ≠ newline) : lineOf [b] = [b] ∧ behindLine [b] = [] :=
  lineOf_cons other []

private theorem checksGets_same {plain r : GetsResult W} (room : (lineOf input).length < size)
    (returns : checked = some r) (ret : r.ret = true) (ret' : plain.ret = true)
    (holds : HoldsString r.buf (stringOf (lineOf input)))
    (holds' : HoldsString plain.buf (stringOf (lineOf input))) (left : LeftOf refills input r.stream)
    (left' : LeftOf refills input plain.stream)
    : ChecksGets refills size input plain checked := by
  refine ⟨fun _ => ⟨r, returns, ret.trans ret'.symm, fun _ => ?_, left.unique left'⟩, ?_,
    fun most => absurd room (Nat.not_lt.mpr most), ?_⟩
  · exact holds.sameString holds' (stringOf_zero _)
  · rw [ret']
    refine iff_of_false ?_ nofun
    rintro ⟨r', returns', null⟩
    rw [returns, Option.some.injEq] at returns'
    rw [← returns', ret] at null
    cases null
  · intro r' returns' _
    rw [returns, Option.some.injEq] at returns'
    rw [← returns']
    exact ⟨holds, left⟩

theorem ChecksGets.not_null {plain r : GetsResult W}
    (checks : ChecksGets refills size input plain checked) (returns : checked = some r)
    (ret : r.ret = true)
    : plain.ret ≠ false := by
  intro null
  obtain ⟨r', returns', null'⟩ := checks.null.mpr null
  rw [returns, Option.some.injEq] at returns'
  rw [← returns', ret] at null'
  cases null'

/-- The line alone decides whether `__gets_chk` does what `gets` does. -/
theorem Gets.checks_iff {plain : GetsResult W} (positive : 1 ≤ size) (plain_ : Gets refills input plain)
    (checked_ : GetsChk refills size input checked)
    : ChecksGets refills size input plain checked ↔ ShortLine size input := by
  cases checked_ with
  | ended none r returns null left =>
    subst none
    refine iff_of_true ?_ (.inl rfl)
    cases plain_ with
    | full most => exact absurd most (by decide)
    | line _ some_ => exact absurd rfl some_
    | ended _ null' left' =>
      refine ⟨fun _ => ⟨r, returns, null.trans null'.symm, fun ret => ?_, left.trans left'.symm⟩,
        iff_of_true ⟨r, returns, null⟩ null', fun most => absurd most (Nat.not_le.mpr positive), ?_⟩
      · rw [null'] at ret
        cases ret
      · intro r' returns' ret
        rw [returns, Option.some.injEq] at returns'
        rw [← returns', null] at ret
        cases ret
  | full most r returns ret =>
    refine iff_of_false (fun checks => ?_) ?_
    · cases plain_ with
      | full _ null => exact checks.not_null returns ret null
      | line _ _ ret' =>
        have none := checks.fails most ret'
        rw [returns] at none
        cases none
      | ended none =>
        rw [none] at most
        exact absurd most (Nat.not_le.mpr positive)
    · rintro (empty | ⟨room, -, -⟩)
      · rw [empty] at most
        exact absurd most (Nat.not_le.mpr positive)
      · exact absurd room (Nat.not_lt.mpr most)
  | line room some_ several r returns ret holds left =>
    cases plain_ with
    | full most null =>
      refine iff_of_false (fun checks => checks.not_null returns ret null) ?_
      rintro (empty | ⟨-, below, -⟩)
      · rw [empty] at most
        exact absurd most (by decide)
      · exact absurd below (Nat.not_lt.mpr most)
    | ended none => exact absurd none some_
    | line room' _ ret' holds' left' =>
      refine iff_of_true (checksGets_same room returns ret ret' holds holds' left left') ?_
      by_cases empty : lineOf input = []
      · exact .inl empty
      · refine .inr ⟨room, room', fun b single => ?_⟩
        subst single
        by_cases lineEnd : b = newline
        · subst lineEnd
          exact absurd (by decide) empty
        · obtain ⟨line, behind⟩ := lineOf_singleton lineEnd
          rw [line, behind] at several
          exact absurd rfl (several.resolve_left (fun more => more rfl))
  | one room b single other r returns ret empty left =>
    subst single
    obtain ⟨line, behind⟩ := lineOf_singleton other
    cases plain_ with
    | full most =>
      rw [line, length_singleton] at most
      exact absurd most (by decide)
    | ended none => cases none
    | line room' _ ret' holds' left' =>
      by_cases zero : b = 0
      · subst zero
        refine iff_of_true (checksGets_same room returns ret ret' ?_ holds' (.inr ⟨behind, left⟩) left')
          (.inr ⟨room, room', fun b same => (List.cons.inj same).1.symm⟩)
        exact empty
      · refine iff_of_false (fun checks => ?_) ?_
        · obtain ⟨r', returns', -, same, -⟩ := checks.alike room
          rw [returns, Option.some.injEq] at returns'
          subst returns'
          have hidden := (same ret' [] nofun).mp empty
          have bytes := hidden.unique holds' nofun (stringOf_zero _)
          rw [line] at bytes
          simp [stringOf, zero] at bytes
        · rintro (none | ⟨-, -, null⟩)
          · rw [line] at none
            cases none
          · exact zero (null b rfl)

/-- `__gets_chk` behaves as the claimed stand-in for `__gets` exactly on short lines. -/
theorem getsChk_iff {uflow : Streambuf W → Int × Streambuf W} {s : Streambuf W} {size : Nat}
    (refill : Refill refills byteValue uflow) (ends : MarksEnd refills uflow) (fed : Fed refills s)
    (flag : s.eof = true → inputOf refills s = []) (putback : Int → Streambuf W → Streambuf W)
    (buf : Memory UInt8) (positive : 1 ≤ size) (fits : size < 2 ^ 64)
    : ChecksGets refills size (inputOf refills s) (gets uflow putback buf s)
        (getsChk uflow putback buf size s)
      ↔ ShortLine size (inputOf refills s) :=
  (gets_line refill ends fed flag putback buf).checks_iff positive
    (getsChk_line refill ends fed flag putback buf positive fits)

theorem getsChk_iff_short
    : ChecksGets id 4 [97, 98, 10, 99]
        (gets refillByte (fun _ s => s) (fun _ => 0) (refillStream [97] [[98, 10], [99]]))
        (getsChk refillByte (fun _ s => s) (fun _ => 0) 4 (refillStream [97] [[98, 10], [99]]))
      ↔ ShortLine 4 [97, 98, 10, 99] :=
  getsChk_iff (s := refillStream [97] [[98, 10], [99]]) refillByte_refill refillByte_marksEnd
    (refillStream_fed (by decide)) nofun (fun _ s => s) (fun _ => 0) (by decide) (by decide)

/-- A last line of one letter: `gets` returns it, and the checked variant an empty string. -/
theorem getsChk_hides
    : ¬ ChecksGets id 8 [97] (gets refillByte (fun _ s => s) (fun _ => 0) (refillStream [] [[97]]))
        (getsChk refillByte (fun _ s => s) (fun _ => 0) 8 (refillStream [] [[97]])) := by
  have plain := gets_line (s := refillStream [] [[97]]) refillByte_refill refillByte_marksEnd
    (refillStream_fed (by decide)) nofun (fun _ s => s) (fun _ => 0)
  have checked := getsChk_line (s := refillStream [] [[97]]) refillByte_refill
    refillByte_marksEnd (refillStream_fed (by decide)) nofun (fun _ s => s) (fun _ => 0)
    (by decide : 1 ≤ 8) (by decide)
  intro checks
  rcases (plain.checks_iff (by decide) checked).mp checks with empty | ⟨-, -, null⟩
  · exact absurd empty (by decide)
  · exact absurd (null 97 rfl) (by decide)

end Nglibc.Stdio
