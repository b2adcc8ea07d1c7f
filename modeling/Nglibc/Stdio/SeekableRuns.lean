import Nglibc.Stdio.SeekableOutput

/-! Runs of calls on a stream over a seekable file, against the same calls on the file itself. -/

namespace Nglibc.Stdio

variable {W : Type} {file : W → OpenFile UInt8} {virt : Jumptable W} {s : Streambuf W}

inductive FileCall where
  | fread (dest : Memory UInt8) (size nmemb : Nat)
  | ungetc (b : UInt8)
  | putc (c : Int)
  | fwrite (src : List UInt8) (size nmemb : Nat)
  | fflush
  | fseek (off : Int) (whence : Whence)
  | ftell

/-- What a call returns. The result of `putc` is taken as a byte, as it may be a plain `char`. -/
inductive Answer where
  | items (n : Nat) (dest : Memory UInt8)
  | byte (b : UInt8)
  | number (n : Int)

/-- A call on a stream. The fuel of `fread` is one more than the bytes it is asked for. -/
def callStream (virt : Jumptable W) : FileCall → Streambuf W → Option (Answer × Streambuf W)
  | .fread dest size nmemb, s =>
    (freadUnlocked virt (size * nmemb + 1) dest size nmemb s).map fun (n, dest, s) =>
      (.items n dest, s)
  | .ungetc b, s =>
    let (n, s) := ungetc virt b.toNat s
    some (.number n, s)
  | .putc c, s =>
    let (n, s) := putc virt.write c s
    some (.byte (UInt8.ofInt n), s)
  | .fwrite src size nmemb, s =>
    let (n, s) := fwrite virt.write src size nmemb s
    some (.number n, s)
  | .fflush, s =>
    let (n, s) := fflushx virt s
    some (.number n, s)
  | .fseek off whence, s =>
    let (n, s) := fseekoUnlocked virt off (some whence) s
    some (.number n, s)
  | .ftell, s =>
    let (n, s) := ftelloUnlocked virt s
    some (.number n, s)

def callStreamAll (virt : Jumptable W) : List FileCall → Streambuf W → Option (List Answer × Streambuf W)
  | [], s => some ([], s)
  | call :: calls, s => do
    let (answer, s) ← callStream virt call s
    let (answers, s) ← callStreamAll virt calls s
    return (answer :: answers, s)

/-- What the calls since the last `fflush` or `fseek` did. -/
inductive Mode where
  | neutral
  | reading
  | writing
  deriving DecidableEq

/-- The file of an unbuffered run, and the byte that was just read. -/
structure Unbuffered where
  file : OpenFile UInt8
  mode : Mode
  last : Option UInt8

def Unbuffered.call (o : Opening) (u : Unbuffered) : FileCall → Answer × Unbuffered
  | .fread dest size nmemb =>
    let bytes := u.file.ahead (size * nmemb)
    (.items (bytes.length / size) (dest.store 0 bytes),
      { file := u.file.advance bytes.length, mode := .reading, last := bytes.getLast?.or u.last })
  | .ungetc b =>
    if o.room then
      (.number b.toNat,
        { u with file := { u.file with pos := u.file.pos - 1 }, last := none })
    else (.number eofValue, u)
  | .putc c =>
    (.byte (UInt8.ofInt c),
      { file := u.file.write [UInt8.ofInt c], mode := .writing, last := none })
  | .fwrite src size nmemb =>
    (.number (if size ≠ 0 then nmemb else 0 : Nat),
      { file := u.file.write src, mode := .writing, last := none })
  | .fflush => (.number 0, { u with mode := .neutral, last := none })
  | .fseek off whence =>
    (.number 0,
      { file := { u.file with pos := (seekTarget u.file off whence).toNat }
        mode := .neutral
        last := none })
  | .ftell => (.number u.file.pos, u)

def Unbuffered.callAll (o : Opening) : List FileCall → Unbuffered → List Answer × Unbuffered
  | [], u => ([], u)
  | call :: calls, u =>
    ((u.call o call).1 :: (callAll o calls (u.call o call).2).1,
      (callAll o calls (u.call o call).2).2)

/-- A call that keeps reads and writes apart, reads and writes what the stream is open for, pushes back
the byte just read, and does not seek before the start.
-/
def Unbuffered.Allows (o : Opening) (u : Unbuffered) : FileCall → Prop
  | .fread _ size nmemb => o.noRd = false ∧ u.mode ≠ .writing ∧ size * nmemb < 2 ^ 64
  | .ungetc b => u.last = some b
  | .putc _ => o.noWr = false ∧ u.mode ≠ .reading
  | .fwrite src size nmemb =>
    o.noWr = false ∧ u.mode ≠ .reading ∧ src.length = size * nmemb ∧ size * nmemb < 2 ^ 64
  | .fflush => True
  | .fseek off whence => 0 ≤ seekTarget u.file off whence
  | .ftell => True

def Unbuffered.AllowsAll (o : Opening) : List FileCall → Unbuffered → Prop
  | [], _ => True
  | call :: calls, u => u.Allows o call ∧ AllowsAll o calls (u.call o call).2

instance (o : Opening) (u : Unbuffered) (call : FileCall) : Decidable (u.Allows o call) :=
  match call with
  | .fread _ size nmemb =>
    inferInstanceAs (Decidable (o.noRd = false ∧ u.mode ≠ .writing ∧ size * nmemb < 2 ^ 64))
  | .ungetc b => inferInstanceAs (Decidable (u.last = some b))
  | .putc _ => inferInstanceAs (Decidable (o.noWr = false ∧ u.mode ≠ .reading))
  | .fwrite src size nmemb =>
    inferInstanceAs
      (Decidable
        (o.noWr = false ∧ u.mode ≠ .reading ∧ src.length = size * nmemb ∧ size * nmemb < 2 ^ 64))
  | .fflush => inferInstanceAs (Decidable True)
  | .fseek off whence => inferInstanceAs (Decidable (0 ≤ seekTarget u.file off whence))
  | .ftell => inferInstanceAs (Decidable True)

instance decidableAllowsAll (o : Opening)
    : (calls : List FileCall) → (u : Unbuffered) → Decidable (u.AllowsAll o calls)
  | [], _ => inferInstanceAs (Decidable True)
  | call :: calls, u =>
    have := decidableAllowsAll o calls (u.call o call).2
    inferInstanceAs (Decidable (u.Allows o call ∧ Unbuffered.AllowsAll o calls (u.call o call).2))

def SideOf (file : W → OpenFile UInt8) (s : Streambuf W) (f : OpenFile UInt8) : Mode → Prop
  | .neutral => Settled file s f
  | .reading => ReadSide file s f
  | .writing => WriteSide file s f

/-- The byte before the position, which can be pushed back. -/
structure JustRead (s : Streambuf W) (u : Unbuffered) (b : UInt8) : Prop where
  mode : u.mode = .reading
  ready : Unreadable s
  behind : 0 < u.file.pos
  byte : u.file.content[u.file.pos - 1]? = some b

structure AgreesWith (file : W → OpenFile UInt8) (s : Streambuf W) (u : Unbuffered) : Prop where
  side : SideOf file s u.file u.mode
  last : ∀ b, u.last = some b → JustRead s u b

variable {u : Unbuffered}

theorem AgreesWith.readSide (agrees : AgreesWith file s u) (mode : u.mode ≠ .writing)
    : ReadSide file s u.file := by
  have side := agrees.side
  match kind : u.mode with
  | .neutral =>
    rw [kind] at side
    exact Settled.readSide side
  | .reading =>
    rw [kind] at side
    exact side
  | .writing => exact absurd kind mode

theorem AgreesWith.writeSide (agrees : AgreesWith file s u) (mode : u.mode ≠ .reading)
    : WriteSide file s u.file := by
  have side := agrees.side
  match kind : u.mode with
  | .neutral =>
    rw [kind] at side
    exact Settled.writeSide side
  | .reading => exact absurd kind mode
  | .writing =>
    rw [kind] at side
    exact side

/-- The two sides on which a stream may be. -/
theorem AgreesWith.sides (agrees : AgreesWith file s u)
    : ReadSide file s u.file ∨ WriteSide file s u.file := by
  by_cases mode : u.mode = .writing
  · exact Or.inr (agrees.writeSide (by rw [mode]; exact nofun))
  · exact Or.inl (agrees.readSide mode)

private theorem ahead_last {f : OpenFile UInt8} {n : Nat} {b : UInt8} (last : (f.ahead n).getLast? = some b)
    : 0 < (f.advance (f.ahead n).length).pos
      ∧ f.content[(f.advance (f.ahead n).length).pos - 1]? = some b := by
  have some_ : 0 < (f.ahead n).length := by
    apply List.length_pos_iff.mpr
    intro none
    rw [none] at last
    cases last
  have bound := @OpenFile.length_ahead_le _ f n
  have at_ : (f.advance (f.ahead n).length).pos - 1 = f.pos + ((f.ahead n).length - 1) := by
    rw [OpenFile.advance_pos]
    omega
  constructor
  · rw [OpenFile.advance_pos]
    omega
  · rw [List.getLast?_eq_getElem?] at last
    obtain ⟨k, length⟩ : ∃ k, (f.ahead n).length - 1 = k := ⟨_, rfl⟩
    rw [length] at at_ last
    rw [OpenFile.ahead, List.getElem?_take_of_lt (by omega), List.getElem?_drop] at last
    rw [at_]
    exact last

def Answers (file : W → OpenFile UInt8) (virt : Jumptable W) (s : Streambuf W) (u : Unbuffered)
    (call : FileCall)
    : Prop :=
  ∃ s', callStream virt call s = some ((u.call s.opening call).1, s')
    ∧ AgreesWith file s' (u.call s.opening call).2 ∧ s'.opening = s.opening

section

variable (agrees : AgreesWith file s u)
include agrees

theorem AgreesWith.fread (seekable : SeekableFile file virt) {dest : Memory UInt8} {size nmemb : Nat}
    (allows : u.Allows s.opening (.fread dest size nmemb))
    : Answers file virt s u (.fread dest size nmemb) := by
  obtain ⟨s', ran, side', opening, ready⟩ :=
    (agrees.readSide allows.2.1).fread seekable allows.1 allows.2.2 (Nat.lt_succ_self _) dest
  refine ⟨s', ?_, ⟨side', fun b last => ?_⟩, opening⟩
  · rw [callStream, ran]
    rfl
  · simp only [Unbuffered.call] at last
    cases read : (u.file.ahead (size * nmemb)).getLast? with
    | some b' =>
      rw [read, Option.some_or] at last
      rw [last] at read
      obtain ⟨behind, byte⟩ := ahead_last read
      refine ⟨rfl, ready (Or.inl fun none => ?_), behind, byte⟩
      rw [none] at read
      cases read
    | none =>
      rw [read] at last
      have earlier := agrees.last b last
      have none := List.getLast?_eq_none_iff.mp read
      refine ⟨rfl, ready (Or.inr earlier.ready), ?_, ?_⟩
      · simp only [Unbuffered.call, none]
        exact earlier.behind
      · simp only [Unbuffered.call, none]
        exact earlier.byte

theorem AgreesWith.ungetc {b : UInt8} (allows : u.Allows s.opening (.ungetc b))
    : Answers file virt s u (.ungetc b) := by
  have read := agrees.last b allows
  have side := agrees.readSide (by rw [read.mode]; exact nofun)
  rcases side.ungetc read.ready read.behind read.byte virt with
    ⟨none, refused⟩ | ⟨room, s', pushed, side', opening⟩
  · have stays : u.call s.opening (.ungetc b) = (.number eofValue, u) := by
      simp only [Unbuffered.call, none, Bool.false_eq_true, if_false]
    rw [Answers, stays]
    refine ⟨s, ?_, agrees, rfl⟩
    simp only [callStream, refused]
  · have back : u.call s.opening (.ungetc b)
        = (.number b.toNat, ⟨{ u.file with pos := u.file.pos - 1 }, .reading, none⟩) := by
      simp only [Unbuffered.call, room, if_true, read.mode]
    rw [Answers, back]
    refine ⟨s', ?_, ⟨side', nofun⟩, opening⟩
    simp only [callStream, pushed]

section

variable (seekable : SeekableFile file virt)
include seekable

theorem AgreesWith.putc {c : Int} (allows : u.Allows s.opening (.putc c))
    : Answers file virt s u (.putc c) := by
  obtain ⟨n, s', ran, byte, side', opening⟩ := (agrees.writeSide allows.2).putc seekable allows.1 c
  refine ⟨s', ?_, ⟨side', nofun⟩, opening⟩
  simp only [callStream, ran, byte]
  rfl

theorem AgreesWith.fwrite {src : List UInt8} {size nmemb : Nat}
    (allows : u.Allows s.opening (.fwrite src size nmemb))
    : Answers file virt s u (.fwrite src size nmemb) := by
  obtain ⟨s', ran, side', opening⟩ := (agrees.writeSide allows.2.1).fwrite seekable allows.1 allows.2.2.1
    allows.2.2.2
  refine ⟨s', ?_, ⟨side', nofun⟩, opening⟩
  simp only [callStream, ran]
  rfl

theorem AgreesWith.fflush
    : Answers file virt s u .fflush := by
  have settles : ∃ s', fflushx virt s = (0, s') ∧ Settled file s' u.file ∧ s'.opening = s.opening := by
    rcases agrees.sides with side | side
    · exact side.fflushx seekable
    · exact side.fflushx seekable
  obtain ⟨s', ran, settled, opening⟩ := settles
  refine ⟨s', ?_, ⟨settled, nofun⟩, opening⟩
  simp only [callStream, ran]
  rfl

theorem AgreesWith.fseek {off : Int} {whence : Whence} (allows : u.Allows s.opening (.fseek off whence))
    : Answers file virt s u (.fseek off whence) := by
  have settles : ∃ s', fseekoUnlocked virt off (some whence) s = (0, s')
      ∧ Settled file s' { u.file with pos := (seekTarget u.file off whence).toNat }
      ∧ s'.opening = s.opening := by
    rcases agrees.sides with side | side
    · exact side.fseeko seekable allows
    · exact side.fseeko seekable allows
  obtain ⟨s', ran, settled, opening⟩ := settles
  refine ⟨s', ?_, ⟨settled, nofun⟩, opening⟩
  simp only [callStream, ran]
  rfl

end

theorem AgreesWith.moved {cookie : W} (same : file cookie = file s.cookie)
    : AgreesWith file { s with cookie := cookie } u := by
  refine ⟨?_, fun b last => ?_⟩
  · have side := agrees.side
    match kind : u.mode with
    | .neutral =>
      rw [kind] at side
      exact Settled.moved side same
    | .reading =>
      rw [kind] at side
      exact ReadSide.moved side same
    | .writing =>
      rw [kind] at side
      exact WriteSide.moved side same
  · have read := agrees.last b last
    exact ⟨read.mode, ⟨read.ready.mode, read.ready.low⟩, read.behind, read.byte⟩

theorem AgreesWith.ftell (seekable : SeekableFile file virt)
    : Answers file virt s u .ftell := by
  have tells : ∃ cookie, ftelloUnlocked virt s = ((u.file.pos : Int), { s with cookie := cookie })
      ∧ file cookie = file s.cookie := by
    rcases agrees.sides with side | side
    · exact side.ftello seekable
    · exact side.ftello seekable
  obtain ⟨cookie, ran, same⟩ := tells
  refine ⟨{ s with cookie := cookie }, ?_, agrees.moved same, rfl⟩
  simp only [callStream, ran]
  rfl

theorem AgreesWith.call (seekable : SeekableFile file virt) {call : FileCall}
    (allows : u.Allows s.opening call)
    : Answers file virt s u call := by
  cases call with
  | fread dest size nmemb => exact agrees.fread seekable allows
  | ungetc b => exact agrees.ungetc allows
  | putc c => exact agrees.putc seekable allows
  | fwrite src size nmemb => exact agrees.fwrite seekable allows
  | fflush => exact agrees.fflush seekable
  | fseek off whence => exact agrees.fseek seekable allows
  | ftell => exact agrees.ftell seekable

end

/-- A run answers as the unbuffered one does. By induction on its calls. -/
theorem AgreesWith.callAll (seekable : SeekableFile file virt) {o : Opening} {calls : List FileCall}
    (agrees : AgreesWith file s u) (opened : s.opening = o)
    (allows : u.AllowsAll o calls)
    : ∃ s', callStreamAll virt calls s = some ((u.callAll o calls).1, s')
      ∧ AgreesWith file s' (u.callAll o calls).2 := by
  induction calls generalizing s u with
  | nil => exact ⟨s, rfl, agrees⟩
  | cons call calls ih =>
    obtain ⟨t, first, agrees', opening⟩ := agrees.call seekable (opened ▸ allows.1)
    rw [opened] at first agrees' opening
    obtain ⟨s', later, agrees''⟩ := ih agrees' opening allows.2
    refine ⟨s', ?_, agrees''⟩
    rw [callStreamAll, first]
    simp only [Option.bind_eq_bind, Option.bind_some, later]
    rfl

/-- A run of reads, pushbacks, writes, flushes and seeks of a stream that was just opened answers as the
unbuffered run does. The file has the content of that run, once it has what is still pending behind
writes.
-/
theorem stream_unbuffered (seekable : SeekableFile file virt) {f : OpenFile UInt8}
    (settled : Settled file s f) {calls : List FileCall}
    (allows : Unbuffered.AllowsAll s.opening calls ⟨f, .neutral, none⟩)
    : ∃ s', callStreamAll virt calls s
        = some ((Unbuffered.callAll s.opening calls ⟨f, .neutral, none⟩).1, s')
      ∧ ((file s'.cookie).write s'.pending).content
        = (Unbuffered.callAll s.opening calls ⟨f, .neutral, none⟩).2.file.content
      ∧ ((Unbuffered.callAll s.opening calls ⟨f, .neutral, none⟩).2.mode ≠ .writing →
        s'.pending = []) := by
  have agrees : AgreesWith file s ⟨f, .neutral, none⟩ := ⟨settled, nofun⟩
  obtain ⟨s', ran, agrees'⟩ := agrees.callAll seekable rfl allows
  refine ⟨s', ran, ?_, fun mode => (agrees'.readSide mode).idle.pending⟩
  rcases agrees'.sides with side | side
  · rw [side.idle.pending, side.logical]
    rfl
  · rw [← side.logical]

/-- The bytes that a reader of a file preloads behind those it was asked for. -/
def preloaded (f : OpenFile UInt8) (len room : Nat) : List UInt8 :=
  if (f.ahead len).length = len then (f.advance len).ahead room else []

/-- The functions of a file, whose reader fills the buffer of the stream. -/
def fileTable : Jumptable (OpenFile UInt8) where
  read s len :=
    let bytes := s.cookie.ahead len
    let more := preloaded s.cookie len (s.bufend - s.buf)
    (bytes.length, bytes, { s with
      eof := bytes.isEmpty
      gptr := s.buf
      egptr := s.buf + more.length
      memory := s.memory.store s.buf more
      cookie := s.cookie.advance (bytes.length + more.length) })
  write s bytes :=
    (bytes.length, Streambuf.fsetwrite { s with cookie := s.cookie.write (s.pending ++ bytes) })
  seek s off whence :=
    (0, seekTarget s.cookie off whence,
      { s with cookie := { s.cookie with pos := (seekTarget s.cookie off whence).toNat } })

theorem preloaded_ahead (f : OpenFile UInt8) (len room : Nat)
    : f.ahead len ++ preloaded f len room <+: f.content.drop f.pos := by
  have front : f.ahead len <+: f.content.drop f.pos := List.take_prefix _ _
  unfold preloaded
  split
  next all =>
    have both := OpenFile.ahead_add front (n := room)
    rw [all] at both
    rw [← both]
    exact List.take_prefix _ _
  next =>
    rw [List.append_nil]
    exact front

theorem length_preloaded (f : OpenFile UInt8) (len room : Nat) : (preloaded f len room).length ≤ room := by
  unfold preloaded
  split
  · exact OpenFile.length_ahead_le
  · exact Nat.zero_le _

/-- The concrete file meets the contract of a seekable one. -/
theorem fileTable_seekable : SeekableFile id fileTable where
  read s len buffer empty flag some_ := by
    have unread : Streambuf.unread (fileTable.read s len).2.2
        = preloaded s.cookie len (s.bufend - s.buf) := by
      simp only [fileTable, Streambuf.unread]
      rw [Nat.add_sub_cancel_left, Memory.slice_store_self]
    have ended (none : s.cookie.ahead len = []) : s.cookie.content.length ≤ s.cookie.pos := by
      rw [OpenFile.ahead, List.take_eq_nil_iff, List.drop_eq_nil_iff] at none
      exact none.resolve_left (Nat.ne_of_gt some_)
    have short (fewer : (s.cookie.ahead len).length < len)
        : preloaded s.cookie len (s.bufend - s.buf) = [] := if_neg (Nat.ne_of_lt fewer)
    refine ⟨rfl, OpenFile.length_ahead_le, ?_, ?_, ended, ?_, ?_, ?_, Nat.le_refl _, ?_, rfl⟩
    · rw [unread]
      exact preloaded_ahead _ _ _
    · rw [unread]
      rfl
    · intro fewer
      rw [unread]
      exact short fewer
    · intro last
      have none : s.cookie.ahead len = [] := List.isEmpty_iff.mp last
      have more : preloaded s.cookie len (s.bufend - s.buf) = [] := by
        apply short
        rw [none]
        exact some_
      refine ⟨?_, unread.trans more⟩
      simp only [fileTable, none, more]
      exact ended none
    · exact Nat.le_add_right _ _
    · have most := length_preloaded s.cookie len (s.bufend - s.buf)
      simp only [fileTable]
      omega
  write s bytes _ := ⟨rfl, rfl, rfl⟩
  seek s off whence _ := ⟨Int.le_refl 0, rfl, rfl, rfl⟩

def alphabetStream : Streambuf (OpenFile UInt8) :=
  Streambuf.finit false false true false (fun _ => 0) ⟨[97, 98, 99, 100, 101, 102], 0⟩ 16 4

/-- Two bytes are read and one is pushed back, one is skipped, three are written and the last two of them
sought.
-/
def alphabetCalls : List FileCall :=
  [.fread (fun _ => 0) 1 2, .ungetc 98, .ftell, .fseek 1 .seekCur, .putc 88, .fwrite [89, 10] 2 1, .ftell,
    .fseek (-2) .seekCur, .ftell]

theorem stream_unbuffered_alphabet
    : ∃ s', callStreamAll fileTable alphabetCalls alphabetStream
        = some ([.items 2 (Memory.store (fun _ => 0) 0 [97, 98]), .number 98, .number 1, .number 0,
            .byte 88, .number 1, .number 5, .number 0, .number 3], s')
      ∧ s'.cookie.content = [97, 98, 88, 89, 10, 102] := by
  have settled : Settled id alphabetStream ⟨[97, 98, 99, 100, 101, 102], 0⟩ :=
    ⟨⟨rfl, by decide, nofun⟩, rfl, rfl, ⟨rfl, rfl, rfl⟩, rfl, nofun⟩
  have allows : Unbuffered.AllowsAll alphabetStream.opening alphabetCalls
      ⟨⟨[97, 98, 99, 100, 101, 102], 0⟩, .neutral, none⟩ := by decide
  obtain ⟨s', ran, content, idle⟩ := stream_unbuffered fileTable_seekable settled allows
  rw [idle nofun] at content
  exact ⟨s', ran, content⟩

end Nglibc.Stdio
