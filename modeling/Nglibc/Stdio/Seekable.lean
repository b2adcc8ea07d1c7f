import Nglibc.Lib.OpenFile
import Nglibc.Stdio.FreadAnswers
import Nglibc.Stdio.Output

/-! Streams on a seekable file: where the file stands for what is read, pushed back, written, flushed and
sought.
-/

namespace Nglibc.Stdio

open List

variable {W : Type} {file : W → OpenFile UInt8} {virt : Jumptable W}

/-! The functions of the cookie -/

def seekTarget (f : OpenFile UInt8) (off : Int) : Whence → Int
  | .seekSet => off
  | .seekCur => f.pos + off
  | .seekEnd => f.content.length + off

/-- A read hands out the next bytes and may preload the get area with those that follow. It stores none
only at the end, sets the end flag only there, and preloads nothing if it stores fewer than asked for.
-/
structure ReadsFile (file : W → OpenFile UInt8) (s : Streambuf W) (len : Nat) (n : Int)
    (bytes : List UInt8) (s' : Streambuf W)
    : Prop where
  count : n = bytes.length
  most : bytes.length ≤ len
  order : bytes ++ s'.unread <+: (file s.cookie).content.drop (file s.cookie).pos
  moved : file s'.cookie = (file s.cookie).advance (bytes.length + s'.unread.length)
  some_ : bytes = [] → (file s.cookie).content.length ≤ (file s.cookie).pos
  short : bytes.length < len → s'.unread = []
  eof : s'.eof = true → (file s'.cookie).content.length ≤ (file s'.cookie).pos ∧ s'.unread = []
  get : s'.gptr ≤ s'.egptr
  low : s.buf ≤ s'.gptr
  high : s'.egptr ≤ s.bufend
  kept : s' = { s with
    eof := s'.eof, gptr := s'.gptr, egptr := s'.egptr, memory := s'.memory, cookie := s'.cookie }

/-- A write stores what is pending and its bytes, and empties the put area. -/
structure WritesFile (file : W → OpenFile UInt8) (s : Streambuf W) (bytes : List UInt8) (n : Int)
    (s' : Streambuf W)
    : Prop where
  all : n = bytes.length
  stored : file s'.cookie = (file s.cookie).write (s.pending ++ bytes)
  kept : s' = Streambuf.fsetwrite { s with cookie := s'.cookie }

structure SeeksFile (file : W → OpenFile UInt8) (s : Streambuf W) (target ret pos : Int)
    (s' : Streambuf W)
    : Prop where
  fine : 0 ≤ ret
  pos : pos = target
  moved : file s'.cookie = { file s.cookie with pos := target.toNat }
  kept : s' = { s with cookie := s'.cookie }

/-- The functions of a seekable file, none of which fails. -/
structure SeekableFile (file : W → OpenFile UInt8) (virt : Jumptable W) : Prop where
  read : ∀ s len, s.buf ≤ s.bufend → s.gptr = s.egptr → s.eof = false → 0 < len →
    ReadsFile file s len (virt.read s len).1 (virt.read s len).2.1 (virt.read s len).2.2
  write : ∀ s bytes, s.pending ++ bytes ≠ [] →
    WritesFile file s bytes (virt.write s bytes).1 (virt.write s bytes).2
  seek : ∀ s off whence, 0 ≤ seekTarget (file s.cookie) off whence →
    SeeksFile file s (seekTarget (file s.cookie) off whence) (virt.seek s off whence).1
      (virt.seek s off whence).2.1 (virt.seek s off whence).2.2

/-! A stream and its logical file -/

/-- How a stream was opened: what it is not for, and whether it has a buffer. -/
structure Opening where
  noRd : Bool
  noWr : Bool
  room : Bool

def Streambuf.opening (s : Streambuf W) : Opening where
  noRd := s.noRd
  noWr := s.noWr
  room := decide (s.buf ≠ 0)

structure Usable (s : Streambuf W) : Prop where
  app : s.app = false
  buffer : s.buf ≤ s.bufend
  null : s.buf = 0 → s.bufend = 0

structure PutIdle (s : Streambuf W) : Prop where
  pbase : s.pbase = 0
  pptr : s.pptr = 0
  epptr : s.epptr = 0

/-- A stream that may be read from: the descriptor is ahead of the logical file `f` by the bytes of the
get area.
-/
structure ReadSide (file : W → OpenFile UInt8) (s : Streambuf W) (f : OpenFile UInt8) : Prop where
  usable : Usable s
  idle : PutIdle s
  get : s.gptr ≤ s.egptr
  low : s.egptr ≠ 0 → s.buf ≤ s.gptr + 1
  high : s.egptr ≤ s.bufend
  mode : s.curWr = true → s.egptr = 0
  logical : file s.cookie = f.advance s.unread.length
  order : s.unread <+: f.content.drop f.pos
  eof : s.eof = true → f.content.length ≤ f.pos ∧ s.unread = []

/-- A stream that may be written to: the logical file has what is pending, too. -/
structure WriteSide (file : W → OpenFile UInt8) (s : Streambuf W) (f : OpenFile UInt8) : Prop where
  usable : Usable s
  gptr : s.gptr = 0
  egptr : s.egptr = 0
  put : PutIdle s
    ∨ s.curWr = true ∧ s.pbase = s.buf ∧ s.buf ≤ s.pptr ∧ s.pptr ≤ s.bufend ∧ s.epptr = s.bufend
  logical : f = (file s.cookie).write s.pending
  eof : s.eof = true → (file s.cookie).content.length ≤ (file s.cookie).pos

variable {s : Streambuf W} {f : OpenFile UInt8}

theorem PutIdle.pending (idle : PutIdle s) : s.pending = [] := by
  rw [Streambuf.pending, Streambuf.fpending, if_neg (not_not_intro idle.epptr), Memory.slice_zero]

theorem unread_nil (empty : s.gptr = s.egptr) : s.unread = [] := by
  rw [Streambuf.unread, empty, Nat.sub_self, Memory.slice_zero]

/-- A stream without bytes in its areas, so that the file is the logical one. -/
structure Settled (file : W → OpenFile UInt8) (s : Streambuf W) (f : OpenFile UInt8) : Prop where
  usable : Usable s
  gptr : s.gptr = 0
  egptr : s.egptr = 0
  idle : PutIdle s
  at_ : file s.cookie = f
  eof : s.eof = true → f.content.length ≤ f.pos

theorem Settled.readSide (settled : Settled file s f) : ReadSide file s f := by
  have unread : s.unread = [] := unread_nil (settled.gptr.trans settled.egptr.symm)
  refine ⟨settled.usable, settled.idle, ?_, fun some_ => absurd settled.egptr some_, ?_,
    fun _ => settled.egptr, ?_, ?_, fun ended => ⟨settled.eof ended, unread⟩⟩
  · rw [settled.gptr]
    exact Nat.zero_le _
  · rw [settled.egptr]
    exact Nat.zero_le _
  · rw [unread, settled.at_]
    rfl
  · rw [unread]
    exact nil_prefix

theorem Settled.writeSide (settled : Settled file s f) : WriteSide file s f := by
  refine ⟨settled.usable, settled.gptr, settled.egptr, .inl settled.idle, ?_,
    fun ended => settled.at_ ▸ settled.eof ended⟩
  rw [settled.idle.pending, settled.at_, OpenFile.write_nil]

/-! Reading -/

/-- A stream whose last byte read can be pushed back, if it has a buffer. -/
structure Unreadable (s : Streambuf W) : Prop where
  mode : s.curWr = false
  low : s.buf ≤ s.gptr

theorem ReadSide.toread (side : ReadSide file s f) (readable : s.noRd = false) (empty : s.unread = [])
    (write : WriteFn W)
    : ∃ t, s.toread write = (if s.eof then eofValue else 0, t) ∧ ReadSide file t f ∧ t.gptr = t.egptr
      ∧ Unreadable t ∧ t.eof = s.eof ∧ t.opening = s.opening := by
  have same : s.pptr = s.pbase := side.idle.pptr.trans side.idle.pbase.symm
  refine ⟨{ s with
    pptr := 0, pbase := 0, epptr := 0, curWr := false, gptr := s.bufend, egptr := s.bufend }, ?_, ?_,
    rfl, ⟨rfl, side.usable.buffer⟩, rfl, rfl⟩
  · simp [Streambuf.toread, same, readable]
  · have unread : Streambuf.unread { s with
        pptr := 0, pbase := 0, epptr := 0, curWr := false, gptr := s.bufend, egptr := s.bufend } = [] :=
      unread_nil rfl
    have logical := side.logical
    have eof := side.eof
    rw [empty] at logical eof
    refine ⟨⟨side.usable.app, side.usable.buffer, side.usable.null⟩,
      ⟨rfl, rfl, rfl⟩, le_rfl, fun _ => Nat.le_succ_of_le side.usable.buffer, le_rfl, nofun,
      ?_, ?_, fun ended => ⟨(eof ended).1, unread⟩⟩
    · rw [unread]
      exact logical
    · rw [unread]
      exact nil_prefix

/-- Bytes taken from the get area. -/
theorem ReadSide.take (side : ReadSide file s f) {k : Nat} (inside : k ≤ s.egptr - s.gptr)
    : ReadSide file { s with gptr := s.gptr + k } (f.advance k)
      ∧ f.ahead k = s.memory.slice s.gptr k := by
  have get := side.get
  have later : s.unread = s.memory.slice s.gptr k ++ Streambuf.unread { s with gptr := s.gptr + k } := by
    have width : s.egptr - s.gptr = k + (s.egptr - (s.gptr + k)) := by omega
    simp only [Streambuf.unread]
    rw [width, Memory.slice_add]
  have length : (s.memory.slice s.gptr k).length = k := Memory.length_slice
  obtain ⟨rest, split⟩ := side.order
  have front : s.memory.slice s.gptr k <+: f.content.drop f.pos := by
    rw [← split, later, append_assoc]
    exact prefix_append _ _
  have ahead := OpenFile.ahead_of_prefix front
  rw [length] at ahead
  refine ⟨⟨⟨side.usable.app, side.usable.buffer, side.usable.null⟩,
    ⟨side.idle.pbase, side.idle.pptr, side.idle.epptr⟩, by simp only; omega,
    ?_, side.high, side.mode, ?_, ?_, ?_⟩, ahead⟩
  · intro some_
    have low := side.low some_
    simp only
    omega
  · have total := side.logical
    rw [later, length_append, length] at total
    rw [OpenFile.advance_advance]
    exact total
  · have drop : (f.advance k).content.drop (f.advance k).pos
        = Streambuf.unread { s with gptr := s.gptr + k } ++ rest := by
      rw [OpenFile.advance_content, OpenFile.advance_pos, ← drop_drop, ← split, later,
        append_assoc, drop_left' length]
    rw [drop]
    exact prefix_append _ _
  · intro ended
    obtain ⟨last, empty⟩ := side.eof ended
    rw [empty] at later
    obtain ⟨-, empty'⟩ := append_eq_nil_iff.mp later.symm
    exact ⟨Nat.le_trans last (Nat.le_add_right _ _), empty'⟩

/-- A read from an empty get area. -/
theorem ReadsFile.side {len : Nat} {n : Int} {bytes : List UInt8} {s' : Streambuf W}
    (reads : ReadsFile file s len n bytes s') (side : ReadSide file s f) (empty : s.unread = [])
    (mode : s.curWr = false)
    : ReadSide file s' (f.advance bytes.length) ∧ bytes <+: f.content.drop f.pos
      ∧ s'.opening = s.opening ∧ s'.curWr = false ∧ s'.buf = s.buf := by
  have buf : s'.buf = s.buf := by rw [reads.kept]
  have bufend : s'.bufend = s.bufend := by rw [reads.kept]
  have curWr : s'.curWr = s.curWr := by rw [reads.kept]
  have at_ : file s.cookie = f := by
    have logical := side.logical
    rw [empty] at logical
    exact logical
  have moved := reads.moved
  have order := reads.order
  rw [at_] at moved order
  have usable := side.usable
  refine ⟨⟨⟨?_, ?_, ?_⟩, ⟨?_, ?_, ?_⟩, reads.get, ?_, ?_, ?_, ?_, ?_, ?_⟩, ?_, ?_,
    curWr.trans mode, buf⟩
  · rw [reads.kept]
    exact usable.app
  · rw [buf, bufend]
    exact usable.buffer
  · rw [buf, bufend]
    exact usable.null
  · rw [reads.kept]
    exact side.idle.pbase
  · rw [reads.kept]
    exact side.idle.pptr
  · rw [reads.kept]
    exact side.idle.epptr
  · intro _
    rw [buf]
    exact Nat.le_succ_of_le reads.low
  · rw [bufend]
    exact reads.high
  · intro on
    exact absurd ((curWr.trans mode).symm.trans on) (by decide)
  · rw [OpenFile.advance_advance]
    exact moved
  · obtain ⟨rest, split⟩ := order
    rw [OpenFile.advance_content, OpenFile.advance_pos, ← drop_drop, ← split, append_assoc,
      drop_left]
    exact prefix_append _ _
  · intro flag
    obtain ⟨last, none⟩ := reads.eof flag
    rw [moved, none] at last
    exact ⟨last, none⟩
  · exact (prefix_append _ _).trans order
  · rw [reads.kept]
    rfl

/-- The direct reads of `fread` hand out what is ahead. By induction on the reads. -/
theorem freadLoop_file (seekable : SeekableFile file virt) (size : Nat) (dest : Memory UInt8)
    {len fuel l place : Nat} (side : ReadSide file s f) (readable : s.noRd = false)
    (empty : l ≠ 0 → s.unread = [])
    (missing : place + l = len) (small : len < 2 ^ 64) (enough : l < fuel)
    : ∃ s', freadLoop virt size (len / size) len fuel l place dest s
        = some ((place + (f.ahead l).length) / size, dest.store place (f.ahead l), s')
      ∧ ReadSide file s' (f.advance (f.ahead l).length) ∧ s'.opening = s.opening
      ∧ ((l = 0 → Unreadable s) → Unreadable s') := by
  induction fuel generalizing l place dest s f with
  | zero => exact absurd enough (Nat.not_lt_zero _)
  | succ fuel ih =>
    cases l with
    | zero =>
      have none : f.ahead 0 = [] := take_zero
      refine ⟨s, ?_, ?_, rfl, fun ready => ready rfl⟩
      · rw [none, Memory.store_nil, ← missing]
        rfl
      · exact side
    | succ l =>
      have empty' := empty (Nat.succ_ne_zero l)
      obtain ⟨t, entered, side', drained, ready, eof, opening⟩ :=
        side.toread readable empty' virt.write
      have stop {t : Streambuf W} (once : readOnce virt (l + 1) s = (0, [], t))
          (ended : f.content.length ≤ f.pos) (behind : ReadSide file t f)
          (opening : t.opening = s.opening) (ready : Unreadable t)
          : ∃ s', freadLoop virt size (len / size) len (fuel + 1) (l + 1) place dest s
              = some ((place + (f.ahead (l + 1)).length) / size, dest.store place (f.ahead (l + 1)), s')
            ∧ ReadSide file s' (f.advance (f.ahead (l + 1)).length) ∧ s'.opening = s.opening
            ∧ ((l + 1 = 0 → Unreadable s) → Unreadable s') := by
        have none : f.ahead (l + 1) = [] := OpenFile.ahead_end ended
        have at_ : toSizeT ((len : Int) - (l + 1)) = place := by
          unfold toSizeT
          omega
        have round := freadLoop_ended once size (len / size) len fuel place dest
        rw [at_] at round
        refine ⟨t, ?_, ?_, opening, fun _ => ready⟩
        · rw [none, Memory.store_nil]
          exact round
        · rw [none]
          exact behind
      cases flag : s.eof with
      | true =>
        have answer : readOnce virt (l + 1) s = (0, [], t) := by
          rw [readOnce, entered, flag]
          rfl
        exact stop answer (side.eof flag).1 side' opening ready
      | false =>
        have answer : readOnce virt (l + 1) s = virt.read t (l + 1) := by
          rw [readOnce, entered, flag]
          rfl
        have reads := seekable.read t (l + 1) side'.usable.buffer drained (eof.trans flag)
          (Nat.succ_pos l)
        rcases once : virt.read t (l + 1) with ⟨n, bytes, t'⟩
        rw [once] at reads answer
        dsimp only at reads
        obtain ⟨behind, part, opening', curWr, buf⟩ :=
          reads.side side' (unread_nil drained) ready.mode
        have most := reads.most
        have ready' : Unreadable t' := ⟨curWr, buf.symm ▸ reads.low⟩
        rw [reads.count] at answer
        by_cases none : bytes = []
        · have at_ : file t.cookie = f := by
            have logical := side'.logical
            rw [unread_nil drained] at logical
            exact logical
          rw [none] at behind answer
          exact stop answer (at_ ▸ reads.some_ none) behind (opening'.trans opening) ready'
        · have some_ : 0 < bytes.length := length_pos_iff.mpr none
          have readable' : t'.noRd = false :=
            (congrArg Opening.noRd (opening'.trans opening)).trans readable
          have round := freadLoop_more answer (by omega) some_ most size (len / size) len fuel
            place dest
          have next : (place + bytes.length) % 2 ^ 64 = place + bytes.length :=
            Nat.mod_eq_of_lt (by omega)
          rw [next] at round
          obtain ⟨s', run, last, opening'', later⟩ := @ih t'
            (f.advance bytes.length) (dest.store place bytes) (l + 1 - bytes.length)
            (place + bytes.length) behind readable' (fun more => reads.short (by omega)) (by omega) (by omega)
          have ahead : f.ahead (l + 1)
              = bytes ++ (f.advance bytes.length).ahead (l + 1 - bytes.length) := by
            rw [← OpenFile.ahead_add part, Nat.add_sub_of_le most]
          have same : s'.opening = s.opening := opening''.trans (opening'.trans opening)
          refine ⟨s', ?_, ?_, same, fun _ => later fun _ => ready'⟩
          · rw [round, run, ahead, length_append, Memory.store_store_append, Nat.add_assoc]
          · rw [OpenFile.advance_advance] at last
            rw [ahead, length_append]
            exact last

/-- `__fread_unlocked` hands out what is ahead, or as much as is left. -/
theorem ReadSide.fread (side : ReadSide file s f) (seekable : SeekableFile file virt)
    (readable : s.noRd = false) {size nmemb fuel : Nat} (small : size * nmemb < 2 ^ 64)
    (enough : size * nmemb < fuel) (dest : Memory UInt8)
    : ∃ s', freadUnlocked virt fuel dest size nmemb s
        = some ((f.ahead (size * nmemb)).length / size, dest.store 0 (f.ahead (size * nmemb)), s')
      ∧ ReadSide file s' (f.advance (f.ahead (size * nmemb)).length) ∧ s'.opening = s.opening
      ∧ (f.ahead (size * nmemb) ≠ [] ∨ Unreadable s → Unreadable s') := by
  obtain ⟨len, same⟩ : ∃ len, size * nmemb = len := ⟨_, rfl⟩
  have items : (if size = 0 then 0 else nmemb) = len / size := by
    rcases Nat.eq_zero_or_pos size with none | some_
    · rw [if_pos none, none, Nat.div_zero]
    · rw [if_neg (Nat.ne_of_gt some_), ← same, Nat.mul_div_cancel_left _ some_]
  rw [freadUnlocked, items, same, Nat.mod_eq_of_lt (same ▸ small)]
  rw [same] at small enough
  obtain ⟨k, taken⟩ : ∃ k, min (s.egptr - s.gptr) len = k := ⟨_, rfl⟩
  have inside : k ≤ s.egptr - s.gptr := taken ▸ Nat.min_le_left _ _
  have most : k ≤ len := taken ▸ Nat.min_le_right _ _
  obtain ⟨behind, front⟩ := side.take inside
  have prefix_ : s.memory.slice s.gptr k <+: f.content.drop f.pos := by
    rw [← front]
    exact take_prefix _ _
  have length : (s.memory.slice s.gptr k).length = k := Memory.length_slice
  have ahead := OpenFile.ahead_add prefix_ (n := len - k)
  rw [length, Nat.add_sub_of_le most] at ahead
  have drained : len - k ≠ 0 → Streambuf.unread { s with gptr := s.gptr + k } = [] := by
    intro more
    apply unread_nil
    have get := side.get
    simp only
    omega
  obtain ⟨s', run, last, opening, later⟩ := freadLoop_file seekable size
    (dest.store 0 (s.memory.slice s.gptr k)) behind readable drained (Nat.add_sub_of_le most) small
    (Nat.lt_of_le_of_lt (Nat.sub_le _ _) enough)
  refine ⟨s', ?_, ?_, opening, fun could => later fun all => ?_⟩
  · have stored : (dest.store 0 (s.memory.slice s.gptr k)).store k ((f.advance k).ahead (len - k))
        = dest.store 0 (f.ahead len) := by
      rw [ahead, ← Memory.store_store_append, length, Nat.zero_add]
    simp only [taken]
    rw [run, stored, ahead, length_append, length]
  · rw [OpenFile.advance_advance] at last
    rw [ahead, length_append, length]
    exact last
  rcases could with some_ | ready
  · -- the bytes all come from the get area
    have width : 0 < k := by
      have count : 0 < (f.ahead len).length := length_pos_iff.mpr some_
      have bound := @OpenFile.length_ahead_le _ f len
      omega
    have open_ : s.egptr ≠ 0 := by omega
    have low := side.low open_
    refine ⟨?_, by simp only; omega⟩
    by_contra on
    exact open_ (side.mode (by simpa using on))
  · exact ⟨ready.mode, Nat.le_add_right_of_le ready.low⟩

/-- `ungetc` of the byte before the logical position. Only without a buffer there is no room for it. -/
theorem ReadSide.ungetc (side : ReadSide file s f) (ready : Unreadable s) {b : UInt8} (behind : 0 < f.pos)
    (read : f.content[f.pos - 1]? = some b) (virt : Jumptable W)
    : s.opening.room = false ∧ Stdio.ungetc virt b.toNat s = (eofValue, s)
      ∨ s.opening.room = true ∧ ∃ s', Stdio.ungetc virt b.toNat s = ((b.toNat : Int), s')
        ∧ ReadSide file s' { f with pos := f.pos - 1 } ∧ s'.opening = s.opening := by
  have byte : ¬ (b.toNat : Int) = eofValue := by
    unfold eofValue
    omega
  have low := ready.low
  have off : ¬ s.curWr = true := by
    rw [ready.mode]
    exact Bool.false_ne_true
  simp only [Stdio.ungetc, if_neg byte, if_neg off, ofInt_toNat]
  by_cases start : s.gptr = 0
  · have none : s.buf = 0 := by omega
    exact .inl ⟨decide_eq_false (not_not_intro none), if_pos (.inl start)⟩
  · have get := side.get
    have high := side.high
    have null := side.usable.null
    have some_ : s.buf ≠ 0 := by omega
    have room : ¬ (s.gptr = 0 ∨ s.gptr ≤ s.buf - unget) := by
      unfold unget
      omega
    have unread : Streambuf.unread { s with
        gptr := s.gptr - 1, memory := s.memory.store (s.gptr - 1) [b], eof := false } = b :: s.unread := by
      have width : s.egptr - (s.gptr - 1) = s.egptr - s.gptr + 1 := by omega
      have next : s.gptr - 1 + 1 = s.gptr := by omega
      rw [Streambuf.unread, width, Memory.slice_store_front, next]
      rfl
    have usable := side.usable
    refine .inr ⟨decide_eq_true some_, { s with
        gptr := s.gptr - 1, memory := s.memory.store (s.gptr - 1) [b], eof := false }, if_neg room,
      ⟨⟨usable.app, usable.buffer, usable.null⟩,
      ⟨side.idle.pbase, side.idle.pptr, side.idle.epptr⟩, ?_, ?_, side.high, side.mode, ?_, ?_, nofun⟩,
      rfl⟩
    · simp only
      omega
    · intro _
      simp only
      omega
    · have back : f.pos - 1 + (s.unread.length + 1) = f.pos + s.unread.length := by omega
      rw [unread, List.length_cons, OpenFile.advance, back]
      exact side.logical
    · obtain ⟨inside, here⟩ := List.getElem?_eq_some_iff.mp read
      have next : f.pos - 1 + 1 = f.pos := by omega
      rw [unread, List.drop_eq_getElem_cons inside, here, next]
      exact List.cons_prefix_cons.mpr ⟨rfl, side.order⟩

end Nglibc.Stdio
