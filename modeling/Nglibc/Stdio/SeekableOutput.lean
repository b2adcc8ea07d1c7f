import Nglibc.Stdio.Seekable

/-! Writes, flushes and seeks of a stream on a seekable file. -/

namespace Nglibc.Stdio

open List

variable {W : Type} {file : W → OpenFile UInt8} {virt : Jumptable W} {s : Streambuf W}
  {f : OpenFile UInt8} {bytes : List UInt8}

/-! Writing -/

theorem fsetwrite_pending : s.fsetwrite.pending = [] := by
  have none : s.fsetwrite.fpending = 0 := by
    simp [Streambuf.fsetwrite, Streambuf.fpending]
  rw [Streambuf.pending, none, Memory.slice_zero]

theorem pending_active (open_ : s.epptr ≠ 0) : s.pending = s.memory.slice s.pbase (s.pptr - s.pbase) := by
  rw [Streambuf.pending, Streambuf.fpending, if_pos open_]

theorem WriteSide.towrite (side : WriteSide file s f) (writable : s.noWr = false)
    : ∃ t, s.towrite = (0, t) ∧ WriteSide file t f ∧ t.curWr = true ∧ t.opening = s.opening := by
  have usable := side.usable
  cases on : s.curWr with
  | true => exact ⟨s, if_pos on, side, on, rfl⟩
  | false =>
    have idle : PutIdle s := by
      rcases side.put with idle | ⟨active, -⟩
      · exact idle
      · exact absurd (on.symm.trans active) Bool.false_ne_true
    refine ⟨Streambuf.fsetwrite { s with curWr := true, gptr := 0, egptr := 0 }, ?_, ?_, rfl, rfl⟩
    · simp [Streambuf.towrite, on, writable]
    · refine ⟨⟨usable.app, usable.buffer, usable.null⟩, rfl, rfl,
        .inr ⟨rfl, rfl, le_rfl, usable.buffer, rfl⟩, ?_, side.eof⟩
      rw [fsetwrite_pending]
      have logical := side.logical
      rw [idle.pending] at logical
      exact logical

theorem WritesFile.side {n : Int} {s' : Streambuf W} (writes : WritesFile file s bytes n s')
    (side : WriteSide file s f) (on : s.curWr = true)
    : WriteSide file s' (f.write bytes) ∧ s' = Streambuf.fsetwrite { s with cookie := s'.cookie }
      ∧ file s'.cookie = f.write bytes := by
  have usable := side.usable
  have stored : file s'.cookie = f.write bytes := by
    rw [writes.stored, ← OpenFile.write_write, ← side.logical]
  refine ⟨?_, writes.kept, stored⟩
  rw [writes.kept]
  refine ⟨⟨usable.app, usable.buffer, usable.null⟩, side.gptr, side.egptr,
    .inr ⟨on, rfl, le_rfl, usable.buffer, rfl⟩, ?_, fun ended => ?_⟩
  · rw [fsetwrite_pending]
    exact stored.symm
  · have last : (file s'.cookie).content.length ≤ (file s'.cookie).pos := by
      rw [writes.stored]
      exact OpenFile.write_end (side.eof ended)
    exact last

section

variable (side : WriteSide file s f)
include side

/-- Bytes appended to the put area, where there is room. -/
theorem WriteSide.append (room : bytes.length ≤ s.epptr - s.pptr)
    : WriteSide file (s.append bytes) (f.write bytes) := by
  by_cases none : bytes = []
  · have same : s.append bytes = s := by
      rw [none, Streambuf.append, Memory.store_nil]
      rfl
    rw [same, none]
    exact side
  · have some_ : 0 < bytes.length := length_pos_iff.mpr none
    have usable := side.usable
    rcases side.put with idle | ⟨on, base, low, high, end_⟩
    · rw [idle.epptr] at room
      omega
    · refine ⟨⟨usable.app, usable.buffer, usable.null⟩, side.gptr, side.egptr,
        .inr ⟨on, base, ?_, ?_, end_⟩, ?_, side.eof⟩
      · simp only [Streambuf.append]
        omega
      · simp only [Streambuf.append]
        omega
      · have open_ : s.epptr ≠ 0 := by omega
        have width : s.pptr + bytes.length - s.pbase = s.pptr - s.pbase + bytes.length := by omega
        have at_ : s.pbase + (s.pptr - s.pbase) = s.pptr := by omega
        have later : (s.append bytes).pending = s.pending ++ bytes := by
          rw [pending_active open_, @pending_active _ (s.append bytes) open_]
          simp only [Streambuf.append]
          rw [width]
          have stored := @Memory.slice_store_append _ s.memory s.pbase (s.pptr - s.pbase) bytes
          rw [at_] at stored
          exact stored
        have logical : f.write bytes = ((file s.cookie).write s.pending).write bytes := by
          rw [← side.logical]
        rw [later, ← OpenFile.write_write]
        exact logical

section

variable (seekable : SeekableFile file virt)
include seekable

/-- `__fwritex`. -/
theorem WriteSide.fwritex (writable : s.noWr = false) (small : bytes.length < 2 ^ 64)
    : ∃ s', Stdio.fwritex (some virt.write) bytes s = (bytes.length, s')
      ∧ WriteSide file s' (f.write bytes) ∧ s'.opening = s.opening := by
  obtain ⟨t, entered, side', on, opening⟩ := side.towrite writable
  have whole : toSizeT bytes.length = bytes.length := toSizeT_natCast small
  simp only [Stdio.fwritex, entered]
  by_cases large : bytes.length > t.epptr - t.pptr
  · have some_ : t.pending ++ bytes ≠ [] := by
      apply append_ne_nil_of_right_ne_nil
      apply length_pos_iff.mp
      omega
    have writes := seekable.write t bytes some_
    obtain ⟨side'', kept, -⟩ := writes.side side' on
    refine ⟨(virt.write t bytes).2, ?_, side'', ?_⟩
    · simp only [if_pos large, writes.all, whole]
      rfl
    · rw [kept]
      exact opening
  · have room : bytes.length ≤ t.epptr - t.pptr := Nat.le_of_not_lt large
    by_cases line : t.lbf ∧ lineEnd bytes ≠ 0
    · have length : (bytes.take (lineEnd bytes)).length = lineEnd bytes := by
        rw [length_take, Nat.min_eq_left (lineEnd_le bytes)]
      have some_ : t.pending ++ bytes.take (lineEnd bytes) ≠ [] := by
        apply append_ne_nil_of_right_ne_nil
        apply length_pos_iff.mp
        rw [length]
        exact Nat.pos_of_ne_zero line.2
      have writes := seekable.write t (bytes.take (lineEnd bytes)) some_
      obtain ⟨side'', kept, -⟩ := writes.side side' on
      have inside := lineEnd_le bytes
      have all : toSizeT (virt.write t (bytes.take (lineEnd bytes))).1 = lineEnd bytes := by
        rw [writes.all, length]
        exact toSizeT_natCast (by omega)
      have room' : (bytes.drop (lineEnd bytes)).length
          ≤ (virt.write t (bytes.take (lineEnd bytes))).2.epptr
            - (virt.write t (bytes.take (lineEnd bytes))).2.pptr := by
        rw [kept, length_drop]
        simp only [Streambuf.fsetwrite]
        rcases side'.put with idle | ⟨-, -, low, -, end_⟩
        · rw [idle.epptr] at room
          omega
        · omega
      have last := side''.append room'
      rw [OpenFile.write_write, take_append_drop] at last
      refine ⟨_, ?_, last, ?_⟩
      · simp only [if_neg large, if_pos line, all, Nat.lt_irrefl, if_false]
        rfl
      · rw [kept]
        exact opening
    · refine ⟨_, ?_, side'.append room, opening⟩
      simp only [if_neg large, if_neg line]
      rfl

theorem WriteSide.fwrite (writable : s.noWr = false) {size nmemb : Nat}
    (all : bytes.length = size * nmemb) (small : size * nmemb < 2 ^ 64)
    : ∃ s', Stdio.fwrite virt.write bytes size nmemb s = (if size ≠ 0 then nmemb else 0, s')
      ∧ WriteSide file s' (f.write bytes) ∧ s'.opening = s.opening := by
  obtain ⟨s', written, side', opening⟩ := side.fwritex seekable writable (all ▸ small)
  refine ⟨s', ?_, side', opening⟩
  have len : size * nmemb % 2 ^ 64 = bytes.length := by rw [Nat.mod_eq_of_lt small, all]
  rw [Stdio.fwrite, len, take_length, written]
  simp only [if_true]

/-- `__overflowx`. -/
theorem WriteSide.overflowx (writable : s.noWr = false) (c : UInt8)
    (active : s.epptr ≠ 0 → s.curWr = true)
    : ∃ n s', Stdio.overflowx virt.write c.toNat s = (n, s') ∧ UInt8.ofInt n = c
      ∧ WriteSide file s' (f.write [c]) ∧ s'.opening = s.opening := by
  have enter : ∃ t, (if s.epptr = 0 then s.towrite else (0, s)) = (0, t) ∧ WriteSide file t f
      ∧ t.curWr = true ∧ t.opening = s.opening := by
    by_cases closed : s.epptr = 0
    · rw [if_pos closed]
      exact side.towrite writable
    · rw [if_neg closed]
      exact ⟨s, rfl, side, active closed, rfl⟩
  obtain ⟨t, entered, side', on, opening⟩ := enter
  simp only [Stdio.overflowx, entered, ofInt_toNat]
  by_cases held : t.epptr ≠ t.pptr ∧ c ≠ newline ∧ t.lbf
  · have room : [c].length ≤ t.epptr - t.pptr := by
      have differ := held.1
      rcases side'.put with idle | ⟨-, -, -, high, end_⟩
      · exact absurd (idle.epptr.trans idle.pptr.symm) differ
      · rw [length_singleton]
        omega
    refine ⟨plainChar c, t.append [c], ?_, plainChar_ofInt c, side'.append room, opening⟩
    simp only [if_pos held]
    rfl
  · have some_ : t.pending ++ [c] ≠ [] := append_ne_nil_of_right_ne_nil _ (cons_ne_nil _ _)
    have writes := seekable.write t [c] some_
    obtain ⟨side'', kept, -⟩ := writes.side side' on
    have one : (virt.write t [c]).1 = 1 := writes.all
    refine ⟨c.toNat, (virt.write t [c]).2, ?_, ofInt_toNat c, side'', ?_⟩
    · simp only [if_neg held, one]
      rfl
    · rw [kept]
      exact opening

theorem WriteSide.putc (writable : s.noWr = false) (c : Int)
    : ∃ n s', Stdio.putc virt.write c s = (n, s') ∧ UInt8.ofInt n = UInt8.ofInt c
      ∧ WriteSide file s' (f.write [UInt8.ofInt c]) ∧ s'.opening = s.opening := by
  by_cases room : c ≠ newline.toNat ∧ s.pptr ≠ s.epptr
  · have fits : [UInt8.ofInt c].length ≤ s.epptr - s.pptr := by
      have differ := room.2
      rcases side.put with idle | ⟨-, -, -, high, end_⟩
      · exact absurd (idle.pptr.trans idle.epptr.symm) differ
      · rw [length_singleton]
        omega
    exact ⟨plainChar (UInt8.ofInt c), s.append [UInt8.ofInt c], if_pos room, plainChar_ofInt _,
      side.append fits, rfl⟩
  · have active (open_ : s.epptr ≠ 0) : s.curWr = true := by
      rcases side.put with idle | ⟨on, -⟩
      · exact absurd idle.epptr open_
      · exact on
    obtain ⟨n, s', flushed, byte, side', opening⟩ := side.overflowx seekable writable (UInt8.ofInt c) active
    exact ⟨n, s', (if_neg room).trans flushed, byte, side', opening⟩

/-! Flushing -/

theorem WriteSide.flush (some_ : s.pptr ≠ s.pbase)
    : s.fpending ≠ 0 ∧ ∃ t, (virt.write s []).2 = t ∧ WriteSide file t f ∧ t.pptr ≠ 0
      ∧ t.opening = s.opening ∧ file t.cookie = f := by
  rcases side.put with idle | ⟨on, base, low, high, end_⟩
  · exact absurd (idle.pptr.trans idle.pbase.symm) some_
  · have open_ : s.epptr ≠ 0 := by omega
    have count : s.fpending = s.pptr - s.pbase := if_pos open_
    have more : s.pending ++ [] ≠ [] := by
      rw [append_nil, pending_active open_]
      apply length_pos_iff.mp
      rw [Memory.length_slice]
      omega
    have writes := seekable.write s [] more
    obtain ⟨side', kept, stored⟩ := writes.side side on
    have null := side.usable.null
    refine ⟨by omega, (virt.write s []).2, rfl, side', ?_, ?_, stored⟩
    · rw [kept]
      simp only [Streambuf.fsetwrite]
      omega
    · rw [kept]
      rfl

end

theorem WriteSide.file_eq (none : s.pptr = s.pbase)
    : s.fpending = 0 ∧ file s.cookie = f := by
  have zero : s.fpending = 0 := by
    simp [Streambuf.fpending, none]
  have logical := side.logical
  rw [Streambuf.pending, zero, Memory.slice_zero] at logical
  exact ⟨zero, logical.symm⟩

end

theorem fpurge_settled (usable : Usable s) (at_ : file s.cookie = f)
    (eof : s.eof = true → f.content.length ≤ f.pos)
    : Settled file s.fpurge f :=
  ⟨⟨usable.app, usable.buffer, usable.null⟩, rfl, rfl, ⟨rfl, rfl, rfl⟩, at_, eof⟩

theorem WriteSide.fflushx (side : WriteSide file s f) (seekable : SeekableFile file virt)
    : ∃ s', Stdio.fflushx virt s = (0, s') ∧ Settled file s' f ∧ s'.opening = s.opening := by
  have settle {t : Streambuf W} (side' : WriteSide file t f) (at_ : file t.cookie = f)
      : Settled file t.fpurge f :=
    fpurge_settled side'.usable at_ fun ended => at_ ▸ side'.eof ended
  have closed {t : Streambuf W} (side' : WriteSide file t f) : ¬ t.freadahead ≠ 0 := by
    simp [Streambuf.freadahead, side'.egptr]
  by_cases some_ : s.pptr ≠ s.pbase
  · obtain ⟨more, t, written, side', open_, opening, at_⟩ := side.flush seekable some_
    refine ⟨t.fpurge, ?_, settle side' at_, opening⟩
    simp only [Stdio.fflushx, if_pos more, written, if_neg (closed side')]
    exact if_neg fun both => open_ both.2
  · obtain ⟨none, at_⟩ := side.file_eq (not_ne_iff.mp some_)
    refine ⟨s.fpurge, ?_, settle side at_, rfl⟩
    have no : ¬ s.fpending ≠ 0 := not_not_intro none
    simp only [Stdio.fflushx, if_neg no, if_neg (closed side)]
    exact if_neg fun both => no both.1

/-- The bytes of the get area are counted by its pointers. -/
theorem ReadSide.ahead (side : ReadSide file s f)
    : s.freadahead = s.unread.length ∧ s.egptr - s.gptr = s.unread.length
      ∧ (file s.cookie).pos = f.pos + s.unread.length := by
  have length : s.unread.length = s.egptr - s.gptr := Memory.length_slice
  refine ⟨?_, length.symm, ?_⟩
  · unfold Streambuf.freadahead
    split <;> omega
  · rw [side.logical]
    rfl

/-- `__fflushx` behind reads. -/
theorem ReadSide.fflushx (side : ReadSide file s f) (seekable : SeekableFile file virt)
    : ∃ s', Stdio.fflushx virt s = (0, s') ∧ Settled file s' f ∧ s'.opening = s.opening := by
  obtain ⟨count, -, pos⟩ := side.ahead
  have none : ¬ s.fpending ≠ 0 := by
    simp [Streambuf.fpending, side.idle.epptr]
  have eof (ended : s.eof = true) := (side.eof ended).1
  by_cases some_ : s.freadahead ≠ 0
  · have target : seekTarget (file s.cookie) (-s.freadahead) .seekCur = f.pos := by
      simp only [seekTarget]
      omega
    have seeks := seekable.seek s (-s.freadahead) .seekCur (by rw [target]; exact Int.natCast_nonneg _)
    rw [target] at seeks
    have kept := seeks.kept
    have back : file (virt.seek s (-s.freadahead) .seekCur).2.2.cookie = f := by
      rw [seeks.moved, side.logical]
      rfl
    refine ⟨(virt.seek s (-s.freadahead) .seekCur).2.2.fpurge, ?_, ?_, ?_⟩
    · simp only [Stdio.fflushx, if_neg none, if_pos some_]
      exact if_neg fun both => none both.1
    · have usable := side.usable
      apply fpurge_settled ?_ back
      · rw [kept]
        exact eof
      · rw [kept]
        exact ⟨usable.app, usable.buffer, usable.null⟩
    · rw [kept]
      rfl
  · have empty : s.unread.length = 0 := count.symm.trans (not_ne_iff.mp some_)
    have at_ : file s.cookie = f := by
      rw [side.logical, empty]
      rfl
    refine ⟨s.fpurge, ?_, fpurge_settled side.usable at_ eof, rfl⟩
    simp only [Stdio.fflushx, if_neg none, if_neg some_]
    exact if_neg fun both => none both.1

/-! Positions -/

/-- The seek of a stream that has left writing mode, and what follows it. -/
theorem seek_settles (seekable : SeekableFile file virt) (usable : Usable s) {off target : Int}
    {whence : Whence} (goes : seekTarget (file s.cookie) off whence = target) (inside : 0 ≤ target)
    (content : (file s.cookie).content = f.content)
    : ∃ s', (if (virt.seek { s with pptr := 0, pbase := 0, epptr := 0 } off whence).1 < 0 then
          (-1, (virt.seek { s with pptr := 0, pbase := 0, epptr := 0 } off whence).2.2)
        else
          (0, { (virt.seek { s with pptr := 0, pbase := 0, epptr := 0 } off whence).2.2 with
            gptr := 0, egptr := 0, eof := false })) = ((0 : Int), s')
      ∧ Settled file s' { f with pos := target.toNat } ∧ s'.opening = s.opening := by
  have seeks := seekable.seek { s with pptr := 0, pbase := 0, epptr := 0 } off whence
    (by rw [goes]; exact inside)
  rw [goes] at seeks
  refine ⟨_, if_neg (Int.not_lt.mpr seeks.fine), ⟨⟨?_, ?_, ?_⟩, rfl, rfl, ⟨?_, ?_, ?_⟩, ?_, nofun⟩, ?_⟩
  · rw [seeks.kept]
    exact usable.app
  · rw [seeks.kept]
    exact usable.buffer
  · rw [seeks.kept]
    exact usable.null
  · rw [seeks.kept]
  · rw [seeks.kept]
  · rw [seeks.kept]
  · rw [← content]
    exact seeks.moved
  · rw [seeks.kept]
    rfl

theorem ReadSide.fseeko (side : ReadSide file s f) (seekable : SeekableFile file virt) {off : Int}
    {whence : Whence} (inside : 0 ≤ seekTarget f off whence)
    : ∃ s', fseekoUnlocked virt off (some whence) s = (0, s')
      ∧ Settled file s' { f with pos := (seekTarget f off whence).toNat } ∧ s'.opening = s.opening := by
  obtain ⟨-, count, pos⟩ := side.ahead
  have content : (file s.cookie).content = f.content := by
    rw [side.logical]
    rfl
  have closed : ¬ s.pptr ≠ s.pbase := not_not_intro (side.idle.pptr.trans side.idle.pbase.symm)
  have get := side.get
  have goes : seekTarget (file s.cookie)
      (if whence = .seekCur ∧ s.egptr ≠ 0 then off - ((s.egptr : Int) - s.gptr) else off) whence
      = seekTarget f off whence := by
    cases whence with
    | seekSet => simp [seekTarget]
    | seekCur =>
      simp only [seekTarget, true_and]
      split <;> omega
    | seekEnd => simp [seekTarget, content]
  obtain ⟨s', sought, settled, opening⟩ := seek_settles seekable side.usable goes inside content
  refine ⟨s', ?_, settled, opening⟩
  rw [← sought]
  simp only [fseekoUnlocked, if_neg closed]
  exact if_neg fun both => closed both.1

theorem WriteSide.fseeko (side : WriteSide file s f) (seekable : SeekableFile file virt) {off : Int}
    {whence : Whence} (inside : 0 ≤ seekTarget f off whence)
    : ∃ s', fseekoUnlocked virt off (some whence) s = (0, s')
      ∧ Settled file s' { f with pos := (seekTarget f off whence).toNat } ∧ s'.opening = s.opening := by
  have off' : (if whence = .seekCur ∧ s.egptr ≠ 0 then off - ((s.egptr : Int) - s.gptr) else off) = off :=
    if_neg fun both => both.2 side.egptr
  by_cases some_ : s.pptr ≠ s.pbase
  · obtain ⟨-, t, written, side', open_, opening, at_⟩ := side.flush seekable some_
    have goes : seekTarget (file t.cookie) off whence = seekTarget f off whence := by rw [at_]
    have content : (file t.cookie).content = f.content := by rw [at_]
    obtain ⟨s', sought, settled, opening'⟩ := seek_settles seekable side'.usable goes inside content
    refine ⟨s', ?_, settled, opening'.trans opening⟩
    rw [← sought]
    simp only [fseekoUnlocked, off', if_pos some_, written]
    exact if_neg fun both => open_ both.2
  · obtain ⟨-, at_⟩ := side.file_eq (not_ne_iff.mp some_)
    have goes : seekTarget (file s.cookie) off whence = seekTarget f off whence := by rw [at_]
    have content : (file s.cookie).content = f.content := by rw [at_]
    obtain ⟨s', sought, settled, opening⟩ := seek_settles seekable side.usable goes inside content
    refine ⟨s', ?_, settled, opening⟩
    rw [← sought]
    simp only [fseekoUnlocked, off', if_neg some_]
    exact if_neg fun both => some_ both.1

/-- The seek of `__ftello_unlocked` moves nothing. -/
theorem tell_seek (seekable : SeekableFile file virt) (usable : Usable s)
    : (if s.app ∧ s.pptr ≠ s.pbase then Whence.seekEnd else .seekCur) = .seekCur
      ∧ ∃ ret cookie, virt.seek s 0 .seekCur
          = (ret, ((file s.cookie).pos : Int), { s with cookie := cookie })
        ∧ ¬ ret < 0 ∧ file cookie = file s.cookie := by
  have here : seekTarget (file s.cookie) 0 .seekCur = (file s.cookie).pos := Int.add_zero _
  have seeks := seekable.seek s 0 .seekCur (by rw [here]; exact Int.natCast_nonneg _)
  rw [here] at seeks
  refine ⟨if_neg fun both => ?_, (virt.seek s 0 .seekCur).1, (virt.seek s 0 .seekCur).2.2.cookie, ?_,
    Int.not_lt.mpr seeks.fine, ?_⟩
  · rw [usable.app] at both
    exact Bool.false_ne_true both.1
  · rw [← seeks.kept, ← seeks.pos]
  · rw [seeks.moved, Int.toNat_natCast]

theorem ReadSide.ftello (side : ReadSide file s f) (seekable : SeekableFile file virt)
    : ∃ cookie, ftelloUnlocked virt s = ((f.pos : Int), { s with cookie := cookie })
      ∧ file cookie = file s.cookie := by
  obtain ⟨whence, ret, cookie, sought, fine, same⟩ := tell_seek seekable side.usable
  obtain ⟨-, count, pos⟩ := side.ahead
  have get := side.get
  refine ⟨cookie, ?_, same⟩
  simp only [ftelloUnlocked, whence, sought, if_neg fine]
  by_cases open_ : s.egptr ≠ 0
  · have at_ : ((file s.cookie).pos : Int) + ((s.gptr : Int) - s.egptr) = f.pos := by omega
    rw [if_pos open_, at_]
  · have at_ : ((file s.cookie).pos : Int) = f.pos := by omega
    rw [if_neg open_, if_neg (not_not_intro side.idle.pbase), at_]

theorem WriteSide.ftello (side : WriteSide file s f) (seekable : SeekableFile file virt)
    : ∃ cookie, ftelloUnlocked virt s = ((f.pos : Int), { s with cookie := cookie })
      ∧ file cookie = file s.cookie := by
  obtain ⟨whence, ret, cookie, sought, fine, same⟩ := tell_seek seekable side.usable
  have pos : f.pos = (file s.cookie).pos + s.pending.length := by
    rw [side.logical]
    rfl
  have length : s.pending.length = s.fpending := Memory.length_slice
  refine ⟨cookie, ?_, same⟩
  simp only [ftelloUnlocked, whence, sought, if_neg fine, if_neg (not_not_intro side.egptr)]
  rcases side.put with idle | ⟨-, base, low, high, end_⟩
  · have none : s.pending.length = 0 := congrArg List.length idle.pending
    rw [if_neg (not_not_intro idle.pbase), pos, none, Nat.add_zero]
  · have null := side.usable.null
    unfold Streambuf.fpending at length
    by_cases open_ : s.pbase ≠ 0
    · have at_ : ((file s.cookie).pos : Int) + ((s.pptr : Int) - s.pbase) = f.pos := by
        split at length <;> omega
      rw [if_pos open_, at_]
    · have at_ : ((file s.cookie).pos : Int) = f.pos := by
        split at length <;> omega
      rw [if_neg open_, at_]

theorem Settled.moved (settled : Settled file s f) {cookie : W} (same : file cookie = file s.cookie)
    : Settled file { s with cookie := cookie } f :=
  ⟨⟨settled.usable.app, settled.usable.buffer, settled.usable.null⟩, settled.gptr, settled.egptr,
    ⟨settled.idle.pbase, settled.idle.pptr, settled.idle.epptr⟩, same.trans settled.at_, settled.eof⟩

theorem ReadSide.moved (side : ReadSide file s f) {cookie : W} (same : file cookie = file s.cookie)
    : ReadSide file { s with cookie := cookie } f :=
  ⟨⟨side.usable.app, side.usable.buffer, side.usable.null⟩,
    ⟨side.idle.pbase, side.idle.pptr, side.idle.epptr⟩, side.get, side.low, side.high, side.mode,
    same.trans side.logical, side.order, side.eof⟩

theorem WriteSide.moved (side : WriteSide file s f) {cookie : W} (same : file cookie = file s.cookie)
    : WriteSide file { s with cookie := cookie } f := by
  refine ⟨⟨side.usable.app, side.usable.buffer, side.usable.null⟩,
    side.gptr, side.egptr, ?_, ?_, fun ended => ?_⟩
  · rcases side.put with idle | active
    · exact .inl ⟨idle.pbase, idle.pptr, idle.epptr⟩
    · exact .inr active
  · have logical : f = (file cookie).write s.pending := by
      rw [same]
      exact side.logical
    exact logical
  · have ended' : (file cookie).content.length ≤ (file cookie).pos := by
      rw [same]
      exact side.eof ended
    exact ended'

end Nglibc.Stdio
