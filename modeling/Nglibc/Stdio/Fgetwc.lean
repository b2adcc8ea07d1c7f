import Nglibc.Stdio.InputOrder
import Nglibc.Stdio.Mbr2wc

/-! `__fgetwc_unlocked` reads the characters of a stream in order, as long as no get area ends
inside a character. `fwide` only marks the orientation of the stream and is left out.
-/

namespace Nglibc.Stdio

open Utf8 List

variable {W : Type}

/-- `getc_unlocked` as `fgetwc.c` defines it, over the function that refills the get area. -/
def getcOver (uflow : Streambuf W → Int × Streambuf W) (s : Streambuf W) : Int × Streambuf W :=
  if s.gptr ≠ s.egptr then ((s.memory s.gptr).toNat, { s with gptr := s.gptr + 1 })
  else uflow s

/-- The conversion byte by byte, from a state of `__mbr2wc`. `junk` is what `wc` holds before
it is set.
-/
def fgetwcLoop (virt : Jumptable W) (uflow : Streambuf W → Int × Streambuf W) (junk : BitVec 32)
    : Nat → BitVec 32 → Bool → Streambuf W → Option (BitVec 32 × Streambuf W)
  | 0, _, _, _ => none
  | fuel + 1, st, first, s =>
    let (c, s) := getcOver uflow s
    if c < 0 then some (weof, if first then s else { s with err := true })
    else
      let b := UInt8.ofInt c
      let r := mbr2wc [b] st
      if r.ret = ilseqValue then
        some (weof, if first then s else (ungetc virt b.toNat { s with err := true }).2)
      else if r.ret = incompleteValue then fgetwcLoop virt uflow junk fuel r.st false s
      else some (r.wc.getD junk, s)

/-- A pointer plus a `size_t`, whose upper half moves it down. -/
def advance (p l : Nat) : Nat :=
  if l < 2 ^ 63 then p + l else p + l - 2 ^ 64

/-- `__fgetwc_unlocked`. The result `(size_t)-2` of `__mbr2wc` passes the test `l+1 >= 1`. -/
def fgetwcUnlocked (virt : Jumptable W) (uflow : Streambuf W → Int × Streambuf W)
    (junk : BitVec 32) (fuel : Nat) (s : Streambuf W)
    : Option (BitVec 32 × Streambuf W) :=
  let r := mbr2wc s.unread 0
  if s.gptr ≠ s.egptr ∧ (r.ret + 1) % 2 ^ 64 ≥ 1 then
    let l := r.ret + if r.ret = 0 then 1 else 0
    some (r.wc.getD junk, { s with gptr := advance s.gptr l })
  else fgetwcLoop virt uflow junk fuel 0 true s

def Refills (source : Source W) (uflow : Streambuf W → Int × Streambuf W) : Prop :=
  ∀ s, Reading source s → s.gptr = s.egptr →
    Reading source (uflow s).2 ∧ NextByte source s (uflow s).1 (uflow s).2

variable {uflow : Streambuf W → Int × Streambuf W} {s : Streambuf W} {source : Source W}
  {rest : List UInt8} {fuel : Nat}

theorem getcOver_next (refills : Refills source uflow) (reading : Reading source s)
    : Reading source (getcOver uflow s).2
      ∧ NextByte source s (getcOver uflow s).1 (getcOver uflow s).2 := by
  have get := reading.get
  by_cases empty : s.gptr = s.egptr
  · simp only [getcOver, empty, ne_eq, not_true_eq_false, if_false]
    exact refills s reading empty
  · simp only [getcOver, empty, ne_eq, not_false_eq_true, if_true]
    refine ⟨⟨reading.noRd, reading.put, by simp only; omega, reading.eof, reading.valid⟩, ?_⟩
    rw [NextByte, Source.left, reading.unread_cons empty]
    exact ⟨rfl, rfl⟩

/-- A run of `__fgetwc_unlocked` on bytes that the machine of UTF-8 reads as `scanned`. -/
def ReadsScan (source : Source W) (run : Option (BitVec 32 × Streambuf W)) : Scan → Prop
  | .char v rest =>
    ∃ s', run = some (BitVec.ofNat 32 v, s') ∧ Reading source s' ∧ source.left s' = rest
  | _ => ∃ s', run = some (weof, s')

variable {b : UInt8}

section

variable (refills : Refills source uflow) (reading : Reading source s)
include refills reading

theorem fgetwcLoop_byte (left : source.left s = b :: rest)
    : ∃ t, Reading source t ∧ source.left t = rest ∧ ∀ virt junk fuel st first,
        fgetwcLoop virt uflow junk (fuel + 1) st first s
        = if (mbr2wc [b] st).ret = ilseqValue then
            some (weof, if first then t else (ungetc virt b.toNat { t with err := true }).2)
          else if (mbr2wc [b] st).ret = incompleteValue then
            fgetwcLoop virt uflow junk fuel (mbr2wc [b] st).st false t
          else some ((mbr2wc [b] st).wc.getD junk, t) := by
  obtain ⟨reading', next⟩ := getcOver_next refills reading
  rcases result : getcOver uflow s with ⟨c, t⟩
  rw [result] at reading' next
  simp only [NextByte, left] at next
  refine ⟨t, reading', next.2, ?_⟩
  intro virt junk fuel st first
  have nonneg : ¬ c < 0 := by omega
  have byte : UInt8.ofInt c = b := by
    rw [next.1, ofInt_toNat]
  rw [fgetwcLoop, result]
  simp only [nonneg, if_false, byte]

/-- The end of the stream. -/
theorem fgetwcLoop_eof (left : source.left s = []) (virt : Jumptable W) (junk : BitVec 32) (fuel : Nat)
    (st : BitVec 32) (first : Bool)
    : ∃ t, fgetwcLoop virt uflow junk (fuel + 1) st first s = some (weof, t) := by
  obtain ⟨_, next⟩ := getcOver_next refills reading
  rcases result : getcOver uflow s with ⟨c, t⟩
  rw [result] at next
  simp only [NextByte, left] at next
  have negative : c < 0 := by
    rw [next.1]
    decide
  rw [fgetwcLoop, result]
  simp only [negative, if_true]
  exact ⟨_, rfl⟩

/-- Within a character; by induction on the bytes it owes. -/
theorem fgetwcLoop_owed {o : Owed} (started : Started o) (virt : Jumptable W) (junk : BitVec 32)
    (enough : o.tails ≤ fuel)
    : ReadsScan source (fgetwcLoop virt uflow junk fuel (stateOf o) false s)
        (scanOwed o (source.left s)) := by
  induction fuel generalizing o s with
  | zero =>
    rcases started.room with room | room | room <;> omega
  | succ fuel ih =>
    cases left : source.left s with
    | nil => exact fgetwcLoop_eof refills reading left virt junk fuel (stateOf o) false
    | cons b rest =>
      obtain ⟨t, reading', left', round⟩ := fgetwcLoop_byte refills reading left
      by_cases accepts : o.accepts b
      · by_cases last : o.tails ≤ 1
        · have word : mbr2wc [b] (stateOf o) = ⟨1, some (BitVec.ofNat 32 (o.push b)), 0⟩ := by
            rw [mbr2wc_started started, scanOwed, if_pos accepts, if_pos last]
            rfl
          rw [round, word, scanOwed, if_pos accepts, if_pos last]
          exact ⟨t, rfl, reading', left'⟩
        · have word : mbr2wc [b] (stateOf o) = ⟨incompleteValue, none, stateOf (o.next b)⟩ := by
            rw [mbr2wc_started started, scanOwed, if_pos accepts, if_neg last]
            rfl
          rw [round, word, scanOwed, if_pos accepts, if_neg last, ← left']
          have less : (o.next b).tails ≤ fuel := by
            simp only [Owed.next]
            omega
          exact ih reading' (started.next last (started.accepts_range accepts).2) less
      · have word : mbr2wc [b] (stateOf o) = Mbr.ilseq := by
          rw [mbr2wc_started started, scanOwed, if_neg accepts]
          rfl
        rw [round, word, scanOwed, if_neg accepts]
        exact ⟨_, rfl⟩

theorem fgetwcLoop_start (virt : Jumptable W) (junk : BitVec 32) (enough : 4 ≤ fuel)
    (left : source.left s = b :: rest)
    : ReadsScan source (fgetwcLoop virt uflow junk fuel 0 true s) (scan b rest) := by
  obtain ⟨fuel, rfl⟩ : ∃ n, fuel = n + 1 := ⟨fuel - 1, by omega⟩
  obtain ⟨t, reading', left', round⟩ := fgetwcLoop_byte refills reading left
  by_cases ascii : b.toNat < 0x80
  · rw [round, mbr2wc_ascii ascii, scan, if_pos ascii]
    have char : (if b ≠ 0 then 1 else 0) ≠ ilseqValue
        ∧ (if b ≠ 0 then 1 else 0) ≠ incompleteValue := by
      split <;> decide
    simp only [if_neg char.1, if_neg char.2]
    exact ⟨t, rfl, reading', left'⟩
  · have word := mbr2wc_scan ascii []
    rw [scan, if_neg ascii] at word ⊢
    rw [round, word]
    cases leads : lead b with
    | none => exact ⟨_, rfl⟩
    | some o =>
      rw [← left']
      refine fgetwcLoop_owed refills reading' (lead_started leads) virt junk ?_
      rcases (lead_started leads).room with room | room | room <;> omega

end

/-- The get area is empty or does not end inside its first character, and if that has several
bytes, the length of the area is an `unsigned`.
-/
structure Whole (s : Streambuf W) : Prop where
  notPart : ∀ c : Char, s.unread ≠ [] → s.unread <+: String.utf8EncodeChar c
    → s.unread = String.utf8EncodeChar c
  length : ∀ b rest, s.unread = b :: rest → 0x80 ≤ b.toNat → s.unread.length < 2 ^ 32

/-- The machine reads a character or refuses the get area. -/
theorem Whole.not_part (whole : Whole s) (unread : s.unread = b :: rest) (o : Owed)
    : scan b rest ≠ .part o := by
  intro reads
  obtain ⟨c, tail, nonempty, bytes⟩ := prefix_of_scan reads
  have same := whole.notPart c (by simp [unread]) ⟨tail, by rw [unread, bytes, cons_append]⟩
  rw [unread, bytes, List.cons.injEq, self_eq_append_right] at same
  exact nonempty same.2

/-- A character in the get area is taken from there. -/
theorem fgetwc_char (whole : Whole s) {more rest : List UInt8} {v : Nat} (unread : s.unread = b :: more)
    (reads : scan b more = .char v rest) (virt : Jumptable W) (uflow : Streambuf W → Int × Streambuf W)
    (junk : BitVec 32) (fuel : Nat)
    : fgetwcUnlocked virt uflow junk fuel s = some (BitVec.ofNat 32 v,
          { s with gptr := s.gptr + (s.unread.length - rest.length) }) := by
  have some_ : s.gptr ≠ s.egptr := by
    intro empty
    simp [Streambuf.unread, empty] at unread
  by_cases ascii : b.toNat < 0x80
  · rw [scan, if_pos ascii] at reads
    cases reads
    have one : ((if b ≠ 0 then 1 else 0) + 1) % 2 ^ 64 ≥ 1
        ∧ advance s.gptr ((if b ≠ 0 then 1 else 0)
          + if (if b ≠ 0 then 1 else 0) = 0 then 1 else 0) = s.gptr + 1 := by
      split <;> exact ⟨by decide, rfl⟩
    have used : (b :: more).length - more.length = 1 := by
      rw [length_cons]
      omega
    simp only [fgetwcUnlocked, unread, mbr2wc_ascii ascii, some_, ne_eq, not_false_eq_true,
      true_and, one.1, if_true, one.2, used]
    rfl
  · have small := whole.length b more unread (by omega)
    obtain ⟨c, _, bytes⟩ := encode_of_scan reads
    have lengths := congrArg List.length bytes
    have positive := length_pos_of_ne_nil (utf8EncodeChar_ne_nil c)
    rw [length_append, length_cons] at lengths
    rw [unread, length_cons] at small
    have ret : ((more.length + 1) % 2 ^ 32 + 2 ^ 64 - rest.length) % 2 ^ 64
        = more.length + 1 - rest.length := by
      omega
    have accepted : (more.length + 1 - rest.length + 1) % 2 ^ 64 ≥ 1 := by
      omega
    have moved : advance s.gptr (more.length + 1 - rest.length
        + if more.length + 1 - rest.length = 0 then 1 else 0)
        = s.gptr + (more.length + 1 - rest.length) := by
      rw [if_neg (by omega), Nat.add_zero, advance, if_pos (by omega)]
    simp only [fgetwcUnlocked, unread, mbr2wc_scan ascii, reads, Scan.asMbr, some_, ne_eq,
      not_false_eq_true, true_and, ret, accepted, if_true, moved, length_cons]
    rfl

/-- Otherwise the bytes are converted one by one. -/
theorem fgetwc_slow (reading : Reading source s) (whole : Whole s)
    (none : ∀ b more v rest, s.unread = b :: more → scan b more ≠ .char v rest) (virt : Jumptable W)
    (uflow : Streambuf W → Int × Streambuf W) (junk : BitVec 32) (fuel : Nat)
    : fgetwcUnlocked virt uflow junk fuel s = fgetwcLoop virt uflow junk fuel 0 true s := by
  have refused : ¬ (s.gptr ≠ s.egptr ∧ ((mbr2wc s.unread 0).ret + 1) % 2 ^ 64 ≥ 1) := by
    rintro ⟨some_, accepted⟩
    cases unread : s.unread with
    | nil => exact some_ (reading.unread_nil.mp unread)
    | cons b more =>
      have ascii : ¬ b.toNat < 0x80 := by
        intro ascii
        exact none b more b.toNat more unread (by rw [scan, if_pos ascii])
      rw [unread, mbr2wc_scan ascii] at accepted
      cases reads : scan b more with
      | char v rest => exact none b more v rest unread reads
      | part o => exact whole.not_part unread o reads
      | illFormed =>
        rw [reads] at accepted
        simp [Scan.asMbr, Mbr.ilseq, ilseqValue] at accepted
  simp only [fgetwcUnlocked, if_neg refused]

/-- One call on a stream that holds the character `c` next. -/
theorem fgetwc_reads (refills : Refills source uflow) (reading : Reading source s) (whole : Whole s)
    (virt : Jumptable W) (junk : BitVec 32) (enough : 4 ≤ fuel) {c : Char}
    (left : source.left s = String.utf8EncodeChar c ++ rest)
    : ∃ s', fgetwcUnlocked virt uflow junk fuel s = some (BitVec.ofNat 32 c.val.toNat, s')
      ∧ Reading source s' ∧ source.left s' = rest
      ∧ (s.gptr ≠ s.egptr → s'.gptr = s.gptr + (String.utf8EncodeChar c).length) := by
  obtain ⟨b, more, bytes, reads⟩ := scan_encode c rest
  rw [← left] at bytes
  cases unread : s.unread with
  | nil =>
    have empty := reading.unread_nil.mp unread
    have slow := fgetwc_slow reading whole
      (fun b more v rest some_ => nomatch unread.symm.trans some_) virt uflow junk fuel
    have byBytes := fgetwcLoop_start refills reading virt junk enough bytes
    rw [reads] at byBytes
    obtain ⟨s', run, reading', left'⟩ := byBytes
    exact ⟨s', slow.trans run, reading', left', fun some_ => absurd empty some_⟩
  | cons b' area =>
    -- the machine reads the same character from the get area
    have split : source.left s = b' :: (area ++ source.remaining s.memory s.cookie) := by
      rw [Source.left, unread, cons_append]
    rw [split, List.cons.injEq] at bytes
    obtain ⟨rfl, rfl⟩ := bytes
    rw [scan_append] at reads
    cases scanned : scan b' area with
    | part o => exact absurd scanned (whole.not_part unread o)
    | illFormed =>
      rw [scanned] at reads
      cases reads
    | char v after =>
      rw [scanned, Scan.extend, Scan.char.injEq] at reads
      obtain ⟨rfl, behind⟩ := reads
      obtain ⟨c', value, area_eq⟩ := encode_of_scan scanned
      obtain rfl : c' = c := Char.ext (UInt32.toNat_inj.mp value)
      have used : s.unread.length - after.length = (String.utf8EncodeChar c').length := by
        rw [unread, area_eq, length_append]
        omega
      have run := fgetwc_char whole unread scanned virt uflow junk fuel
      rw [used] at run
      refine ⟨_, run, ?_, ?_, fun _ => rfl⟩
      · have get := reading.get
        have size : s.unread.length = s.egptr - s.gptr := Memory.length_slice
        exact ⟨reading.noRd, reading.put, by simp only; omega, reading.eof, reading.valid⟩
      · rw [← behind, Source.left, ← Streambuf.drop_unread, unread, area_eq, drop_left]

private theorem fgetwc_ends (refills : Refills source uflow) (reading : Reading source s) (whole : Whole s)
    (virt : Jumptable W) (junk : BitVec 32) (enough : 4 ≤ fuel) (none : NoStart (source.left s))
    : ∃ s', fgetwcUnlocked virt uflow junk fuel s = some (weof, s') := by
  have refused : ∀ b more v rest, s.unread = b :: more → scan b more ≠ .char v rest := by
    intro b more v rest unread reads
    obtain ⟨c, _, bytes⟩ := encode_of_scan reads
    refine none c ⟨rest ++ source.remaining s.memory s.cookie, ?_⟩
    rw [Source.left, unread, bytes, append_assoc]
  rw [fgetwc_slow reading whole refused]
  cases left : source.left s with
  | nil =>
    obtain ⟨fuel, rfl⟩ : ∃ n, fuel = n + 1 := ⟨fuel - 1, by omega⟩
    exact fgetwcLoop_eof refills reading left virt junk fuel 0 true
  | cons b more =>
    rw [left] at none
    have byBytes := fgetwcLoop_start refills reading virt junk enough left
    cases scanned : scan b more with
    | char v rest => exact absurd scanned (none.not_char v rest)
    | part o =>
      rw [scanned] at byBytes
      exact byBytes
    | illFormed =>
      rw [scanned] at byBytes
      exact byBytes

/-- Repeated calls of `__fgetwc_unlocked`: their results and the streams behind them. `junk`
is what `wc` holds in each call.
-/
def runFgetwc (virt : Jumptable W) (uflow : Streambuf W → Int × Streambuf W) (fuel : Nat)
    : List (BitVec 32) → Streambuf W → Option (List (BitVec 32 × Streambuf W))
  | [], _ => some []
  | junk :: more, s =>
    (fgetwcUnlocked virt uflow junk fuel s).bind (fun (c, s) =>
      (runFgetwc virt uflow fuel more s).map (fun results => (c, s) :: results))

/-- Every call of a run starts with a get area that does not end inside its first character. -/
def WholeCalls (virt : Jumptable W) (uflow : Streambuf W → Int × Streambuf W) (fuel : Nat)
    : List (BitVec 32) → Streambuf W → Prop
  | [], _ => True
  | junk :: more, s =>
    Whole s
    ∧ ∀ c s', fgetwcUnlocked virt uflow junk fuel s = some (c, s') →
        WholeCalls virt uflow fuel more s'

/-- The results are the characters and then `WEOF`. Each call takes the bytes of its character
from the stream, and moves `gptr` behind them if it is in the get area.
-/
def ReadsCharacters (source : Source W)
    : List Char → Streambuf W → List (BitVec 32 × Streambuf W) → Prop
  | [], _, [(c, _)] => c = weof
  | char :: chars, s, (c, s') :: results =>
    c = BitVec.ofNat 32 char.val.toNat
    ∧ source.left s = String.utf8EncodeChar char ++ source.left s'
    ∧ (s.gptr ≠ s.egptr → s'.gptr = s.gptr + (String.utf8EncodeChar char).length)
    ∧ ReadsCharacters source chars s' results
  | _, _, _ => False

private theorem runFgetwc_readsCharacters (refills : Refills source uflow) (reading : Reading source s)
    (virt : Jumptable W) (enough : 4 ≤ fuel) {chars : List Char} {tail : List UInt8}
    (left : source.left s = chars.flatMap String.utf8EncodeChar ++ tail) (none : NoStart tail)
    {junk : List (BitVec 32)} (calls : junk.length = chars.length + 1)
    (whole : WholeCalls virt uflow fuel junk s)
    : ∃ results, runFgetwc virt uflow fuel junk s = some results
      ∧ ReadsCharacters source chars s results := by
  induction chars generalizing s junk with
  | nil =>
    obtain ⟨j, rfl⟩ := length_eq_one_iff.mp calls
    obtain ⟨s', run⟩ := fgetwc_ends refills reading whole.1 virt j enough (by rwa [left])
    refine ⟨[(weof, s')], ?_, rfl⟩
    simp [runFgetwc, run]
  | cons c chars ih =>
    obtain ⟨j, more, rfl⟩ := exists_cons_of_length_eq_add_one calls
    rw [flatMap_cons, append_assoc] at left
    obtain ⟨s', run, reading', left', moved⟩ :=
      fgetwc_reads refills reading whole.1 virt j enough left
    obtain ⟨results, runs, characters⟩ := ih reading' left' (Nat.succ.inj calls) (whole.2 _ s' run)
    refine ⟨(BitVec.ofNat 32 c.val.toNat, s') :: results, ?_, rfl, ?_, moved, characters⟩
    · simp [runFgetwc, run, runs]
    · rw [left, left']

/-- What a stream holds is a string of characters and then bytes that start with none, which
may be no bytes. Repeated calls of `__fgetwc_unlocked` read the characters and then `WEOF`, if
no call finds a get area that ends inside its first character.
-/
theorem fgetwc_inOrder {source : Source W} {uflow : Streambuf W → Int × Streambuf W}
    {s : Streambuf W} (refills : Refills source uflow) (reading : Reading source s)
    (virt : Jumptable W) {fuel : Nat} (enough : 4 ≤ fuel)
    : (∃ (chars : List Char) (tail : List UInt8),
        source.left s = chars.flatMap String.utf8EncodeChar ++ tail ∧ NoStart tail)
      ∧ ∀ (chars : List Char) (tail : List UInt8) (junk : List (BitVec 32)),
          source.left s = chars.flatMap String.utf8EncodeChar ++ tail
          → NoStart tail
          → junk.length = chars.length + 1
          → WholeCalls virt uflow fuel junk s
          → ∃ results, runFgetwc virt uflow fuel junk s = some results
            ∧ ReadsCharacters source chars s results := by
  refine ⟨exists_characters (source.left s), ?_⟩
  intro chars tail junk left none calls whole
  exact runFgetwc_readsCharacters refills reading virt enough left none calls whole

/-- The bytes behind the get area are in the cookie. -/
def popSource : Source (List UInt8) where
  valid _ _ := True
  remaining _ cookie := cookie

def popByte (s : Streambuf (List UInt8)) : Int × Streambuf (List UInt8) :=
  match s.cookie with
  | [] => (eofValue, s)
  | b :: rest => (b.toNat, { s with cookie := rest })

def popTable : Jumptable (List UInt8) where
  read s _ := (0, [], s)
  write s _ := (0, s)
  seek s _ _ := (-1, 0, s)

/-- A stream with `area` in its get area. -/
def popStream (area rest : List UInt8) : Streambuf (List UInt8) :=
  { Streambuf.finit false false false false (Memory.store (fun _ => 0) 16 area) rest 16 8 with
    gptr := 16
    egptr := 16 + area.length }

theorem popByte_refills : Refills popSource popByte := by
  intro s reading empty
  have unread := reading.unread_nil.mpr empty
  cases cookie : s.cookie with
  | nil =>
    simp only [popByte, cookie]
    exact ⟨reading, by simp [NextByte, Source.left, unread, popSource, cookie]⟩
  | cons b rest =>
    simp only [popByte, cookie]
    refine ⟨⟨reading.noRd, reading.put, reading.get, ?_, trivial⟩, ?_⟩
    · intro eof
      have ended := reading.eof eof
      simp [popSource, cookie] at ended
    · have unread' : Streambuf.unread { s with cookie := rest } = [] := unread
      simp [NextByte, Source.left, unread, unread', popSource, cookie]

theorem popStream_reading (area rest : List UInt8) : Reading popSource (popStream area rest) where
  noRd := rfl
  put := rfl
  get := Nat.le_add_right _ _
  eof := nofun
  valid := trivial

/-- A get area that starts with a character does not end inside it. -/
theorem Whole.of_scan {more rest : List UInt8} {v : Nat} (unread : s.unread = b :: more)
    (reads : scan b more = .char v rest) (small : s.unread.length < 2 ^ 32)
    : Whole s := by
  refine ⟨?_, fun _ _ _ _ => small⟩
  rintro c _ ⟨tail, bytes⟩
  obtain ⟨b', more', same, reads'⟩ := scan_encode c []
  rw [append_nil, ← bytes, unread, cons_append] at same
  obtain ⟨rfl, rfl⟩ := same
  rw [scan_append, reads, Scan.extend, Scan.char.injEq, append_eq_nil_iff] at reads'
  rw [← bytes, reads'.2.2, append_nil]

theorem Whole.of_empty (empty : s.unread = []) : Whole s where
  notPart _ some_ := absurd empty some_
  length _ _ some_ := nomatch empty.symm.trans some_

/-- The first character is in the get area and the second one behind it. -/
theorem fgetwc_inOrder_two
    : ∃ results, runFgetwc popTable popByte 4 [7, 7, 7] (popStream [0xC3, 0xA9] [0xE2, 0x82, 0xAC])
          = some results
        ∧ ReadsCharacters popSource ['é', '€'] (popStream [0xC3, 0xA9] [0xE2, 0x82, 0xAC])
          results := by
  refine (fgetwc_inOrder popByte_refills (popStream_reading _ _) popTable (Nat.le_refl 4)).2
    ['é', '€'] [] [7, 7, 7] ?_ ?_ rfl ?_
  · decide
  · intro c starts
    exact utf8EncodeChar_ne_nil c (prefix_nil.mp starts)
  · have first : scan 0xC3 [0xA9] = .char 0xE9 [] := by decide
    refine ⟨.of_scan rfl first (by decide), ?_⟩
    intro c s' run
    cases run
    refine ⟨.of_empty rfl, ?_⟩
    intro c s' run
    cases run
    exact ⟨.of_empty rfl, fun _ _ _ => trivial⟩

/-- A get area that ends inside a character: the call returns what `wc` held and moves `gptr`
back by two.
-/
theorem fgetwc_moves_back
    : Refills popSource popByte ∧ Reading popSource (popStream [0xC3] [0xA9])
      ∧ popSource.left (popStream [0xC3] [0xA9]) = String.utf8EncodeChar 'é'
      ∧ ∃ s', fgetwcUnlocked popTable popByte 7 4 (popStream [0xC3] [0xA9]) = some (7, s')
        ∧ s'.gptr < (popStream [0xC3] [0xA9]).gptr := by
  exact ⟨popByte_refills, popStream_reading _ _, by decide, _, rfl, by decide⟩

end Nglibc.Stdio
