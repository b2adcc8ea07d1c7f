import Nglibc.Stdio.Fgetwc

/-! Input streams by the refills of their get areas: which bytes the get area holds, and which byte strings
the calls of `__uflowx` will bring.
-/

namespace Nglibc.Stdio

variable {W : Type} {refills : W → List (List UInt8)}

/-- A stream that is only read from. Behind it stand the refills to come, each of at least a byte. -/
structure Fed (refills : W → List (List UInt8)) (s : Streambuf W) : Prop where
  noRd : s.noRd = false
  put : s.pptr = s.pbase
  get : s.gptr ≤ s.egptr
  eof : s.eof = true → refills s.cookie = []
  some_ : [] ∉ refills s.cookie

def inputOf (refills : W → List (List UInt8)) (s : Streambuf W) : List UInt8 :=
  s.unread ++ (refills s.cookie).flatten

/-- The byte `b` was read, and can be pushed back. -/
structure Behind (b : UInt8) (s : Streambuf W) : Prop where
  low : 0 < s.gptr
  byte : s.memory (s.gptr - 1) = b

/-- A refill of `b :: more`: the first byte is delivered, the others are in the get area. A byte is
before `gptr` unless that is where the buffer starts.
-/
structure Refilled (refills : W → List (List UInt8)) (s : Streambuf W) (b : UInt8) (more : List UInt8)
    (later : List (List UInt8)) (s' : Streambuf W)
    : Prop where
  fed : Fed refills s'
  unread : s'.unread = more
  later : refills s'.cookie = later
  eof : s'.eof = s.eof
  err : s'.err = s.err
  low : 0 < s'.gptr
  byte : s'.buf < s'.gptr → s'.memory (s'.gptr - 1) = b

structure Ended (refills : W → List (List UInt8)) (s s' : Streambuf W) : Prop where
  fed : Fed refills s'
  unread : s'.unread = []
  later : refills s'.cookie = []
  err : s'.err = s.err

/-- A function that refills an empty get area and returns the first byte, as `value` converts it. -/
def Refill (refills : W → List (List UInt8)) (value : UInt8 → Int)
    (uflow : Streambuf W → Int × Streambuf W)
    : Prop :=
  ∀ s, Fed refills s → s.gptr = s.egptr →
    (refills s.cookie = [] → (uflow s).1 = eofValue ∧ Ended refills s (uflow s).2)
    ∧ ∀ b more later, refills s.cookie = (b :: more) :: later →
        (uflow s).1 = value b ∧ Refilled refills s b more later (uflow s).2

def Feeds (refills : W → List (List UInt8)) (virt : Jumptable W) : Prop :=
  ∀ s, Fed refills s → s.gptr = s.egptr → s.eof = false →
    (refills s.cookie = [] → (virt.read s 1).1 ≠ 1 ∧ Ended refills s (virt.read s 1).2.2)
    ∧ ∀ b more later, refills s.cookie = (b :: more) :: later →
        (virt.read s 1).1 = 1 ∧ (virt.read s 1).2.1 = [b]
        ∧ Refilled refills s b more later (virt.read s 1).2.2

/-- A byte as an `int`. -/
def byteValue (b : UInt8) : Int := b.toNat

def MarksEnd (refills : W → List (List UInt8)) (uflow : Streambuf W → Int × Streambuf W) : Prop :=
  ∀ s, Fed refills s → inputOf refills s = [] → (uflow s).2.eof = true

variable {s : Streambuf W}

theorem Fed.unread_nil (fed : Fed refills s) : s.unread = [] ↔ s.gptr = s.egptr := by
  have get := fed.get
  rw [← List.length_eq_zero_iff, Streambuf.unread, Memory.length_slice]
  omega

theorem Fed.unread_cons (fed : Fed refills s) (some_ : s.gptr ≠ s.egptr)
    : s.unread = s.memory s.gptr :: Streambuf.unread { s with gptr := s.gptr + 1 } := by
  have get := fed.get
  have room : s.egptr - s.gptr = s.egptr - (s.gptr + 1) + 1 := by omega
  simp only [Streambuf.unread]
  rw [room, Memory.slice_succ]

/-- `__uflowx` refills as its cookie does. The byte goes through a plain `char`. -/
theorem uflowx_refill {virt : Jumptable W} (feeds : Feeds refills virt)
    : Refill refills plainChar (uflowx virt) := by
  intro s fed empty
  obtain ⟨t, entered, fed', drained, eof, err, cookie⟩ : ∃ t,
      s.toread virt.write = (if s.eof then eofValue else 0, t) ∧ Fed refills t ∧ t.gptr = t.egptr
      ∧ t.eof = s.eof ∧ t.err = s.err ∧ t.cookie = s.cookie := by
    refine ⟨{ s with
      pptr := 0, pbase := 0, epptr := 0, curWr := false, gptr := s.bufend, egptr := s.bufend }, ?_,
      ⟨fed.noRd, rfl, Nat.le_refl _, fed.eof, fed.some_⟩, rfl, rfl, rfl, rfl⟩
    simp [Streambuf.toread, fed.put, fed.noRd]
  rw [uflowx, entered, ← cookie]
  cases flag : s.eof with
  | true =>
    have ended : refills t.cookie = [] := cookie ▸ fed.eof flag
    refine ⟨fun _ => ⟨by simp [eofValue], ?_⟩, fun b more later coming => ?_⟩
    · simpa [eofValue] using (⟨fed', fed'.unread_nil.mpr drained, ended, err⟩ : Ended refills s t)
    · rw [ended] at coming
      cases coming
  | false =>
    obtain ⟨ends, brings⟩ := feeds t fed' drained (eof.trans flag)
    rcases result : virt.read t 1 with ⟨n, bytes, s'⟩
    rw [result] at ends brings
    refine ⟨fun coming => ?_, fun b more later coming => ?_⟩
    · obtain ⟨none, ended⟩ := ends coming
      have none' : n ≠ 1 := none
      simpa [result, none'] using (⟨ended.fed, ended.unread, ended.later, ended.err.trans err⟩ :
        Ended refills s s')
    · obtain ⟨one, byte, refilled⟩ := brings b more later coming
      have one' : n = 1 := one
      have byte' : bytes = [b] := byte
      simpa [result, one', byte'] using (⟨refilled.fed, refilled.unread, refilled.later,
        refilled.eof.trans eof, refilled.err.trans err, refilled.low, refilled.byte⟩ :
        Refilled refills s b more later s')

/-- The byte `b` comes next: from the get area, or as the first one of a refill. -/
inductive Next (refills : W → List (List UInt8)) (s : Streambuf W) : Prop where
  | ready (b : UInt8) (some_ : s.gptr ≠ s.egptr) (byte : s.memory s.gptr = b)
      (unread : s.unread = b :: Streambuf.unread { s with gptr := s.gptr + 1 })
  | refill (b : UInt8) (more : List UInt8) (later : List (List UInt8)) (empty : s.gptr = s.egptr)
      (unread : s.unread = []) (coming : refills s.cookie = (b :: more) :: later)
  | ended (empty : s.gptr = s.egptr) (unread : s.unread = []) (coming : refills s.cookie = [])

theorem Fed.chunk (fed : Fed refills s) {chunk : List UInt8} {later : List (List UInt8)}
    (coming : refills s.cookie = chunk :: later)
    : ∃ b more, chunk = b :: more := by
  apply List.exists_cons_of_ne_nil
  rintro rfl
  apply fed.some_
  rw [coming]
  exact List.mem_cons_self

theorem Fed.next (fed : Fed refills s) : Next refills s := by
  by_cases empty : s.gptr = s.egptr
  · have unread := fed.unread_nil.mpr empty
    cases coming : refills s.cookie with
    | nil => exact .ended empty unread coming
    | cons chunk later =>
      obtain ⟨b, more, rfl⟩ := fed.chunk coming
      exact .refill b more later empty unread coming
  · exact .ready _ empty rfl (fed.unread_cons empty)

theorem Fed.advance (fed : Fed refills s) (some_ : s.gptr ≠ s.egptr)
    : Fed refills { s with gptr := s.gptr + 1 } := by
  have get := fed.get
  exact ⟨fed.noRd, fed.put, Nat.lt_of_le_of_ne get some_, fed.eof, fed.some_⟩

theorem behind_advance (s : Streambuf W) : Behind (s.memory s.gptr) { s with gptr := s.gptr + 1 } :=
  ⟨Nat.succ_pos _, rfl⟩

theorem Fed.store (fed : Fed refills s) (low : 0 < s.gptr) (b : UInt8)
    : Fed refills { s with memory := s.memory.store (s.gptr - 1) [b] }
      ∧ Streambuf.unread { s with memory := s.memory.store (s.gptr - 1) [b] } = s.unread
      ∧ Behind b { s with memory := s.memory.store (s.gptr - 1) [b] } := by
  refine ⟨⟨fed.noRd, fed.put, fed.get, fed.eof, fed.some_⟩, ?_, low, ?_⟩
  · apply Memory.slice_store_disjoint
    simp only [List.length_singleton]
    omega
  · simp only [Memory.store_singleton, if_true]

theorem Fed.back {b : UInt8} (fed : Fed refills s) (behind : Behind b s)
    : Fed refills { s with gptr := s.gptr - 1 }
      ∧ Streambuf.unread { s with gptr := s.gptr - 1 } = b :: s.unread := by
  have get := fed.get
  have low := behind.low
  refine ⟨⟨fed.noRd, fed.put, by simp only; omega, fed.eof, fed.some_⟩, ?_⟩
  have room : s.egptr - (s.gptr - 1) = s.egptr - s.gptr + 1 := by omega
  have place : s.gptr - 1 + 1 = s.gptr := Nat.sub_add_cancel low
  simp only [Streambuf.unread]
  rw [room, Memory.slice_succ, behind.byte, place]

def refillTable : Jumptable (List (List UInt8)) where
  read s _ :=
    match s.cookie with
    | (b :: more) :: later =>
      (1, [b], { s with
        memory := s.memory.store 16 (b :: more)
        gptr := 17
        egptr := 17 + more.length
        cookie := later })
    | _ => (0, [], { s with eof := true })
  write s _ := (0, s)
  seek s _ _ := (-1, 0, s)

/-- A stream with `area` in its get area. -/
def refillStream (area : List UInt8) (later : List (List UInt8)) : Streambuf (List (List UInt8)) :=
  { Streambuf.finit false false false false (Memory.store (fun _ => 0) 16 area) later 16 256 with
    gptr := 16
    egptr := 16 + area.length }

theorem refillTable_feeds : Feeds id refillTable := by
  intro s fed empty _
  refine ⟨fun coming => ?_, fun b more later coming => ?_⟩
  · have cookie : s.cookie = [] := coming
    simp only [refillTable, cookie]
    exact ⟨by decide, ⟨fed.noRd, fed.put, fed.get, fun _ => rfl, nofun⟩,
      fed.unread_nil.mpr empty, rfl, rfl⟩
  · have cookie : s.cookie = (b :: more) :: later := coming
    have ended : s.eof = true → later = [] := by
      intro eof
      have none := fed.eof eof
      rw [coming] at none
      cases none
    have some_ : [] ∉ later := by
      intro member
      apply fed.some_
      rw [coming]
      exact List.mem_cons_of_mem _ member
    simp only [refillTable, cookie]
    refine ⟨trivial, trivial, ⟨⟨fed.noRd, fed.put, Nat.le_add_right _ _, ended, some_⟩, ?_, rfl, rfl, rfl,
      Nat.succ_pos _, fun _ => rfl⟩⟩
    have behind : (s.memory.store 16 (b :: more)).slice 16 (more.length + 1) = b :: more :=
      Memory.slice_store_self
    have width : 17 + more.length - 17 = more.length := Nat.add_sub_cancel_left 17 _
    simp only [Streambuf.unread, width]
    exact (List.cons.inj behind).2

theorem refillStream_fed {area : List UInt8} {later : List (List UInt8)} (some_ : [] ∉ later)
    : Fed id (refillStream area later) :=
  ⟨rfl, rfl, Nat.le_add_right _ _, nofun, some_⟩

theorem refillTable_marksEnd : MarksEnd id (uflowx refillTable) := by
  intro s fed none
  have cookie : s.cookie = [] := by
    cases coming : s.cookie with
    | nil => rfl
    | cons chunk later =>
      obtain ⟨b, more, rfl⟩ := fed.chunk coming
      have empty := (List.append_eq_nil_iff.mp none).2
      rw [coming] at empty
      cases empty
  cases flag : s.eof <;> simp [uflowx, Streambuf.toread, fed.put, fed.noRd, flag, refillTable, cookie, eofValue]

/-- A refill that returns the byte itself, and sets the end flag at the end. -/
def refillByte (s : Streambuf (List (List UInt8))) : Int × Streambuf (List (List UInt8)) :=
  match refillTable.read s 1 with
  | (1, [b], s) => (b.toNat, s)
  | (_, _, s) => (eofValue, s)

theorem refillByte_refill : Refill id byteValue refillByte := by
  intro s fed empty
  have ends : id s.cookie = [] → (refillByte s).1 = eofValue ∧ Ended id s (refillByte s).2 := by
    intro coming
    have cookie : s.cookie = [] := coming
    simp only [refillByte, refillTable, cookie]
    exact ⟨trivial, ⟨fed.noRd, fed.put, fed.get, fun _ => rfl, nofun⟩, fed.unread_nil.mpr empty, rfl, rfl⟩
  refine ⟨ends, fun b more later coming => ?_⟩
  have cookie : s.cookie = (b :: more) :: later := coming
  have unended : s.eof = false := by
    cases eof : s.eof with
    | false => rfl
    | true =>
      have none := fed.eof eof
      rw [coming] at none
      cases none
  have brings := ((refillTable_feeds s fed empty unended).2 b more later coming).2.2
  simp only [refillTable, cookie] at brings
  simp only [refillByte, refillTable, cookie]
  exact ⟨rfl, brings⟩

theorem refillByte_marksEnd : MarksEnd id refillByte := by
  intro s fed none
  have cookie : s.cookie = [] := by
    have empty := (List.append_eq_nil_iff.mp none).2
    cases coming : s.cookie with
    | nil => rfl
    | cons chunk later =>
      have some_ := fed.some_
      rw [id, coming] at some_ empty
      rw [List.flatten_cons, List.append_eq_nil_iff] at empty
      rw [empty.1] at some_
      exact absurd List.mem_cons_self some_
  simp only [refillByte, refillTable, cookie]

end Nglibc.Stdio
