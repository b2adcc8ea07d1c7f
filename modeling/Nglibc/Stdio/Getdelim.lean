import Nglibc.Stdio.InputFeed

/-! `__getdelim` takes the bytes up to a delimiter, unless a refill starts with a byte that `getc_unlocked`
makes negative.
-/

namespace Nglibc.Stdio

open List

variable {W : Type} {refills : W → List (List UInt8)} {virt : Jumptable W}

/-! Records -/

/-- The bytes up to and including the first delimiter, or all of them. -/
def recordOf (delim : UInt8) : List UInt8 → List UInt8
  | [] => []
  | b :: rest => if b = delim then [b] else b :: recordOf delim rest

variable {delim : UInt8} {before : List UInt8} {line : Line} {s : Streambuf W}

theorem recordOf_append (none : delim ∉ before) (rest : List UInt8)
    : recordOf delim (before ++ rest) = before ++ recordOf delim rest := by
  induction before with
  | nil => rfl
  | cons b before ih =>
    have other : ¬ b = delim := fun same => none (same ▸ mem_cons_self)
    rw [cons_append, recordOf, if_neg other,
      ih (fun member => none (mem_cons_of_mem b member)), cons_append]

theorem recordOf_delim (none : delim ∉ before) (rest : List UInt8)
    : recordOf delim (before ++ delim :: rest) = before ++ [delim] := by
  rw [recordOf_append none, recordOf, if_pos rfl]

theorem recordOf_none (none : delim ∉ before)
    : recordOf delim before = before := by
  have whole := recordOf_append none []
  rw [recordOf, append_nil] at whole
  exact whole

/-- The bytes up to the first delimiter in a get area. -/
theorem upTo_found (member : delim ∈ s.unread)
    : ∃ before rest, s.unread = before ++ delim :: rest ∧ delim ∉ before
      ∧ s.upTo delim = (before.length + 1, true) := by
  have first (before rest : List UInt8) (none : delim ∉ before)
      : (before ++ delim :: rest).idxOf? delim = some before.length := by
    induction before with
    | nil => simp [idxOf?_cons]
    | cons b before ih =>
      have other : (b == delim) = false := beq_false_of_ne fun same => none (same ▸ mem_cons_self)
      rw [cons_append, idxOf?_cons, other, ih fun member => none (mem_cons_of_mem b member)]
      rfl
  obtain ⟨before, rest, split, none⟩ := eq_append_cons_of_mem member
  refine ⟨before, rest, split, none, ?_⟩
  rw [Streambuf.upTo, split, first before rest none]

theorem upTo_none (none : delim ∉ s.unread)
    : s.upTo delim = (s.unread.length, false) := by
  rw [Streambuf.upTo, idxOf?_eq_none_iff.mpr none]

/-! One round -/

/-- The line behind the growth for `k` more bytes. -/
def Line.grown (line : Line) (i k : Nat) (found : Bool) : Line :=
  if i + k ≥ line.size then { line with null := false, size := getdelimGrow i k found } else line

/-- The line with bytes stored at the offset `i`. -/
def Line.put (line : Line) (i : Nat) (bytes : List UInt8) : Line :=
  { line with block := line.block.store i bytes }

/-- A round of the loop that finds the delimiter in the get area. -/
theorem getdelimLoop_found (virt : Jumptable W) {delim : Int} (i : Nat) {k : Nat}
    (found : s.upTo (UInt8.ofInt delim) = (k, true)) (fuel calls : Nat) (line : Line)
    : getdelimLoop virt (fun _ => true) delim (fuel + 1) i calls line s
      = some ⟨(i + k : Nat), none, ((line.grown i k true).put i (s.memory.slice s.gptr k)).put (i + k) [0],
          { s with gptr := s.gptr + k }⟩ := by
  rw [getdelimLoop, found]
  by_cases small : i + k ≥ line.size
  · simp only [small, if_true, Line.grown, Line.put]
  · simp only [small, if_false, if_true, Line.grown, Line.put]

theorem getdelimGrow_ge (i k : Nat) (found : Bool) : i + k + 2 ≤ getdelimGrow i k found := by
  unfold getdelimGrow
  simp only
  split <;> omega

theorem Line.grown_spec (line : Line) (i k : Nat) (found : Bool)
    : (line.grown i k found).block = line.block ∧ i + k < (line.grown i k found).size
      ∧ ((line.size ≠ 0 → line.null = false) → (line.grown i k found).null = false) := by
  have room := getdelimGrow_ge i k found
  unfold Line.grown
  split
  next full => exact ⟨rfl, by simp only; omega, fun _ => rfl⟩
  next => exact ⟨rfl, by omega, fun owned => owned (by omega)⟩

theorem Line.put_slice (holds : line.block.slice 0 before.length = before) (bytes : List UInt8)
    : (line.put before.length bytes).block.slice 0 (before ++ bytes).length = before ++ bytes := by
  have stored := @Memory.slice_store_append _ line.block 0 before.length bytes
  rw [Nat.zero_add, holds] at stored
  rw [length_append]
  exact stored

theorem plainChar_eof (b : UInt8) : plainChar b = eofValue ↔ b = 0xFF := by
  have last : (0xFF : UInt8).toNat = 255 := rfl
  rw [← UInt8.toNat_inj]
  unfold plainChar eofValue
  split <;> omega

theorem plainChar_delim (b d : UInt8) : plainChar b = d.toNat ↔ b = d ∧ b.toNat < 128 := by
  have small := b.toNat_lt
  rw [← UInt8.toNat_inj]
  unfold plainChar
  split <;> omega

/-! One record -/

/-- A result that takes the first record of the input, or says that there is none. The line
holds the record and a terminator.
-/
structure TakesRecord (refills : W → List (List UInt8)) (delim : UInt8) (input : List UInt8)
    (r : GetdelimResult W)
    : Prop where
  fed : Fed refills r.stream
  ended : input = [] → r.ret = -1
  ret : input ≠ [] → r.ret = (recordOf delim input).length
  stored : input ≠ [] →
    r.line.block.slice 0 (recordOf delim input ++ [0]).length = recordOf delim input ++ [0]
  owned : input ≠ [] → r.line.null = false ∧ (recordOf delim input).length < r.line.size
  behind : inputOf refills r.stream = input.drop (recordOf delim input).length

/-- No refill that the loop asks for starts with a byte that `getc_unlocked` makes `EOF`, and none
with a delimiter from 0x80 on that goes into the line at once, unless it is the last byte. The
loop has `i` bytes in a line of `n`.
-/
def RefillsFit (delim : UInt8) : List (List UInt8) → List UInt8 → Nat → Nat → Prop
  | (b :: more) :: later, area, i, n =>
    let n := if i + area.length ≥ n then getdelimGrow i area.length false else n
    let i := i + area.length
    delim ∈ area ∨ b ≠ 0xFF ∧ if i + 1 ≥ n then RefillsFit delim later (b :: more) i n
        else if b = delim then b.toNat < 128 ∨ more = [] ∧ later = []
        else RefillsFit delim later more (i + 1) n
  | _, _, _, _ => True

/-- What the loop has in its line, before it reads on. -/
structure Collected (before : List UInt8) (line : Line) : Prop where
  holds : line.block.slice 0 before.length = before
  owned : line.size ≠ 0 → line.null = false

variable {input : List UInt8}

theorem Line.finish (holds : line.block.slice 0 before.length = before) (room : before.length < line.size)
    (owned : line.null = false) (fed : Fed refills s) (record : recordOf delim input = before)
    (some_ : input ≠ []) (behind : inputOf refills s = input.drop before.length)
    : TakesRecord refills delim input ⟨before.length, .none, line.put before.length [0], s⟩ := by
  refine ⟨fed, fun empty => absurd empty some_, fun _ => ?_, fun _ => ?_, fun _ => ?_, ?_⟩
  · rw [record]
  · rw [record]
    exact Line.put_slice holds [0]
  · rw [record]
    exact ⟨owned, room⟩
  · rw [record]
    exact behind

/-- The line and the stream behind a round without a delimiter in the get area. -/
structure Drained (refills : W → List (List UInt8)) (before : List UInt8) (line : Line)
    (s : Streambuf W) (line' : Line) (s' : Streambuf W)
    : Prop where
  held : Collected (before ++ s.unread) line'
  owned : line'.null = false
  room : (before ++ s.unread).length < line'.size
  size : line'.size = if before.length + s.unread.length ≥ line.size then
    getdelimGrow before.length s.unread.length false else line.size
  fed : Fed refills s'
  empty : s'.gptr = s'.egptr
  cookie : s'.cookie = s.cookie
  eof : s'.eof = s.eof

section

variable (collected : Collected before line)
include collected

/-- The get area without a delimiter copied into the line. -/
theorem Collected.drain (fed : Fed refills s)
    : Drained refills before line s
        ((line.grown before.length s.unread.length false).put before.length s.unread)
        { s with gptr := s.gptr + s.unread.length } := by
  obtain ⟨block, room, owned⟩ := line.grown_spec before.length s.unread.length false
  have get := fed.get
  have width : s.unread.length = s.egptr - s.gptr := Memory.length_slice
  have holds : (line.grown before.length s.unread.length false).block.slice 0 before.length = before := by
    rw [block]
    exact collected.holds
  refine ⟨⟨Line.put_slice holds _, fun _ => owned collected.owned⟩, owned collected.owned, ?_, ?_,
    ⟨fed.noRd, fed.put, ?_, fed.eof, fed.some_⟩, ?_, rfl, rfl⟩
  · rw [length_append]
    exact room
  · rw [Line.grown]
    split <;> rfl
  · simp only
    omega
  · simp only
    omega

theorem Collected.push (b : UInt8)
    : Collected (before ++ [b]) (line.put before.length [b]) :=
  ⟨Line.put_slice collected.holds [b], collected.owned⟩

/-- The delimiter is in the get area. -/
theorem Collected.found (early : delim ∉ before) (fed : Fed refills s) (member : delim ∈ s.unread)
    (fuel calls : Nat)
    : ∃ r, getdelimLoop virt (fun _ => true) delim.toNat (fuel + 1) before.length calls line s = some r
      ∧ TakesRecord refills delim (before ++ inputOf refills s) r := by
  obtain ⟨front, rest, split, none, place⟩ := upTo_found member
  have place' : s.upTo (UInt8.ofInt (delim.toNat : Int)) = (front.length + 1, true) := by
    rw [ofInt_toNat]
    exact place
  refine ⟨_, getdelimLoop_found virt before.length place' fuel calls line, ?_⟩
  obtain ⟨block, room, owned⟩ := line.grown_spec before.length (front.length + 1) true
  have width : s.egptr - s.gptr = front.length + 1 + rest.length := by
    have lengths := congrArg List.length split
    rw [length_append, length_cons, Streambuf.unread, Memory.length_slice] at lengths
    omega
  have split' : s.unread = (front ++ [delim]) ++ rest := by
    rw [append_assoc]
    exact split
  have length : (front ++ [delim]).length = front.length + 1 := length_append
  have copied : s.memory.slice s.gptr (front.length + 1) = front ++ [delim] := by
    have whole : s.unread.take (front.length + 1) = s.memory.slice s.gptr (front.length + 1) :=
      Memory.take_slice (by omega)
    rw [← whole, split', take_left' length]
  have later : Streambuf.unread { s with gptr := s.gptr + (front.length + 1) } = rest := by
    rw [← Streambuf.drop_unread, split', drop_left' length]
  have holds : (line.grown before.length (front.length + 1) true).block.slice 0 before.length = before := by
    rw [block]
    exact collected.holds
  have record : recordOf delim (before ++ inputOf refills s) = before ++ (front ++ [delim]) := by
    rw [recordOf_append early, inputOf, split, append_assoc, cons_append,
      recordOf_delim none]
  have size : (before ++ (front ++ [delim])).length = before.length + (front.length + 1) := by
    rw [length_append, length]
  rw [copied, ← size]
  apply Line.finish
  · exact Line.put_slice holds _
  · rw [size]
    exact room
  · exact owned collected.owned
  · exact ⟨fed.noRd, fed.put, by simp only; omega, fed.eof, fed.some_⟩
  · exact record
  · rw [inputOf, split]
    simp
  · have input : before ++ inputOf refills s
        = (before ++ (front ++ [delim])) ++ (rest ++ (refills s.cookie).flatten) := by
      rw [inputOf, split']
      simp
    rw [inputOf, later, input, drop_left]

end

theorem getcUnlocked_empty (empty : s.gptr = s.egptr)
    : getcUnlocked virt s = uflowx virt s := by
  rw [getcUnlocked, if_neg (not_not_intro empty)]

/-- A round without a delimiter in the get area, behind the copy. -/
theorem Collected.round (virt : Jumptable W) (collected : Collected before line) (fed : Fed refills s)
    (none : delim ∉ s.unread) (fuel calls : Nat)
    : ∃ calls' line' s', Drained refills before line s line' s'
      ∧ getdelimLoop virt (fun _ => true) delim.toNat (fuel + 1) before.length calls line s
        = if (uflowx virt s').1 = eofValue then
            if (before ++ s.unread).length = 0 ∨ !(uflowx virt s').2.eof then
              some ⟨-1, .none, line', (uflowx virt s').2⟩
            else
              some ⟨(before ++ s.unread).length, .none, line'.put (before ++ s.unread).length [0],
                (uflowx virt s').2⟩
          else if (before ++ s.unread).length + 1 ≥ line'.size then
            getdelimLoop virt (fun _ => true) delim.toNat fuel (before ++ s.unread).length calls' line'
              { (uflowx virt s').2 with
                gptr := (uflowx virt s').2.gptr - 1
                memory := (uflowx virt s').2.memory.store ((uflowx virt s').2.gptr - 1)
                  [UInt8.ofInt (uflowx virt s').1] }
          else if plainChar (UInt8.ofInt (uflowx virt s').1) = delim.toNat then
            some ⟨((before ++ s.unread).length + 1 : Nat), .none,
              (line'.put (before ++ s.unread).length [UInt8.ofInt (uflowx virt s').1]).put
                ((before ++ s.unread).length + 1) [0],
              (uflowx virt s').2⟩
          else
            getdelimLoop virt (fun _ => true) delim.toNat fuel ((before ++ s.unread).length + 1) calls'
              (line'.put (before ++ s.unread).length [UInt8.ofInt (uflowx virt s').1])
              (uflowx virt s').2 := by
  have drained := collected.drain fed
  have absent : s.upTo (UInt8.ofInt (delim.toNat : Int)) = (s.unread.length, false) := by
    rw [ofInt_toNat]
    exact upTo_none none
  have copied : s.memory.slice s.gptr s.unread.length = s.unread := by
    rw [Streambuf.unread, Memory.length_slice]
  rw [getdelimLoop, absent]
  by_cases small : before.length + s.unread.length ≥ line.size
  · refine ⟨calls + 1, _, _, drained, ?_⟩
    simp only [← getcUnlocked_empty drained.empty, small, copied, length_append, if_true,
      Line.grown, Line.put, Bool.false_eq_true, if_false]
  · refine ⟨calls, _, _, drained, ?_⟩
    simp only [← getcUnlocked_empty drained.empty, small, copied, length_append, if_true,
      Line.grown, Line.put, Bool.false_eq_true, if_false]

/-- Nothing comes behind the get area, and the delimiter is not in it. -/
theorem Collected.last (collected : Collected before line) (feeds : Feeds refills virt)
    (marks : MarksEnd refills (uflowx virt)) (fed : Fed refills s) (none : delim ∉ s.unread)
    (record : recordOf delim (before ++ s.unread) = before ++ s.unread) (coming : refills s.cookie = [])
    (fuel calls : Nat)
    : ∃ r, getdelimLoop virt (fun _ => true) delim.toNat (fuel + 1) before.length calls line s = some r
      ∧ TakesRecord refills delim (before ++ inputOf refills s) r := by
  obtain ⟨calls', line', s', drained, round⟩ := collected.round virt fed none fuel calls
  have coming' : refills s'.cookie = [] := by
    rw [drained.cookie]
    exact coming
  have input : inputOf refills s = s.unread := by
    rw [inputOf, coming, flatten_nil, append_nil]
  have left : inputOf refills s' = [] := by
    rw [inputOf, drained.fed.unread_nil.mpr drained.empty, coming', flatten_nil, append_nil]
  obtain ⟨eof, ended⟩ := (uflowx_refill feeds s' drained.fed drained.empty).1 coming'
  have marked := marks s' drained.fed left
  have left' : inputOf refills (uflowx virt s').2 = [] := by
    rw [inputOf, ended.unread, ended.later, flatten_nil, append_nil]
  have record' : recordOf delim (before ++ inputOf refills s) = before ++ s.unread := by
    rw [input]
    exact record
  rw [eof, marked, if_pos rfl] at round
  by_cases nothing : before ++ s.unread = []
  · rw [if_pos (.inl (length_eq_zero_iff.mpr nothing))] at round
    have empty' : before ++ inputOf refills s = [] := by
      rw [input]
      exact nothing
    refine ⟨_, round, ⟨ended.fed, fun _ => rfl, fun some_ => absurd empty' some_,
      fun some_ => absurd empty' some_, fun some_ => absurd empty' some_, ?_⟩⟩
    rw [left', empty', drop_nil]
  · rw [if_neg] at round
    · refine ⟨_, round, ?_⟩
      apply Line.finish drained.held.holds drained.room drained.owned ended.fed record'
      · rw [input]
        exact nothing
      · rw [left', input, drop_length]
    · rintro (zero | unmarked)
      · exact nothing (length_eq_zero_iff.mp zero)
      · exact absurd unmarked (by decide)

/-- A refill comes behind the get area, and the delimiter is not in it. -/
theorem Collected.more (collected : Collected before line) (feeds : Feeds refills virt)
    (fed : Fed refills s) (none : delim ∉ s.unread) {b : UInt8} {more : List UInt8}
    {later : List (List UInt8)} (coming : refills s.cookie = (b :: more) :: later) (fuel calls : Nat)
    : ∃ calls' line' s' t, Drained refills before line s line' s'
      ∧ Refilled refills s' b more later t
      ∧ getdelimLoop virt (fun _ => true) delim.toNat (fuel + 1) before.length calls line s
        = if b = 0xFF then some ⟨-1, .none, line', t⟩
          else if (before ++ s.unread).length + 1 ≥ line'.size then
            getdelimLoop virt (fun _ => true) delim.toNat fuel (before ++ s.unread).length calls' line'
              { t with gptr := t.gptr - 1, memory := t.memory.store (t.gptr - 1) [b] }
          else if b = delim ∧ b.toNat < 128 then
            some ⟨((before ++ s.unread ++ [b]).length : Nat), .none,
              (line'.put (before ++ s.unread).length [b]).put (before ++ s.unread ++ [b]).length [0], t⟩
          else
            getdelimLoop virt (fun _ => true) delim.toNat fuel (before ++ s.unread ++ [b]).length calls'
              (line'.put (before ++ s.unread).length [b]) t := by
  obtain ⟨calls', line', s', drained, round⟩ := collected.round virt fed none fuel calls
  have coming' : refills s'.cookie = (b :: more) :: later := by
    rw [drained.cookie]
    exact coming
  obtain ⟨value, refilled⟩ :=
    (uflowx_refill feeds s' drained.fed drained.empty).2 b more later coming'
  have unmarked : (!(uflowx virt s').2.eof) = true := by
    rw [refilled.eof, drained.eof]
    cases flag : s.eof with
    | false => rfl
    | true =>
      have ended := fed.eof flag
      rw [coming] at ended
      cases ended
  have width : (before ++ s.unread ++ [b]).length = (before ++ s.unread).length + 1 := length_append
  refine ⟨calls', line', s', (uflowx virt s').2, drained, refilled, ?_⟩
  rw [round, value, plainChar_ofInt, width]
  simp only [plainChar_eof, plainChar_delim, unmarked, or_true, if_true]

theorem Refilled.pushBack {s t : Streambuf W} {b : UInt8} {more : List UInt8} {later : List (List UInt8)}
    (refilled : Refilled refills s b more later t)
    : Fed refills { t with gptr := t.gptr - 1, memory := t.memory.store (t.gptr - 1) [b] }
      ∧ Streambuf.unread { t with gptr := t.gptr - 1, memory := t.memory.store (t.gptr - 1) [b] }
        = b :: more := by
  obtain ⟨fed, unread, behind⟩ := refilled.fed.store refilled.low b
  have back := fed.back behind
  rw [unread, refilled.unread] at back
  exact back

variable {r : GetdelimResult W}

/-- The loop returns an error or at least what it has collected, with a byte more unless the input
has ended. By induction on the rounds.
-/
theorem getdelimLoop_grows (feeds : Feeds refills virt) {fuel calls : Nat}
    (collected : Collected before line) (fed : Fed refills s)
    (run : getdelimLoop virt (fun _ => true) delim.toNat fuel before.length calls line s = some r)
    : r.ret = -1 ∨ before.length ≤ r.ret ∧ (inputOf refills s ≠ [] → before.length < r.ret) := by
  induction fuel generalizing before calls line s with
  | zero => cases run
  | succ fuel ih =>
    by_cases member : delim ∈ s.unread
    · obtain ⟨front, rest, split, none, place⟩ := upTo_found member
      have place' : s.upTo (UInt8.ofInt (delim.toNat : Int)) = (front.length + 1, true) := by
        rw [ofInt_toNat]
        exact place
      rw [getdelimLoop_found virt _ place', Option.some.injEq] at run
      subst run
      refine .inr ⟨?_, fun _ => ?_⟩ <;> simp only <;> omega
    · cases coming : refills s.cookie with
      | nil =>
        obtain ⟨calls', line', s', drained, round⟩ := collected.round virt fed member fuel calls
        have coming' : refills s'.cookie = [] := by
          rw [drained.cookie]
          exact coming
        have ended := ((uflowx_refill feeds s' drained.fed drained.empty).1 coming').1
        have input : inputOf refills s = s.unread := by
          rw [inputOf, coming, flatten_nil, append_nil]
        rw [round, ended, if_pos rfl] at run
        split at run
        next =>
          rw [Option.some.injEq] at run
          exact .inl (run ▸ rfl)
        next =>
          rw [Option.some.injEq] at run
          subst run
          rw [input, ← length_pos_iff]
          simp only [length_append]
          refine .inr ⟨?_, fun some_ => ?_⟩ <;> omega
      | cons chunk later =>
        obtain ⟨b, more, rfl⟩ := fed.chunk coming
        obtain ⟨calls', line', s', t, drained, refilled, round⟩ :=
          collected.more feeds fed member coming fuel calls
        have width : (before ++ s.unread).length = before.length + s.unread.length := length_append
        have width' : (before ++ s.unread ++ [b]).length = before.length + s.unread.length + 1 := by
          rw [length_append, width, length_singleton]
        rw [round] at run
        split at run
        next =>
          rw [Option.some.injEq] at run
          exact .inl (run ▸ rfl)
        next =>
          split at run
          next =>
            obtain ⟨back, unread⟩ := refilled.pushBack
            have some_ : inputOf refills { t with
                gptr := t.gptr - 1, memory := t.memory.store (t.gptr - 1) [b] } ≠ [] := by
              rw [inputOf, unread]
              exact cons_ne_nil _ _
            rcases ih drained.held back run with error | ⟨-, above⟩
            · exact .inl error
            · have above := above some_
              refine .inr ⟨?_, fun _ => ?_⟩ <;> omega
          next =>
            split at run
            next =>
              rw [Option.some.injEq] at run
              subst run
              simp only [width']
              refine .inr ⟨?_, fun _ => ?_⟩ <;> omega
            next =>
              rcases ih (drained.held.push b) refilled.fed run with error | ⟨above, -⟩
              · exact .inl error
              · refine .inr ⟨?_, fun _ => ?_⟩ <;> omega

theorem refillsFit_member {area : List UInt8} (member : delim ∈ area) (chunks : List (List UInt8))
    (i n : Nat)
    : RefillsFit delim chunks area i n := by
  match chunks with
  | [] => exact trivial
  | [] :: later => exact trivial
  | (b :: more) :: later =>
    exact .inl member

theorem TakesRecord.ret_ne (takes : TakesRecord refills delim input r) (some_ : input ≠ [])
    : r.ret ≠ -1 := by
  have length := takes.ret some_
  omega

/-- A delimiter that the loop took for another byte: the record is taken only if nothing follows. -/
theorem Collected.passed (collected : Collected (before ++ [delim]) line) (feeds : Feeds refills virt)
    (marks : MarksEnd refills (uflowx virt)) (early : delim ∉ before) (fed : Fed refills s)
    {fuel calls : Nat} (enough : 0 < fuel) (split : input = (before ++ [delim]) ++ inputOf refills s)
    : (∃ r, getdelimLoop virt (fun _ => true) delim.toNat fuel (before ++ [delim]).length calls line s = some r
        ∧ TakesRecord refills delim input r)
      ↔ s.unread = [] ∧ refills s.cookie = [] := by
  subst split
  have record : recordOf delim (before ++ [delim]) = before ++ [delim] := recordOf_delim early []
  refine ⟨fun ⟨r, run, takes⟩ => ?_, fun ⟨unread, coming⟩ => ?_⟩
  · -- a byte that follows would be in the line, too
    have some_ : (before ++ [delim]) ++ inputOf refills s ≠ [] := by simp
    have ret := takes.ret some_
    have taken : recordOf delim ((before ++ [delim]) ++ inputOf refills s) = before ++ [delim] := by
      rw [append_assoc]
      exact recordOf_delim early _
    rw [taken] at ret
    have nothing : inputOf refills s = [] := by
      by_contra more
      rcases getdelimLoop_grows feeds collected fed run with error | ⟨-, above⟩
      · exact takes.ret_ne some_ error
      · have above := above more
        omega
    obtain ⟨unread, none⟩ := append_eq_nil_iff.mp nothing
    refine ⟨unread, ?_⟩
    cases coming : refills s.cookie with
    | nil => rfl
    | cons chunk later =>
      obtain ⟨b, more, rfl⟩ := fed.chunk coming
      rw [coming] at none
      cases none
  · obtain ⟨fuel, rfl⟩ : ∃ n, fuel = n + 1 := ⟨fuel - 1, by omega⟩
    refine collected.last feeds marks fed ?_ ?_ coming fuel calls
    · rw [unread]
      exact not_mem_nil
    · rw [unread, append_nil]
      exact record

/-- The loop takes the record that begins with what it has collected if and only if the refills fit.
By induction on the rounds.
-/
theorem getdelimLoop_iff (feeds : Feeds refills virt) (marks : MarksEnd refills (uflowx virt))
    {fuel calls : Nat} (collected : Collected before line) (early : delim ∉ before) (fed : Fed refills s)
    (enough : (refills s.cookie).length < fuel)
    : (∃ r, getdelimLoop virt (fun _ => true) delim.toNat fuel before.length calls line s = some r
        ∧ TakesRecord refills delim (before ++ inputOf refills s) r)
      ↔ RefillsFit delim (refills s.cookie) s.unread before.length line.size := by
  induction fuel generalizing before calls line s with
  | zero => exact absurd enough (Nat.not_lt_zero _)
  | succ fuel ih =>
    by_cases member : delim ∈ s.unread
    · exact iff_of_true (collected.found early fed member fuel calls) (refillsFit_member member _ _ _)
    · have none : delim ∉ before ++ s.unread :=
        fun inside => (mem_append.mp inside).elim early member
      cases coming : refills s.cookie with
      | nil =>
        exact iff_of_true
          (collected.last feeds marks fed member (recordOf_none none) coming fuel calls) trivial
      | cons chunk later =>
        obtain ⟨b, more, rfl⟩ := fed.chunk coming
        obtain ⟨calls', line', s', t, drained, refilled, round⟩ :=
          collected.more feeds fed member coming fuel calls
        have enough' : later.length < fuel := by
          rw [coming] at enough
          exact Nat.lt_of_succ_lt_succ enough
        have input : before ++ inputOf refills s
            = (before ++ s.unread) ++ b :: (more ++ later.flatten) := by
          rw [inputOf, coming]
          simp
        have some_ : before ++ inputOf refills s ≠ [] := by
          rw [input]
          exact append_ne_nil_of_right_ne_nil _ (cons_ne_nil _ _)
        have fits : RefillsFit delim ((b :: more) :: later) s.unread before.length line.size
            ↔ b ≠ 0xFF ∧ if (before ++ s.unread).length + 1 ≥ line'.size then
                  RefillsFit delim later (b :: more) (before ++ s.unread).length line'.size
                else if b = delim then b.toNat < 128 ∨ more = [] ∧ later = []
                else RefillsFit delim later more ((before ++ s.unread).length + 1) line'.size := by
          rw [RefillsFit, drained.size, length_append]
          simp only [member, false_or]
        have width : (before ++ s.unread ++ [b]).length = (before ++ s.unread).length + 1 :=
          length_append
        rw [round, fits]
        by_cases negative : b = 0xFF
        · -- the byte is taken for the end
          rw [if_pos negative]
          refine iff_of_false ?_ fun fit => fit.1 negative
          rintro ⟨r, result, takes⟩
          cases result
          exact takes.ret_ne some_ rfl
        · rw [if_neg negative, and_iff_right negative]
          by_cases full : (before ++ s.unread).length + 1 ≥ line'.size
          · -- the byte is pushed back, and read again behind the growth
            rw [if_pos full, if_pos full]
            obtain ⟨back, unread⟩ := refilled.pushBack
            have again := @ih (before ++ s.unread) line' _ calls' drained.held none back
              (refilled.later ▸ enough')
            have same : before ++ inputOf refills s = (before ++ s.unread) ++ inputOf refills
                { t with gptr := t.gptr - 1, memory := t.memory.store (t.gptr - 1) [b] } := by
              rw [input, inputOf, unread, refilled.later]
              rfl
            rw [unread, refilled.later, ← same] at again
            exact again
          · rw [if_neg full, if_neg full]
            have room : (before ++ s.unread ++ [b]).length < line'.size := by omega
            have held := drained.held.push b
            have same : before ++ inputOf refills s
                = (before ++ s.unread ++ [b]) ++ inputOf refills t := by
              rw [input, inputOf, refilled.unread, refilled.later]
              simp
            by_cases delimiter : b = delim
            · rw [if_pos delimiter]
              have record : recordOf delim (before ++ inputOf refills s) = before ++ s.unread ++ [b] := by
                rw [input, delimiter]
                exact recordOf_delim none _
              by_cases ascii : b.toNat < 128
              · rw [if_pos ⟨delimiter, ascii⟩]
                refine iff_of_true ⟨_, rfl, ?_⟩ (.inl ascii)
                apply Line.finish held.holds room drained.owned refilled.fed record some_
                rw [same, drop_left]
              · rw [if_neg fun both => ascii both.2, or_iff_right ascii]
                rw [delimiter] at held same
                rw [← refilled.unread, ← refilled.later, delimiter]
                exact held.passed feeds marks none refilled.fed (Nat.zero_lt_of_lt enough') same
            · rw [if_neg fun both => delimiter both.1, if_neg delimiter]
              have early' : delim ∉ before ++ s.unread ++ [b] := fun inside =>
                (mem_append.mp inside).elim none
                  fun last => delimiter (mem_singleton.mp last).symm
              have again := @ih _ _ t calls' held early' refilled.fed (refilled.later ▸ enough')
              rw [refilled.unread, refilled.later, ← same] at again
              rw [← width]
              exact again

/-! Calls -/

def Line.given (line : Line) : Nat :=
  if line.null then 0 else line.size

theorem getdelim_record (feeds : Feeds refills virt) (marks : MarksEnd refills (uflowx virt))
    (fed : Fed refills s) (delim : UInt8) (line : Line) {fuel : Nat}
    (enough : (refills s.cookie).length < fuel)
    : (∃ r, getdelim virt (fun _ => true) fuel (some line) delim.toNat s = some r
        ∧ TakesRecord refills delim (inputOf refills s) r)
      ↔ RefillsFit delim (refills s.cookie) s.unread 0 line.given := by
  have owned : line.given ≠ 0 → line.null = false := by
    intro some_
    cases null : line.null with
    | false => rfl
    | true => exact absurd (if_pos null) some_
  exact @getdelimLoop_iff _ _ _ delim [] { line with size := line.given } s feeds marks fuel 0
    ⟨rfl, owned⟩ not_mem_nil fed enough

/-- Calls of `__getdelim` one after another, with the line and the stream that the call before left. -/
def getdelims (virt : Jumptable W) (fuel : Streambuf W → Nat) (delim : UInt8)
    : Nat → Line → Streambuf W → Option (List (GetdelimResult W))
  | 0, _, _ => some []
  | calls + 1, line, s => do
    let r ← getdelim virt (fun _ => true) (fuel s) (some line) delim.toNat s
    let later ← getdelims virt fuel delim calls r.line r.stream
    return r :: later

def CallsFit (refills : W → List (List UInt8)) (virt : Jumptable W) (fuel : Streambuf W → Nat)
    (delim : UInt8)
    : Nat → Line → Streambuf W → Prop
  | 0, _, _ => True
  | calls + 1, line, s =>
    RefillsFit delim (refills s.cookie) s.unread 0 line.given
    ∧ ∀ r, getdelim virt (fun _ => true) (fuel s) (some line) delim.toNat s = some r
        → CallsFit refills virt fuel delim calls r.line r.stream

/-- The lines that calls returned before the first error. -/
def linesOf (results : List (GetdelimResult W)) : List (List UInt8) :=
  (results.takeWhile fun r => r.ret ≠ -1).map fun r => r.line.block.slice 0 r.ret.toNat

inductive Partition (delim : UInt8) : List UInt8 → List (List UInt8) → Prop where
  | nil : Partition delim [] []
  | last {bytes : List UInt8} (some_ : bytes ≠ []) (none : delim ∉ bytes) : Partition delim bytes [bytes]
  | cut {front rest : List UInt8} {lines : List (List UInt8)} (none : delim ∉ front)
      (later : Partition delim rest lines)
      : Partition delim (front ++ delim :: rest) ((front ++ [delim]) :: lines)

def TakesRecords (refills : W → List (List UInt8)) (delim : UInt8)
    : List UInt8 → List (GetdelimResult W) → Prop
  | _, [] => True
  | input, r :: later =>
    TakesRecord refills delim input r
    ∧ TakesRecords refills delim (input.drop (recordOf delim input).length) later

private theorem getdelims_takes (feeds : Feeds refills virt) (marks : MarksEnd refills (uflowx virt))
    {fuel : Streambuf W → Nat} (enough : ∀ s, (refills s.cookie).length < fuel s) {calls : Nat}
    (fed : Fed refills s) (fit : CallsFit refills virt fuel delim calls line s)
    : ∃ results, getdelims virt fuel delim calls line s = some results ∧ results.length = calls
      ∧ TakesRecords refills delim (inputOf refills s) results := by
  induction calls generalizing line s with
  | zero => exact ⟨[], rfl, rfl, trivial⟩
  | succ calls ih =>
    obtain ⟨r, run, takes⟩ := (getdelim_record feeds marks fed delim line (enough s)).mpr fit.1
    obtain ⟨later, laterRun, count, laterTakes⟩ := ih takes.fed (fit.2 r run)
    refine ⟨r :: later, ?_, congrArg (· + 1) count, takes, ?_⟩
    · rw [getdelims, run]
      simp only [Option.bind_eq_bind, Option.bind_some, laterRun]
      rfl
    · rw [← takes.behind]
      exact laterTakes

theorem TakesRecord.line_eq (takes : TakesRecord refills delim input r) (some_ : input ≠ [])
    : r.line.block.slice 0 r.ret.toNat = recordOf delim input := by
  have stored := congrArg (List.take (recordOf delim input).length) (takes.stored some_)
  rw [take_left, length_append, Memory.take_slice (Nat.le_add_right _ _)] at stored
  rw [takes.ret some_]
  exact stored

/-- The records of enough calls are the whole input, each cut behind its delimiter. -/
theorem TakesRecords.partition {results : List (GetdelimResult W)}
    (takes : TakesRecords refills delim input results) (enough : input.length < results.length)
    : Partition delim input (linesOf results) := by
  induction results generalizing input with
  | nil => exact absurd enough (Nat.not_lt_zero _)
  | cons r results ih =>
    obtain ⟨first, later⟩ := takes
    by_cases empty : input = []
    · have error := first.ended empty
      rw [empty, linesOf, takeWhile_cons_of_neg (by simp [error])]
      exact .nil
    · have returned : linesOf (r :: results) = recordOf delim input :: linesOf results := by
        rw [linesOf, takeWhile_cons_of_pos (by simp [first.ret_ne empty]), map_cons,
          first.line_eq empty]
        rfl
      rw [returned]
      by_cases member : delim ∈ input
      · obtain ⟨front, rest, rfl, none⟩ := eq_append_cons_of_mem member
        have record := recordOf_delim none rest
        have behind : (front ++ delim :: rest).drop (front ++ [delim]).length = rest := by
          rw [append_cons front delim rest]
          exact drop_left
        rw [record, behind] at later
        rw [record]
        refine .cut none (ih later ?_)
        rw [length_append, length_cons, length_cons] at enough
        omega
      · have record := recordOf_none member
        rw [record, drop_length] at later
        have done : linesOf results = [] := by
          cases results with
          | nil => rfl
          | cons next results =>
            have error := later.1.ended rfl
            rw [linesOf, takeWhile_cons_of_neg (by simp [error]), map_nil]
        rw [record, done]
        exact .last empty member

/-- A call takes the first record of the input if and only if no refill that it asks for starts
with the byte 0xFF, nor with a delimiter from 0x80 on that the line has room for. Calls for which
the refills fit cut the input behind its delimiters.
-/
theorem getdelim_iff (feeds : Feeds refills virt) (marks : MarksEnd refills (uflowx virt))
    {fuel : Streambuf W → Nat} (enough : ∀ s, (refills s.cookie).length < fuel s) {s : Streambuf W}
    (fed : Fed refills s) (delim : UInt8) (line : Line)
    : ((∃ r, getdelim virt (fun _ => true) (fuel s) (some line) delim.toNat s = some r
          ∧ TakesRecord refills delim (inputOf refills s) r)
        ↔ RefillsFit delim (refills s.cookie) s.unread 0 line.given)
      ∧ ∀ calls, (inputOf refills s).length < calls → CallsFit refills virt fuel delim calls line s
          → ∃ results, getdelims virt fuel delim calls line s = some results
            ∧ TakesRecords refills delim (inputOf refills s) results
            ∧ Partition delim (inputOf refills s) (linesOf results) := by
  refine ⟨getdelim_record feeds marks fed delim line (enough s), fun calls many fit => ?_⟩
  obtain ⟨results, run, count, takes⟩ := getdelims_takes feeds marks enough fed fit
  exact ⟨results, run, takes, takes.partition (count ▸ many)⟩

/-- Two records of `a\nb`, the first of them cut by a refill at the newline. -/
theorem getdelim_iff_newline
    : ∃ r, getdelim refillTable (fun _ => true) 2 (some ⟨true, fun _ => 0, 0⟩) 10
          (refillStream [97] [[10, 98]]) = some r
        ∧ TakesRecord id 10 [97, 10, 98] r := by
  have fits : RefillsFit 10 [[10, 98]] [97] 0 0 := by
    simp [RefillsFit, getdelimGrow]
  have stream : Fed id (refillStream [97] [[10, 98]]) := refillStream_fed (by decide)
  exact (@getdelim_iff _ id _ refillTable_feeds refillTable_marksEnd (fun s => s.cookie.length + 1)
    (fun s => Nat.lt_succ_self _) _ stream 10 ⟨true, fun _ => 0, 0⟩).1.mpr fits

/-- A refill that starts with 0xFF is taken for a failed read, and one that starts with the delimiter
0xE9 for another byte.
-/
theorem getdelim_loses
    : (¬ ∃ r, getdelim refillTable (fun _ => true) 2 (some ⟨true, fun _ => 0, 0⟩) 10
          (refillStream [] [[0xFF, 10]]) = some r
        ∧ TakesRecord id 10 [0xFF, 10] r)
      ∧ ¬ ∃ r, getdelim refillTable (fun _ => true) 2 (some ⟨true, fun _ => 0, 0⟩) 0xE9
          (refillStream [97] [[0xE9, 98]]) = some r
        ∧ TakesRecord id 0xE9 [97, 0xE9, 98] r := by
  constructor
  · rintro ⟨r, run, takes⟩
    have ret : r.ret = -1 := by
      cases run
      rfl
    exact takes.ret_ne (by decide) ret
  · rintro ⟨r, run, takes⟩
    have ret : r.ret = 3 := by
      cases run
      rfl
    exact absurd (takes.ret (by decide)) (ret ▸ by decide)

end Nglibc.Stdio
