import Nglibc.Resolv.NsParse

/-! Runs of `ns_parserr`: a handle that has been used for any calls reads every record as a fresh
handle does.
-/

namespace Nglibc.Resolv

variable {mem : Memory UInt8} {eom sect ptr stop : Nat}

/-! The slots of a section -/

/-- The end of the record at `ptr` whose name has `b` bytes. -/
def recordEnd (mem : Memory UInt8) (sect ptr b : Nat) : Nat :=
  if sect ≠ nsSQd then ptr + (b + 2 + 2) + 4 + 2 + get16 mem (ptr + (b + 2 + 2) + 4)
  else ptr + (b + 2 + 2)

theorem skiprrLoop_succ {count : Nat}
    : skiprrLoop mem eom sect (count + 1) ptr = .ok stop ↔ ∃ b, dnSkipname mem eom ptr = .ok b
          ∧ (sect ≠ nsSQd → ptr + (b + 2 + 2) + 4 + 2 ≤ eom)
          ∧ skiprrLoop mem eom sect count (recordEnd mem sect ptr b) = .ok stop := by
  rw [skiprrLoop]
  cases dnSkipname mem eom ptr with
  | error e => simp
  | ok b =>
    simp only [Except.ok.injEq, exists_eq_left', recordEnd]
    by_cases record : sect ≠ nsSQd
    · rw [if_pos record, if_pos record]
      by_cases inside : ptr + (b + 2 + 2) + 4 + 2 > eom
      · rw [if_pos inside]
        constructor
        · intro failed
          cases failed
        · rintro ⟨fits, -⟩
          exact absurd (fits record) (by omega)
      · rw [if_neg inside]
        exact ⟨fun skipped => ⟨fun _ => by omega, skipped⟩, And.right⟩
    · rw [if_neg record, if_neg record]
      exact ⟨fun skipped => ⟨fun other => absurd other record, skipped⟩, And.right⟩

theorem skiprrLoop_add {first second : Nat}
    : skiprrLoop mem eom sect (first + second) ptr = .ok stop ↔ ∃ middle,
          skiprrLoop mem eom sect first ptr = .ok middle
          ∧ skiprrLoop mem eom sect second middle = .ok stop := by
  induction first generalizing ptr with
  | zero =>
    rw [Nat.zero_add]
    constructor
    · intro skipped
      exact ⟨ptr, rfl, skipped⟩
    · rintro ⟨middle, here, skipped⟩
      cases here
      exact skipped
  | succ first ih =>
    rw [Nat.succ_add, skiprrLoop_succ]
    constructor
    · rintro ⟨b, name, inside, rest⟩
      obtain ⟨middle, before, behind⟩ := ih.mp rest
      exact ⟨middle, skiprrLoop_succ.mpr ⟨b, name, inside, before⟩, behind⟩
    · rintro ⟨middle, before, behind⟩
      obtain ⟨b, name, inside, rest⟩ := skiprrLoop_succ.mp before
      exact ⟨b, name, inside, ih.mpr ⟨middle, rest, behind⟩⟩

theorem le_of_skiprrLoop {count : Nat} (skipped : skiprrLoop mem eom sect count ptr = .ok stop)
    : ptr ≤ stop := by
  induction count generalizing ptr with
  | zero =>
    cases skipped
    exact le_rfl
  | succ count ih =>
    obtain ⟨b, -, -, rest⟩ := skiprrLoop_succ.mp skipped
    have later := ih rest
    have forward : ptr ≤ recordEnd mem sect ptr b := by
      unfold recordEnd
      split
      · omega
      · omega
    omega

/-- The section of `count` records at `start` lies in the message. -/
def LaidOut (mem : Memory UInt8) (eom sect start count : Nat) : Prop :=
  ∃ stop, skiprrLoop mem eom sect count start = .ok stop ∧ stop ≤ eom

/-- Every slot of the section, and the end of the last one, lies in the message. -/
theorem LaidOut.slot {start count : Nat} (laid : LaidOut mem eom sect start count) {i : Nat}
    (le : i ≤ count)
    : ∃ p, skiprrLoop mem eom sect i start = .ok p ∧ p ≤ eom := by
  obtain ⟨stop, skipped, inside⟩ := laid
  obtain ⟨rest, rfl⟩ := Nat.exists_eq_add_of_le le
  obtain ⟨p, before, behind⟩ := skiprrLoop_add.mp skipped
  exact ⟨p, before, (le_of_skiprrLoop behind).trans inside⟩

theorem nsSkiprr_eq {count : Nat} (skipped : skiprrLoop mem eom sect count ptr = .ok stop)
    (inside : stop ≤ eom)
    : nsSkiprr mem eom ptr sect count = .ok (stop - ptr) := by
  rw [nsSkiprr, skipped]
  exact if_neg (by omega)

private theorem laidOut_of_nsSkiprr {count b : Nat} (skipped : nsSkiprr mem eom ptr sect count = .ok b)
    : LaidOut mem eom sect ptr count := by
  rw [nsSkiprr] at skipped
  cases found : skiprrLoop mem eom sect count ptr with
  | error e =>
    rw [found] at skipped
    cases skipped
  | ok stop =>
    rw [found] at skipped
    refine ⟨stop, found, ?_⟩
    by_contra outside
    have failed : (if stop > eom then Except.error Errno.emsgsize else .ok (stop - ptr))
        = .ok b := skipped
    rw [if_pos (by omega)] at failed
    cases failed

theorem LaidOut.between {start count i j p : Nat} (laid : LaidOut mem eom sect start count)
    (le : j ≤ i) (less : i ≤ count) (slot : skiprrLoop mem eom sect j start = .ok p)
    : ∃ q, skiprrLoop mem eom sect i start = .ok q ∧ p ≤ q
      ∧ nsSkiprr mem eom p sect (i - j) = .ok (q - p) := by
  obtain ⟨q, found, inside⟩ := laid.slot less
  obtain ⟨rest, rfl⟩ := Nat.exists_eq_add_of_le le
  obtain ⟨p', before, behind⟩ := skiprrLoop_add.mp found
  rw [slot] at before
  cases before
  rw [Nat.add_sub_cancel_left]
  exact ⟨q, found, le_of_skiprrLoop behind, nsSkiprr_eq behind inside⟩

theorem LaidOut.record {start count i p : Nat} (laid : LaidOut mem eom sect start count)
    (less : i < count) (slot : skiprrLoop mem eom sect i start = .ok p)
    : ∃ b, dnSkipname mem eom p = .ok b ∧ (sect ≠ nsSQd → p + (b + 2 + 2) + 4 + 2 ≤ eom)
        ∧ skiprrLoop mem eom sect (i + 1) start = .ok (recordEnd mem sect p b)
        ∧ recordEnd mem sect p b ≤ eom := by
  obtain ⟨q, found, inside⟩ := laid.slot (show i + 1 ≤ count from less)
  obtain ⟨p', before, behind⟩ := skiprrLoop_add.mp found
  rw [slot] at before
  cases before
  obtain ⟨b, name, fits, last⟩ := skiprrLoop_succ.mp behind
  cases last
  exact ⟨b, name, fits, found, inside⟩

/-! Accepted messages -/

def Sections (mem : Memory UInt8) (handle : NsMsg) : Prop := ∀ sect, handle.count sect ≠ 0 →
    ∃ start, handle.start sect = some start ∧ LaidOut mem handle.eom sect start (handle.count sect)

/-- Each section with records starts where the one before it ends. -/
theorem findSections_laidOut {i msg after : Nat} {counts : List Nat} {sections : List (Option Nat)}
    (found : findSections mem eom i counts msg = .ok (sections, after)) (k : Nat)
    (some_ : counts.getD k 0 ≠ 0)
    : ∃ start, sections.getD k none = some start
      ∧ LaidOut mem eom (i + k) start (counts.getD k 0) := by
  induction counts generalizing i msg sections after k with
  | nil =>
    exact absurd rfl some_
  | cons count counts ih =>
    rw [findSections] at found
    by_cases zero : count = 0
    · rw [if_pos zero] at found
      cases rest : findSections mem eom (i + 1) counts msg with
      | error e =>
        rw [rest] at found
        cases found
      | ok result =>
        rw [rest] at found
        cases found
        cases k with
        | zero => exact absurd zero some_
        | succ k =>
          rw [List.getD_cons_succ, ← Nat.succ_add_eq_add_succ]
          exact ih rest k some_
    · rw [if_neg zero] at found
      cases skipped : nsSkiprr mem eom msg i count with
      | error e =>
        rw [skipped] at found
        cases found
      | ok b =>
        rw [skipped] at found
        cases rest : findSections mem eom (i + 1) counts (msg + b) with
        | error e =>
          simp only [bind, Except.bind, rest] at found
          cases found
        | ok result =>
          simp only [bind, Except.bind, rest] at found
          cases found
          cases k with
          | zero => exact ⟨msg, rfl, laidOut_of_nsSkiprr skipped⟩
          | succ k =>
            rw [List.getD_cons_succ, ← Nat.succ_add_eq_add_succ]
            exact ih rest k some_

/-- An accepted message has its sections where the handle says. -/
theorem nsInitparse_sections {handle : NsMsg} (accepted : nsInitparse mem eom = .ok handle)
    : handle.eom = eom ∧ handle.sect = nsSMax ∧ Sections mem handle := by
  simp only [nsInitparse, bind, Except.bind] at accepted
  split at accepted
  · cases accepted
  split at accepted
  · cases accepted
  cases counts : readCounts mem eom nsSMax 4 with
  | error e =>
    rw [counts] at accepted
    cases accepted
  | ok read =>
    obtain ⟨counts', msg⟩ := read
    rw [counts] at accepted
    dsimp only at accepted
    cases found : findSections mem eom 0 counts' msg with
    | error e =>
      rw [found] at accepted
      cases accepted
    | ok result =>
      rw [found] at accepted
      dsimp only at accepted
      split at accepted
      · cases accepted
      cases accepted
      refine ⟨rfl, rfl, ?_⟩
      intro sect some_
      have laid := findSections_laidOut found sect some_
      rwa [Nat.zero_add] at laid

/-! One call -/

/-- The record at `p` whose name has `b` bytes and the text `name`. -/
def recordAt (mem : Memory UInt8) (sect p b : Nat) (name : List UInt8) : NsRr :=
  { name, type := get16 mem (p + b), rrClass := get16 mem (p + b + 2),
    ttl := if sect = nsSQd then 0 else get32 mem (p + b + 2 + 2),
    rdlength := if sect = nsSQd then 0 else get16 mem (p + b + 2 + 2 + 4),
    rdata := if sect = nsSQd then none else some (p + b + 2 + 2 + 4 + 2) }

/-- What is read at `p`. -/
def readAt (mem : Memory UInt8) (eom sect p : Nat) : Except RrErrno NsRr :=
  match expandedName mem eom p with
  | .error e => .error (.resolv e)
  | .ok (b, name) => .ok (recordAt mem sect p b name)

/-- The two handles differ at most in their position. -/
structure SameMessage (handle fresh : NsMsg) : Prop where
  eom : handle.eom = fresh.eom
  counts : handle.counts = fresh.counts
  sections : handle.sections = fresh.sections

/-- The handle stands in the section `sect`, at its slot `j`. -/
structure AtSlot (mem : Memory UInt8) (handle : NsMsg) (sect j : Nat) : Prop where
  inSection : handle.sect = sect
  rrnum : handle.rrnum = j
  le : j ≤ handle.count sect
  ptr : ∀ start, handle.start sect = some start →
    ∃ p, handle.msgPtr = some p ∧ skiprrLoop mem handle.eom sect j start = .ok p

/-- What holds between two calls: the handle stands in no section or at a slot of one. -/
structure Positioned (mem : Memory UInt8) (fresh handle : NsMsg) : Prop where
  same : SameMessage handle fresh
  slot : handle.sect = nsSMax ∨ handle.sect < nsSMax ∧ ∃ j, AtSlot mem handle handle.sect j

theorem setsection_same (handle : NsMsg) (sect : Nat) : SameMessage (setsection handle sect) handle := by
  unfold setsection
  split
  · exact ⟨rfl, rfl, rfl⟩
  · exact ⟨rfl, rfl, rfl⟩

theorem SameMessage.trans {a b c : NsMsg} (first : SameMessage a b) (second : SameMessage b c)
    : SameMessage a c :=
  ⟨
    first.eom.trans second.eom,
    first.counts.trans second.counts,
    first.sections.trans second.sections
  ⟩

theorem SameMessage.count {handle fresh : NsMsg} (same : SameMessage handle fresh) (sect : Nat)
    : handle.count sect = fresh.count sect := by
  rw [NsMsg.count, NsMsg.count, same.counts]

theorem SameMessage.start {handle fresh : NsMsg} (same : SameMessage handle fresh) (sect : Nat)
    : handle.start sect = fresh.start sect := by
  rw [NsMsg.start, NsMsg.start, same.sections]

theorem setsection_atSlot (mem : Memory UInt8) (handle : NsMsg) (less : sect < nsSMax)
    : AtSlot mem (setsection handle sect) sect 0 := by
  have inner : setsection handle sect
      = { handle with sect, rrnum := 0, msgPtr := handle.start sect } := if_neg (by omega)
  rw [inner]
  exact ⟨rfl, rfl, Nat.zero_le _, fun start found => ⟨start, found, rfl⟩⟩

private theorem finishRr_atSlot {handle : NsMsg} {i q start : Nat} (place : AtSlot mem handle sect i)
    (found : handle.start sect = some start) (less : i < handle.count sect)
    (next : skiprrLoop mem handle.eom sect (i + 1) start = .ok q) (rr : NsRr)
    : ∃ after, finishRr { handle with msgPtr := some q } sect rr = (.ok rr, after)
        ∧ SameMessage after handle
        ∧ AtSlot mem after sect (i + 1) := by
  refine ⟨{ handle with msgPtr := some q, rrnum := handle.rrnum + 1 }, ?_, ⟨rfl, rfl, rfl⟩, ?_⟩
  · have last : ¬ (handle.rrnum + 1 > handle.count sect) := by
      rw [place.rrnum]
      omega
    exact congrArg (Prod.mk _) (if_neg last)
  · refine ⟨place.inSection, ?_, less, ?_⟩
    · rw [place.rrnum]
      rfl
    · intro start' found'
      have same : start = start' := Option.some.inj (found.symm.trans found')
      subst same
      exact ⟨q, rfl, next⟩

/-- Reading in a slot fails without a change, or goes on to the next slot. -/
theorem readRr_slot {handle : NsMsg} {i p start : Nat} (tmp : Memory UInt8)
    (place : AtSlot mem handle sect i) (found : handle.start sect = some start)
    (laid : LaidOut mem handle.eom sect start (handle.count sect))
    (less : i < handle.count sect) (ptr : handle.msgPtr = some p)
    : ∃ after, readRr mem tmp handle sect p = some (readAt mem handle.eom sect p, after)
        ∧ SameMessage after handle
        ∧ ∃ j, AtSlot mem after sect j := by
  obtain ⟨p', here, slot⟩ := place.ptr start found
  rw [ptr] at here
  cases here
  obtain ⟨b, name, fits, next, inside⟩ := laid.record less slot
  unfold readRr readAt
  rw [dnExpand_eq]
  cases expanded : expandedName mem handle.eom p with
  | error e => exact ⟨handle, rfl, ⟨rfl, rfl, rfl⟩, i, place⟩
  | ok result =>
    obtain ⟨b', text⟩ := result
    -- the name is as long as `ns_skiprr` took it to be
    have agree := dnSkipname_of_expandedName expanded
    rw [name] at agree
    cases agree
    dsimp only
    by_cases question : sect = nsSQd
    · have stop : recordEnd mem sect p b = p + b + 2 + 2 := by
        rw [recordEnd, if_neg (not_not.mpr question)]
        omega
      rw [stop] at next inside
      rw [if_neg (Nat.not_lt.mpr inside)]
      obtain ⟨after, finish, same, place'⟩ := finishRr_atSlot place found less next
        (recordAt mem sect p b text)
      refine ⟨after, ?_, same, i + 1, place'⟩
      rw [← finish, recordAt]
      simp only [if_pos question]
    · have stop : recordEnd mem sect p b
          = p + b + 2 + 2 + 4 + 2 + get16 mem (p + b + 2 + 2 + 4) := by
        rw [recordEnd, if_pos question]
        rfl
      rw [stop] at next inside
      rw [if_neg (by omega), if_neg question, if_neg (by omega), if_neg (by omega)]
      obtain ⟨after, finish, same, place'⟩ := finishRr_atSlot place found less next
        (recordAt mem sect p b text)
      refine ⟨after, ?_, same, i + 1, place'⟩
      rw [← finish, recordAt]
      simp only [if_neg question]

/-- What a call returns in terms of the message alone. -/
def expectedResult (mem : Memory UInt8) (fresh : NsMsg) (section' rrnum : Int)
    : Except RrErrno NsRr :=
  if section' < 0 ∨ section' ≥ nsSMax ∨ rrnum < 0 ∨ rrnum ≥ fresh.count section'.toNat then
    .error .enodev
  else
    match (do
      let start ← fresh.start section'.toNat
      (skiprrLoop mem fresh.eom section'.toNat rrnum.toNat start).toOption) with
    | none => .error .enodev
    | some p => readAt mem fresh.eom section'.toNat p

variable {fresh handle : NsMsg}

theorem AtSlot.positioned {j : Nat} (place : AtSlot mem handle sect j) (less : sect < nsSMax)
    (same : SameMessage handle fresh)
    : Positioned mem fresh handle := by
  refine ⟨same, .inr ?_⟩
  rw [place.inSection]
  exact ⟨less, j, place⟩

/-- "Make section right". -/
theorem Positioned.enter (position : Positioned mem fresh handle) (less : sect < nsSMax)
    : SameMessage (if sect ≠ handle.sect then setsection handle sect else handle) fresh
      ∧ ∃ j, AtSlot mem (if sect ≠ handle.sect then setsection handle sect else handle) sect j := by
  by_cases other : sect ≠ handle.sect
  · rw [if_pos other]
    exact ⟨(setsection_same handle sect).trans position.same, 0, setsection_atSlot mem handle less⟩
  · rw [if_neg other]
    have here : sect = handle.sect := not_not.mp other
    refine ⟨position.same, ?_⟩
    rcases position.slot with no | ⟨-, j, place⟩
    · omega
    · rw [here]
      exact ⟨j, place⟩

/-- "Make rrnum right", before the skipping. -/
theorem AtSlot.rewind {i j : Nat} (place : AtSlot mem handle sect j) (less : sect < nsSMax)
    (same : SameMessage handle fresh)
    : SameMessage (if (i : Int) < handle.rrnum then setsection handle sect else handle) fresh
      ∧ ∃ k ≤ i, AtSlot mem (if (i : Int) < handle.rrnum then setsection handle sect else handle)
          sect k := by
  by_cases back : (i : Int) < handle.rrnum
  · rw [if_pos back]
    exact ⟨(setsection_same handle sect).trans same, 0, Nat.zero_le i,
      setsection_atSlot mem handle less⟩
  · rw [if_neg back]
    rw [place.rrnum] at back
    exact ⟨same, j, by omega, place⟩

theorem AtSlot.skip {i j p start : Nat} (place : AtSlot mem handle sect j)
    (found : handle.start sect = some start)
    (laid : LaidOut mem handle.eom sect start (handle.count sect)) (le : j ≤ i)
    (less : i < handle.count sect) (ptr : handle.msgPtr = some p)
    : ∃ b, nsSkiprr mem handle.eom p sect (i - j) = .ok b
        ∧ skiprrLoop mem handle.eom sect i start = .ok (p + b)
        ∧ AtSlot mem { handle with msgPtr := some (p + b), rrnum := i } sect i := by
  obtain ⟨p', here, slot⟩ := place.ptr start found
  rw [ptr] at here
  cases here
  obtain ⟨q, later, forward, skipped⟩ := laid.between le less.le slot
  have target : p + (q - p) = q := by omega
  refine ⟨q - p, skipped, by rw [target]; exact later, place.inSection, rfl, less.le, ?_⟩
  intro start' found'
  have same : start = start' := Option.some.inj (found.symm.trans found')
  subst same
  exact ⟨p + (q - p), rfl, by rw [target]; exact later⟩

theorem expectedResult_enodev {section' rrnum : Int}
    (bounds : section' < 0 ∨ section' ≥ nsSMax ∨ rrnum < 0 ∨ rrnum ≥ fresh.count section'.toNat)
    : expectedResult mem fresh section' rrnum = .error .enodev :=
  if_pos bounds

theorem expectedResult_slot {i q start : Nat} (less : sect < nsSMax)
    (small : i < fresh.count sect) (found : fresh.start sect = some start)
    (slot : skiprrLoop mem fresh.eom sect i start = .ok q)
    : expectedResult mem fresh sect i = readAt mem fresh.eom sect q := by
  rw [expectedResult, if_neg (by rw [Int.toNat_natCast]; omega), Int.toNat_natCast,
    Int.toNat_natCast, found]
  simp only [Option.bind_eq_bind, Option.bind_some, slot, Except.toOption]

/-- "Do the parse" after the skipping, from a slot that is not behind the wanted one. -/
theorem AtSlot.read {i k p start : Nat} (place : AtSlot mem handle sect k) (le : k ≤ i)
    (found : handle.start sect = some start)
    (laid : LaidOut mem handle.eom sect start (handle.count sect))
    (less : i < handle.count sect) (ptr : handle.msgPtr = some p) (tmp : Memory UInt8)
    : ∃ q after, skiprrLoop mem handle.eom sect i start = .ok q ∧ (if (i : Int) > handle.rrnum then
            match nsSkiprr mem handle.eom p sect ((i : Int) - handle.rrnum).toNat with
            | .error e => some (.error (.resolv e), handle)
            | .ok b => readRr mem tmp { handle with msgPtr := some (p + b), rrnum := i } sect (p + b)
          else readRr mem tmp handle sect p)
          = some (readAt mem handle.eom sect q, after)
        ∧ SameMessage after handle
        ∧ ∃ j, AtSlot mem after sect j := by
  rw [place.rrnum]
  by_cases skips : (i : Int) > k
  · obtain ⟨b, skipped, slot, place'⟩ := place.skip found laid le less ptr
    obtain ⟨after, read, same, next⟩ := readRr_slot tmp place' found laid less rfl
    have count : ((i : Int) - k).toNat = i - k := by omega
    refine ⟨p + b, after, slot, ?_, same.trans ⟨rfl, rfl, rfl⟩, next⟩
    rw [if_pos skips, count, skipped]
    exact read
  · have here : k = i := by omega
    subst here
    obtain ⟨p', same, slot⟩ := place.ptr start found
    rw [ptr] at same
    cases same
    obtain ⟨after, read, same, next⟩ := readRr_slot tmp place found laid less ptr
    refine ⟨p, after, slot, ?_, same, next⟩
    rw [if_neg skips]
    exact read

/-- One call, from any position. -/
theorem nsParserr_step (sections : Sections mem fresh) (position : Positioned mem fresh handle)
    (tmp : Memory UInt8) (section' : Int) {rrnum : Int} (notCurrent : rrnum ≠ -1)
    : ∃ after, nsParserr mem tmp handle section' rrnum
          = some (expectedResult mem fresh section' rrnum, after)
        ∧ Positioned mem fresh after := by
  unfold nsParserr
  by_cases range : section' < 0 ∨ section' ≥ nsSMax
  · rw [if_pos range, expectedResult_enodev (by tauto)]
    exact ⟨handle, rfl, position⟩
  · obtain ⟨sect, rfl⟩ := Int.eq_ofNat_of_zero_le (show 0 ≤ section' by omega)
    have less : sect < nsSMax := by omega
    rw [if_neg range, Int.toNat_natCast]
    dsimp only
    obtain ⟨same, j, place⟩ := position.enter less
    generalize (if sect ≠ handle.sect then setsection handle sect else handle) = entered
      at same place ⊢
    rw [if_neg notCurrent, same.count sect]
    by_cases bounds : rrnum < 0 ∨ rrnum ≥ fresh.count sect
    · rw [if_pos bounds, expectedResult_enodev (by rw [Int.toNat_natCast]; tauto)]
      exact ⟨entered, rfl, place.positioned less same⟩
    · rw [if_neg bounds]
      obtain ⟨i, rfl⟩ := Int.eq_ofNat_of_zero_le (show 0 ≤ rrnum by omega)
      have small : i < fresh.count sect := by omega
      obtain ⟨start, found, laid⟩ := sections sect (by omega)
      obtain ⟨same', k, le, place'⟩ := place.rewind less same
      obtain ⟨p, ptr, -⟩ := place'.ptr start (by rw [same'.start]; exact found)
      obtain ⟨q, after, slot, read, same'', j', next⟩ := place'.read le
        (by rw [same'.start]; exact found) (by rw [same'.count, same'.eom]; exact laid)
        (by rw [same'.count]; exact small) ptr tmp
      rw [same'.eom] at slot read
      refine ⟨after, ?_, next.positioned less (same''.trans same')⟩
      rw [expectedResult_slot less small found slot, ptr, same'.eom]
      exact read

/-! Runs of calls -/

/-- A call of `ns_parserr`, with what its local arrays hold before. -/
structure ParseCall where
  sect : Int
  rrnum : Int
  tmp : Memory UInt8

def runCalls (mem : Memory UInt8)
    : NsMsg → List ParseCall → Option (List (Except RrErrno NsRr) × NsMsg)
  | handle, [] => some ([], handle)
  | handle, call :: calls =>
    match nsParserr mem call.tmp handle call.sect call.rrnum with
    | none => none
    | some (result, handle) =>
      (runCalls mem handle calls).map fun (results, after) => (result :: results, after)

private theorem runCalls_expected (sections : Sections mem fresh) {calls : List ParseCall}
    (position : Positioned mem fresh handle) (notCurrent : ∀ call ∈ calls, call.rrnum ≠ -1)
    : ∃ after, runCalls mem handle calls
          = some (calls.map fun call => expectedResult mem fresh call.sect call.rrnum, after)
        ∧ Positioned mem fresh after := by
  induction calls generalizing handle with
  | nil => exact ⟨handle, rfl, position⟩
  | cons call calls ih =>
    obtain ⟨first, rest⟩ := List.forall_mem_cons.mp notCurrent
    obtain ⟨next, called, position'⟩ := nsParserr_step sections position call.tmp call.sect first
    obtain ⟨after, run, position''⟩ := ih position' rest
    refine ⟨after, ?_, position''⟩
    rw [runCalls, called]
    dsimp only
    rw [run]
    rfl

/-- The record lies between `first` and `stop`: its name begins at `first`, and what follows the
name fills the slot.
-/
structure Occupies (mem : Memory UInt8) (eom sect : Nat) (rr : NsRr) (first stop b : Nat)
    : Prop where
  name : ∀ tmp, dnExpand mem eom first tmp = some (.ok (b, rr.name))
  type : rr.type = get16 mem (first + b)
  rrClass : rr.rrClass = get16 mem (first + b + 2)
  question : sect = nsSQd → rr.ttl = 0 ∧ rr.rdlength = 0 ∧ rr.rdata = none ∧ stop = first + b + 4
  record : sect ≠ nsSQd → rr.ttl = get32 mem (first + b + 4)
    ∧ rr.rdlength = get16 mem (first + b + 8)
    ∧ rr.rdata = some (first + b + 10)
    ∧ stop = first + b + 10 + rr.rdlength

private theorem occupies_of_readAt {p b : Nat} {rr : NsRr} (name : dnSkipname mem eom p = .ok b)
    (read : readAt mem eom sect p = .ok rr)
    : Occupies mem eom sect rr p (recordEnd mem sect p b) b := by
  unfold readAt at read
  cases expanded : expandedName mem eom p with
  | error e =>
    rw [expanded] at read
    cases read
  | ok result =>
    obtain ⟨b', text⟩ := result
    have agree := dnSkipname_of_expandedName expanded
    rw [name] at agree
    cases agree
    rw [expanded] at read
    cases read
    refine ⟨fun tmp => ?_, rfl, rfl, ?_, ?_⟩
    · rw [dnExpand_eq, expanded]
      rfl
    · intro question
      refine ⟨if_pos question, if_pos question, if_pos question, ?_⟩
      rw [recordEnd, if_neg (not_not.mpr question)]
      omega
    · intro record
      have length : (recordAt mem sect p b text).rdlength = get16 mem (p + b + 8) := if_neg record
      refine ⟨if_neg record, length, if_neg record, ?_⟩
      rw [recordEnd, if_pos record, length]
      rfl

/-- A record that is reported fills the slot of its number. -/
theorem occupies_of_expectedResult (sections : Sections mem fresh) {section' rrnum : Int}
    {rr : NsRr} (reported : expectedResult mem fresh section' rrnum = .ok rr)
    : ∃ start first stop b, fresh.start section'.toNat = some start
        ∧ nsSkiprr mem fresh.eom start section'.toNat rrnum.toNat = .ok (first - start)
        ∧ nsSkiprr mem fresh.eom start section'.toNat (rrnum.toNat + 1) = .ok (stop - start)
        ∧ start ≤ first
        ∧ first ≤ stop
        ∧ Occupies mem fresh.eom section'.toNat rr first stop b := by
  by_cases bounds
    : section' < 0 ∨ section' ≥ nsSMax ∨ rrnum < 0 ∨ rrnum ≥ fresh.count section'.toNat
  · rw [expectedResult_enodev bounds] at reported
    cases reported
  · obtain ⟨sect, rfl⟩ := Int.eq_ofNat_of_zero_le (show 0 ≤ section' by omega)
    obtain ⟨i, rfl⟩ := Int.eq_ofNat_of_zero_le (show 0 ≤ rrnum by omega)
    rw [Int.toNat_natCast] at bounds ⊢
    have small : i < fresh.count sect := by omega
    obtain ⟨start, found, laid⟩ := sections sect (by omega)
    obtain ⟨p, slot, inside⟩ := laid.slot small.le
    obtain ⟨b, name, -, next, last⟩ := laid.record small slot
    rw [expectedResult_slot (by omega) small found slot] at reported
    have forward : p ≤ recordEnd mem sect p b := by
      obtain ⟨q, later, before, -⟩ := laid.between (Nat.le_succ i) small slot
      rw [next] at later
      cases later
      exact before
    exact ⟨start, p, recordEnd mem sect p b, b, found, nsSkiprr_eq slot inside,
      nsSkiprr_eq next last, le_of_skiprrLoop slot, forward, occupies_of_readAt name reported⟩

/-- In any sequence of calls on the handle of an accepted message, each call returns what it
returns on the fresh handle, and a record that it reports fills the slot that `ns_skiprr` lays
out for it.
-/
theorem nsParserr_runs (accepted : nsInitparse mem eom = .ok fresh) (calls : List ParseCall)
    (notCurrent : ∀ call ∈ calls, call.rrnum ≠ -1)
    : ∃ results after, runCalls mem fresh calls = some (results, after) ∧ List.Forall₂
            (fun call result =>
              (∀ tmp, ∃ handle,
                nsParserr mem tmp fresh call.sect call.rrnum = some (result, handle))
              ∧ ∀ rr, result = .ok rr → ∃ start first stop b,
                  fresh.start call.sect.toNat = some start
                  ∧ nsSkiprr mem eom start call.sect.toNat call.rrnum.toNat = .ok (first - start)
                  ∧ nsSkiprr mem eom start call.sect.toNat (call.rrnum.toNat + 1)
                    = .ok (stop - start)
                  ∧ start ≤ first
                  ∧ first ≤ stop
                  ∧ Occupies mem eom call.sect.toNat rr first stop b)
            calls results := by
  obtain ⟨rfl, none, sections⟩ := nsInitparse_sections accepted
  have position : Positioned mem fresh fresh := ⟨⟨rfl, rfl, rfl⟩, .inl none⟩
  obtain ⟨after, run, -⟩ := runCalls_expected sections position notCurrent
  refine ⟨_, after, run, ?_⟩
  rw [List.forall₂_map_right_iff, List.forall₂_same]
  intro call member
  refine ⟨fun tmp => ?_, fun rr reported => occupies_of_expectedResult sections reported⟩
  obtain ⟨next, called, -⟩ :=
    nsParserr_step sections position tmp call.sect (notCurrent call member)
  exact ⟨next, called⟩

/-- The question of a message with one question, read twice after a call that fails. -/
theorem nsParserr_runs_question
    : ∃ results after,
        runCalls (Memory.store (fun _ => 0) 0 [0, 1, 0, 0, 0, 1, 0, 0, 0, 0, 0, 0, 0, 0, 1, 0, 1])
          { eom := 17, id := 1, flags := 0, counts := [1, 0, 0, 0],
            sections := [some 12, none, none, none], sect := 4, rrnum := -1, msgPtr := none }
          [⟨1, 0, fun _ => 0⟩, ⟨0, 0, fun _ => 0⟩, ⟨0, 0, fun _ => 7⟩] = some (results, after)
        ∧ results.length = 3 := by
  have accepted
      : nsInitparse
          (Memory.store (fun _ => 0) 0 [0, 1, 0, 0, 0, 1, 0, 0, 0, 0, 0, 0, 0, 0, 1, 0, 1]) 17
        = .ok ⟨17, 1, 0, [1, 0, 0, 0], [some 12, none, none, none], 4, -1, none⟩ := rfl
  obtain ⟨results, after, run, each⟩ := nsParserr_runs accepted
    [⟨1, 0, fun _ => 0⟩, ⟨0, 0, fun _ => 0⟩, ⟨0, 0, fun _ => 7⟩] (by decide)
  exact ⟨results, after, run, each.length_eq.symm⟩

end Nglibc.Resolv
