import Nglibc.Resolv.DnsHostPtr

/-! The loop of `getanswer_ptr` does not count the records it reads, and where no CNAME comes before the
PTR record it checks the name of the question instead of the one it returns.
-/

namespace Nglibc.Resolv

open Memory List

variable {packet : Memory UInt8} {packetlen k : Nat} {abuf : AllocBuffer} {ttlp : Option Int}
  {c : RrCursor} {name text : List UInt8} {records : List (Option NameRecord)} {s s' : PtrSearch}
  {record : Option NameRecord} {result : PtrResult}

/-! Where a search ends -/

/-- The name that is expected behind a record: the target of a CNAME, or the name before it. -/
def expectedBehind (name : List UInt8) : Option NameRecord → List UInt8
  | none => name
  | some record =>
    if record.rclass = cIn ∧ record.rtype = tCname then record.target.getD name else name

/-- A record at which a search ends: one that cannot be read, or a CNAME whose target cannot be read, or
a PTR record of the expected name.
-/
def EndsSearch (name : List UInt8) : Option NameRecord → Prop
  | none => True
  | some record =>
    record.rclass = cIn
    ∧ (record.rtype = tCname ∧ record.target = none
      ∨ record.rtype = tPtr ∧ isSame record.rname name = true)

/-- One of the records ends the search that expects `name` at first. -/
def SomeEnds (name : List UInt8) (records : List (Option NameRecord)) : Prop :=
  ∃ before record after, records = before ++ record :: after
    ∧ EndsSearch (before.foldl expectedBehind name) record

/-- A PTR record of the expected name, whose target can be read and is a host name with a text. -/
def UsablePtr (name : List UInt8) : Option NameRecord → Prop
  | none => False
  | some record =>
    record.rclass = cIn ∧ record.rtype = tPtr ∧ isSame record.rname name = true
    ∧ ∃ target, record.target = some target ∧ isHnok target = true ∧ hostText target ≠ none

/-- One of the records is a usable PTR record. -/
def SomeUsable (name : List UInt8) (records : List (Option NameRecord)) : Prop :=
  ∃ before record after, records = before ++ record :: after
    ∧ UsablePtr (before.foldl expectedBehind name) record

theorem SomeUsable.someEnds (usable : SomeUsable name records) : SomeEnds name records := by
  obtain ⟨before, record, after, split, found⟩ := usable
  refine ⟨before, record, after, split, ?_⟩
  cases record with
  | none => exact found.elim
  | some record => exact ⟨found.1, .inr ⟨found.2.1, found.2.2.1⟩⟩

private theorem someEnds_cons
    : SomeEnds name (record :: records)
      ↔ EndsSearch name record ∨ SomeEnds (expectedBehind name record) records := by
  constructor
  · rintro ⟨before, found, after, split, ends⟩
    cases before with
    | nil =>
      cases split
      exact .inl ends
    | cons first before =>
      cases split
      exact .inr ⟨before, found, after, rfl, ends⟩
  · rintro (ends | ⟨before, found, after, rfl, ends⟩)
    · exact ⟨[], record, records, rfl, ends⟩
    · exact ⟨record :: before, found, after, rfl, ends⟩

/-- A record that the search for the name of the question passes: not of class IN, or neither a CNAME nor
a PTR record of that name.
-/
def Passed (name : List UInt8) : Option NameRecord → Prop
  | none => False
  | some record =>
    record.rclass = cIn
      → record.rtype ≠ tCname ∧ ¬ (record.rtype = tPtr ∧ isSame record.rname name = true)

/-- What a record does to the search. -/
inductive SearchCase (abuf : AllocBuffer) (s : PtrSearch) : Option NameRecord → PtrResult ⊕ PtrSearch → Prop where
  | unread : SearchCase abuf s none (.inl (ptrUnavail s.ttl abuf))
  | passed (record : NameRecord) (ttl : Option Int) (passes : Passed s.expected (some record))
    : SearchCase abuf s (some record) (.inr { s with ttl })
  | lost (record : NameRecord) (ttl : Option Int) (rclass : record.rclass = cIn)
    (cname : record.rtype = tCname) (none_ : record.target = none)
    : SearchCase abuf s (some record) (.inl (ptrUnavail ttl abuf))
  | alias_ (record : NameRecord) (ttl : Option Int) (rclass : record.rclass = cIn)
    (cname : record.rtype = tCname) (name : List UInt8) (target : record.target = some name)
    : SearchCase abuf s (some record) (.inr { s with ttl, expected := name, inBuffer := true })
  | pointer (record : NameRecord) (ttl : Option Int) (rclass : record.rclass = cIn)
    (rtype : record.rtype = tPtr) (owner : isSame record.rname s.expected = true)
    : SearchCase abuf s (some record) (.inl (ptrTarget abuf { s with ttl } record.target))

theorem searchStep_cases (abuf : AllocBuffer) (s : PtrSearch) (record : Option NameRecord)
    : SearchCase abuf s record (searchStep abuf s record) := by
  cases record with
  | none => exact .unread
  | some record =>
    rw [searchStep]
    by_cases other : record.rclass ≠ cIn
    · rw [if_pos other]
      exact .passed record s.ttl fun same => absurd same other
    rw [if_neg other]
    rw [not_not] at other
    dsimp only
    by_cases cname : record.rtype = tCname
    · rw [if_pos cname]
      cases target : record.target with
      | none => exact .lost record _ other cname target
      | some name => exact .alias_ record _ other cname name target
    · rw [if_neg cname]
      split
      · rename_i pointer
        exact .pointer record _ other pointer.1 pointer.2
      · rename_i pointer
        exact .passed record _ fun _ => ⟨cname, pointer⟩

/-- What a step does to the expected name. -/
theorem searchStep_expected (stepped : searchStep abuf s record = .inr s')
    : s'.expected = expectedBehind s.expected record ∧ ¬ EndsSearch s.expected record := by
  have step := searchStep_cases abuf s record
  rw [stepped] at step
  cases step with
  | passed record ttl passes =>
    rw [expectedBehind, EndsSearch, if_neg fun both => (passes both.1).1 both.2]
    exact ⟨rfl, fun ends => ends.2.elim (fun unread => (passes ends.1).1 unread.1) (passes ends.1).2⟩
  | alias_ record ttl rclass cname name target =>
    rw [expectedBehind, EndsSearch, if_pos ⟨rclass, cname⟩, target]
    refine ⟨rfl, fun ends => ends.2.elim (fun unread => nomatch unread.2) fun pointer => ?_⟩
    exact absurd (cname.symm.trans pointer.1) (by decide)

/-- A step that ends the search is at such a record, and has another status than the end of the loop. -/
theorem searchStep_ends (stepped : searchStep abuf s record = .inl result)
    : EndsSearch s.expected record ∧ result.status ≠ .tryagain := by
  have step := searchStep_cases abuf s record
  rw [stepped] at step
  cases step with
  | unread => exact ⟨trivial, fun same => nomatch same⟩
  | lost record ttl rclass cname none_ => exact ⟨⟨rclass, .inl ⟨cname, none_⟩⟩, fun same => nomatch same⟩
  | pointer record ttl rclass rtype owner => exact ⟨⟨rclass, .inr ⟨rtype, owner⟩⟩, ptrTarget_status⟩

private theorem searchRecords_iff
    : (∃ result, searchRecords abuf s records = .inl result) ↔ SomeEnds s.expected records := by
  induction records generalizing s with
  | nil =>
    refine iff_of_false (fun ⟨_, ends⟩ => nomatch ends) ?_
    rintro ⟨before, record, after, split, -⟩
    exact absurd split.symm (append_ne_nil_of_right_ne_nil _ (cons_ne_nil _ _))
  | cons record records ih =>
    rw [someEnds_cons, searchRecords]
    cases stepped : searchStep abuf s record with
    | inl result => exact iff_of_true ⟨result, rfl⟩ (.inl (searchStep_ends stepped).1)
    | inr s' =>
      obtain ⟨expected, goes⟩ := searchStep_expected stepped
      rw [or_iff_right goes, ← expected]
      exact ih

theorem searchRecords_status (ends : searchRecords abuf s records = .inl result)
    : result.status ≠ .tryagain := by
  induction records generalizing s with
  | nil => cases ends
  | cons record records ih =>
    rw [searchRecords] at ends
    cases stepped : searchStep abuf s record with
    | inl result' =>
      rw [stepped] at ends
      cases ends
      exact (searchStep_ends stepped).2
    | inr s' =>
      rw [stepped] at ends
      exact ih ends

/-! The answer section -/

def question (packet : Memory UInt8) (packetlen : Nat) : Option (List UInt8) :=
  (nsRrCursorInit packet packetlen).map fun c =>
    packet.slice rrCursorQname (c.firstRr - rrCursorQname)

def questionName (packet : Memory UInt8) (c : RrCursor) : List UInt8 :=
  packet.slice rrCursorQname (c.firstRr - 4 - rrCursorQname)

def announced (packet : Memory UInt8) (packetlen : Nat) : List (Option NameRecord) :=
  match nsRrCursorInit packet packetlen with
  | none => []
  | some c => answerRecords packet (rrCursorAncount packet) c

/-- Two packets agree on the header, the question and the records of the answer section. -/
structure SameAnswer (packet : Memory UInt8) (packetlen : Nat) (packet' : Memory UInt8)
    (packetlen' : Nat)
    : Prop where
  header : packet.slice 0 12 = packet'.slice 0 12
  question : question packet packetlen = question packet' packetlen'
  records : announced packet packetlen = announced packet' packetlen'

/-- The status and the host name that `getanswer_ptr` leaves. -/
def ptrAnswer (packet : Memory UInt8) (packetlen : Nat) (abuf : AllocBuffer) (ttlp : Option Int)
    : Option (NssStatus × Option (Option (List UInt8))) :=
  (getanswerPtr packet packetlen abuf ttlp).map fun result => (result.status, result.hname)

/-- Only the answer section is examined: what follows it does not matter, and without a usable PTR record
in it there is no result.
-/
structure ExaminesAnswer (packet : Memory UInt8) (packetlen : Nat) (abuf : AllocBuffer)
    (ttlp : Option Int)
    : Prop where
  same : ∀ packet' packetlen', SameAnswer packet packetlen packet' packetlen'
    → ptrAnswer packet packetlen abuf ttlp = ptrAnswer packet' packetlen' abuf ttlp
  none_ : ∀ c, nsRrCursorInit packet packetlen = some c
    → ¬ SomeUsable (questionName packet c) (announced packet packetlen)
    → ∃ result, getanswerPtr packet packetlen abuf ttlp = some result ∧ result.status = .tryagain

def startSearch (packet : Memory UInt8) (c : RrCursor) (ttlp : Option Int) : PtrSearch :=
  { expected := questionName packet c, inBuffer := false, ttl := ttlp }

section

variable (start : nsRrCursorInit packet packetlen = some c)
include start

theorem startSearch_tracks
    : PtrState.Tracks packet { c, expectedName := .question, nameBuffer := [], ttl := ttlp }
        (startSearch packet c ttlp) := by
  obtain ⟨-, labels, held, fits, place, -, -⟩ := nsRrCursorInit_name start
  have length : c.firstRr - 4 - rrCursorQname = (wire labels).length := by omega
  refine ⟨⟨labels, ?_, fits, held⟩, iff_of_false Bool.false_ne_true (fun same => nomatch same), rfl⟩
  rw [startSearch, questionName, length]
  exact holdsName_iff.mp held

theorem getanswerPtr_eq (some_ : 0 < rrCursorAncount packet)
    (ends : searchRecords abuf (startSearch packet c ttlp) (answerRecords packet k c) = .inl result)
    : getanswerPtr packet packetlen abuf ttlp = some result := by
  obtain ⟨eom, -, -, -, -, -, inside⟩ := nsRrCursorInit_name start
  rw [getanswerPtr, start]
  exact ptrLoop_eq some_ (startSearch_tracks start) (by rw [eom]; exact inside)
    (show c.eom - c.current < packetlen + 1 by omega) ends

theorem getanswerPtr_search (some_ : 0 < rrCursorAncount packet)
    : ∃ result, searchRecords abuf (startSearch packet c ttlp)
          (answerRecords packet (packetlen + 1) c) = .inl result
        ∧ getanswerPtr packet packetlen abuf ttlp = some result := by
  obtain ⟨eom, -, -, -, -, -, inside⟩ := nsRrCursorInit_name start
  obtain ⟨result, ends⟩ : ∃ result, searchRecords abuf (startSearch packet c ttlp)
      (answerRecords packet (packetlen + 1) c) = .inl result :=
    searchRecords_ends (by rw [eom]; exact inside) (by omega)
  exact ⟨result, ends, getanswerPtr_eq start some_ ends⟩

/-- Without an announced record there is no result. -/
theorem getanswerPtr_none (none_ : rrCursorAncount packet = 0)
    : ∃ result, getanswerPtr packet packetlen abuf ttlp = some result
        ∧ result.status = .tryagain ∧ result.hname = none := by
  rw [getanswerPtr, start]
  dsimp only
  rw [ptrLoop, if_neg (by omega)]
  exact ⟨_, rfl, rfl, rfl⟩

end

/-- The header holds the number of records. -/
theorem rrCursorAncount_eq {packet' : Memory UInt8} (header : packet.slice 0 12 = packet'.slice 0 12)
    : rrCursorAncount packet = rrCursorAncount packet' := by
  have byte (i : Nat) (inside : i < 12) : packet (0 + i) = packet' (0 + i) := by
    have bound : i < (packet.slice 0 12).length := by rwa [length_slice]
    have bound' : i < (packet'.slice 0 12).length := by rwa [length_slice]
    rw [← getElem_slice bound, ← getElem_slice bound']
    exact getElem_of_eq header bound
  rw [rrCursorAncount, rrCursorAncount, byte 6 (by omega), byte 7 (by omega)]

theorem questionName_eq {packet' : Memory UInt8} {packetlen' : Nat} {c' : RrCursor}
    (start : nsRrCursorInit packet packetlen = some c)
    (start' : nsRrCursorInit packet' packetlen' = some c')
    (same : question packet packetlen = question packet' packetlen')
    : questionName packet c = questionName packet' c' := by
  obtain ⟨-, labels, -, -, place, -⟩ := nsRrCursorInit_name start
  rw [question, question, start, start', Option.map_some, Option.map_some, Option.some_inj] at same
  have length := congrArg List.length same
  rw [length_slice, length_slice] at length
  have split : c.firstRr - rrCursorQname = (c.firstRr - 4 - rrCursorQname) + 4 := by omega
  have split' : c'.firstRr - rrCursorQname = (c'.firstRr - 4 - rrCursorQname) + 4 := by omega
  rw [split, split', slice_add, slice_add] at same
  exact (append_inj same (by rw [length_slice, length_slice]; omega)).1

/-- `getanswer_ptr` examines only the answer section exactly if no record is announced, or one of those
that are is a usable PTR record.
-/
theorem getanswerPtr_announced (packet : Memory UInt8) (packetlen : Nat) (abuf : AllocBuffer)
    (ttlp : Option Int)
    : ExaminesAnswer packet packetlen abuf ttlp ↔ ∀ c, nsRrCursorInit packet packetlen = some c
        → rrCursorAncount packet = 0
          ∨ SomeUsable (questionName packet c) (announced packet packetlen) := by
  constructor
  · intro examines c start
    by_contra neither
    obtain ⟨some_, goes⟩ := not_or.mp neither
    obtain ⟨result, done, status⟩ := examines.none_ c start goes
    obtain ⟨result', ends, done'⟩ := getanswerPtr_search start (Nat.pos_of_ne_zero some_)
    rw [done] at done'
    cases done'
    exact searchRecords_status ends status
  · intro within
    constructor
    · intro packet' packetlen' same
      rw [ptrAnswer, ptrAnswer]
      have questions := same.question
      cases start : nsRrCursorInit packet packetlen with
      | none =>
        rw [question, start, Option.map_none, question, eq_comm, Option.map_eq_none_iff] at questions
        rw [getanswerPtr, getanswerPtr, start, questions]
      | some c =>
        cases start' : nsRrCursorInit packet' packetlen' with
        | none =>
          rw [question, question, start, start'] at questions
          cases questions
        | some c' =>
          have count := rrCursorAncount_eq same.header
          by_cases none_ : rrCursorAncount packet = 0
          · obtain ⟨result, done, status, hname⟩ := getanswerPtr_none start none_
            obtain ⟨result', done', status', hname'⟩ := getanswerPtr_none start' (count ▸ none_)
            rw [done, done', Option.map_some, Option.map_some, status, status', hname, hname']
          · have some_ := Nat.pos_of_ne_zero none_
            have ends := ((within c start).resolve_left none_).someEnds
            have name : (startSearch packet c ttlp).expected = questionName packet c := rfl
            rw [← name, ← searchRecords_iff] at ends
            obtain ⟨result, ends⟩ := ends
            have first := getanswerPtr_eq start some_ (by rw [announced, start] at ends; exact ends)
            rw [same.records, startSearch, questionName_eq start start' questions] at ends
            rw [announced, start'] at ends
            have second := getanswerPtr_eq start' (count ▸ some_) ends
            rw [first, second]
    · intro c start goes
      have none_ := (within c start).resolve_right goes
      obtain ⟨result, done, status, -⟩ := getanswerPtr_none start none_
      exact ⟨result, done, status⟩

/-- A response to a PTR query for `1.`, with an address record in the answer section, and behind it a PTR
record in the authority section.
-/
def referral : List UInt8 := [0, 0, 132, 0, 0, 1, 0, 1, 0, 1, 0, 0] ++ [1, 49, 0, 0, 12, 0, 1]
    ++ [192, 12, 0, 1, 0, 1, 0, 0, 0, 9, 0, 4, 127, 0, 0, 1]
    ++ [192, 12, 0, 12, 0, 1, 0, 0, 0, 9, 0, 3, 1, 97, 0]

/-- The PTR record of the authority section is returned; without that section there is none. -/
theorem getanswerPtr_authority
    : ¬ ExaminesAnswer (nameArray referral) referral.length { current := 4096, stop := 8192 } none := by
  intro examines
  have same : SameAnswer (nameArray referral) referral.length (nameArray referral) 35 :=
    ⟨rfl, by decide +kernel, rfl⟩
  have equal := examines.same _ _ same
  revert equal
  decide +kernel

/-! The name that is checked -/

/-- A PTR record of the question, itself a host name, whose target is none and has the text `text`. -/
structure UncheckedTarget (name : List UInt8) (record : NameRecord) (target text : List UInt8) : Prop where
  rclass : record.rclass = cIn
  rtype : record.rtype = tPtr
  owner : isSame record.rname name = true
  checked : isHnok name = true
  found : record.target = some target
  unchecked : isHnok target = false
  written : hostText target = some text

/-- The search comes to such a record, with no CNAME before it, and the buffer has room for the text. -/
def ReturnsUnchecked (abuf : AllocBuffer) (name : List UInt8) (records : List (Option NameRecord)) : Prop :=
  ∃ before record after target text, records = before ++ some record :: after
    ∧ (∀ r ∈ before, Passed name r) ∧ UncheckedTarget name record target text
    ∧ (abuf.copyString text).1 = some text

theorem searchStep_passed (passed : Passed s.expected record)
    : ∃ s', searchStep abuf s record = .inr s' ∧ s'.expected = s.expected
        ∧ s'.inBuffer = s.inBuffer := by
  have step := searchStep_cases abuf s record
  generalize searchStep abuf s record = next at step
  cases step with
  | unread => exact passed.elim
  | passed record ttl passes => exact ⟨_, rfl, rfl, rfl⟩
  | lost record ttl rclass cname none_ => exact absurd cname (passed rclass).1
  | alias_ record ttl rclass cname name target => exact absurd cname (passed rclass).1
  | pointer record ttl rclass rtype owner => exact absurd ⟨rtype, owner⟩ (passed rclass).2

/-- A step that goes on passes the record, or the expected name lies in the array from there on. -/
theorem searchStep_goes (stepped : searchStep abuf s record = .inr s')
    : s'.inBuffer = true
      ∨ Passed s.expected record ∧ s'.expected = s.expected ∧ s'.inBuffer = s.inBuffer := by
  have step := searchStep_cases abuf s record
  rw [stepped] at step
  cases step with
  | passed record ttl passes => exact .inr ⟨passes, rfl, rfl⟩
  | alias_ record ttl rclass cname name target => exact .inl rfl

theorem ptrUnavail_status {ttl : Option Int} : (ptrUnavail ttl abuf).status ≠ .success :=
  fun same => nomatch same

theorem copyString_some {src copy : List UInt8} (copied : (abuf.copyString src).1 = some copy)
    : copy = src := by
  rw [AllocBuffer.copyString] at copied
  split at copied
  · cases copied
  · exact (Option.some.inj copied).symm

/-- A name is stored for a PTR record of the expected name whose target has its text. -/
theorem ptrTarget_stored {target : Option (List UInt8)}
    (success : (ptrTarget abuf s target).status = .success)
    (stored : (ptrTarget abuf s target).hname = some (some text))
    : ∃ found, target = some found ∧ isHnok (if s.inBuffer then found else s.expected) = true
        ∧ hostText found = some text ∧ (abuf.copyString text).1 = some text := by
  cases target with
  | none => exact absurd success ptrUnavail_status
  | some found =>
    rw [ptrTarget] at success stored
    by_cases bad : ¬ isHnok (if s.inBuffer then found else s.expected) = true
    · rw [if_pos bad] at success
      exact absurd success ptrUnavail_status
    rw [if_neg bad] at success stored
    cases written : hostText found with
    | none =>
      rw [written] at success
      exact absurd success ptrUnavail_status
    | some hname =>
      rw [written] at stored
      have copied : (abuf.copyString hname).1 = some text := Option.some.inj stored
      have same := copyString_some copied
      rw [← same] at copied written
      exact ⟨found, rfl, not_not.mp bad, written, copied⟩

/-- Where a step stores a name, it does so for a PTR record of the expected name. -/
theorem searchStep_stored (stepped : searchStep abuf s record = .inl result)
    (success : result.status = .success) (stored : result.hname = some (some text))
    : ∃ r found, record = some r ∧ r.rclass = cIn ∧ r.rtype = tPtr ∧ isSame r.rname s.expected = true
        ∧ r.target = some found ∧ isHnok (if s.inBuffer then found else s.expected) = true
        ∧ hostText found = some text ∧ (abuf.copyString text).1 = some text := by
  have step := searchStep_cases abuf s record
  rw [stepped] at step
  cases step with
  | unread => exact absurd success ptrUnavail_status
  | lost record ttl rclass cname none_ => exact absurd success ptrUnavail_status
  | pointer record ttl rclass rtype owner =>
    obtain ⟨found, target, checked, written, copied⟩ := ptrTarget_stored success stored
    exact ⟨record, found, rfl, rclass, rtype, owner, target, checked, written, copied⟩

/-- A name that a search stores is a host name, unless no CNAME comes before it and only the name of the
question is one.
-/
theorem searchRecords_stored (ends : searchRecords abuf s records = .inl result)
    (success : result.status = .success) (stored : result.hname = some (some text))
    : (∃ r found, some r ∈ records ∧ r.target = some found ∧ isHnok found = true
        ∧ hostText found = some text)
      ∨ s.inBuffer = false ∧ ReturnsUnchecked abuf s.expected records := by
  induction records generalizing s with
  | nil => cases ends
  | cons record records ih =>
    rw [searchRecords] at ends
    cases stepped : searchStep abuf s record with
    | inl result' =>
      rw [stepped] at ends
      cases ends
      obtain ⟨r, found, rfl, rclass, rtype, owner, target, checked, written, copied⟩ :=
        searchStep_stored stepped success stored
      by_cases host : isHnok found = true
      · exact .inl ⟨r, found, mem_cons_self, target, host, written⟩
      cases place : s.inBuffer with
      | true =>
        rw [place] at checked
        exact absurd checked host
      | false =>
        rw [place] at checked
        exact .inr ⟨rfl, [], r, records, found, text, rfl,
          fun _ inside => absurd inside not_mem_nil,
          ⟨rclass, rtype, owner, checked, target, Bool.eq_false_iff.mpr host, written⟩, copied⟩
    | inr s' =>
      rw [stepped] at ends
      rcases ih ends with ⟨r, found, inside, rest⟩ | ⟨outside, unchecked⟩
      · exact .inl ⟨r, found, mem_cons_of_mem _ inside, rest⟩
      rcases searchStep_goes stepped with inside | ⟨passed, expected, place⟩
      · rw [outside] at inside
        cases inside
      · rw [expected] at unchecked
        obtain ⟨before, r, after, target, text', rfl, all, rest⟩ := unchecked
        exact .inr ⟨place ▸ outside, record :: before, r, after, target, text', rfl,
          forall_mem_cons.mpr ⟨passed, all⟩, rest⟩

private theorem searchRecords_unchecked {before after : List (Option NameRecord)} {r : NameRecord}
    {target : List UInt8} (outside : s.inBuffer = false) (all : ∀ r ∈ before, Passed s.expected r)
    (unchecked : UncheckedTarget s.expected r target text)
    : ∃ ttl, searchRecords abuf s (before ++ some r :: after) = .inl (ptrSuccess ttl abuf text) := by
  induction before generalizing s with
  | nil =>
    have distinct : r.rtype ≠ tCname := by
      rw [unchecked.rtype]
      decide
    rw [nil_append, searchRecords, searchStep, if_neg (not_not_intro unchecked.rclass)]
    rw [if_neg distinct, if_pos ⟨unchecked.rtype, unchecked.owner⟩, unchecked.found, ptrTarget,
      outside]
    rw [if_neg Bool.false_ne_true, if_neg (not_not_intro unchecked.checked), unchecked.written]
    exact ⟨_, rfl⟩
  | cons first before ih =>
    rw [forall_mem_cons] at all
    obtain ⟨s', stepped, expected, place⟩ := @searchStep_passed abuf s first all.1
    rw [cons_append, searchRecords, stepped]
    refine ih (place.trans outside) ?_ ?_
    · rw [expected]
      exact all.2
    · rw [expected]
      exact unchecked

/-- The targets of the records are valid names. -/
theorem answerRecords_target {r : NameRecord} {target : List UInt8}
    (inside : some r ∈ answerRecords packet k c) (found : r.target = some target)
    : ∃ labels, target = wire labels ∧ (wire labels).length ≤ maxcdname := by
  induction k generalizing c with
  | zero => exact absurd inside not_mem_nil
  | succ k ih =>
    rw [answerRecords] at inside
    cases read : nextRecord packet c with
    | none =>
      rw [read] at inside
      cases mem_singleton.mp inside
    | some both =>
      rw [read] at inside
      rcases mem_cons.mp inside with same | later
      · cases same
        rw [nextRecord] at read
        cases cursor : nsRrCursorNext packet c with
        | none =>
          rw [cursor] at read
          cases read
        | some both =>
          rw [cursor] at read
          cases read
          split at found
          · obtain ⟨⟨n, name⟩, unpacked, rfl⟩ := Option.map_eq_some_iff.mp found
            exact unpackName_wire unpacked
          · cases found
      · exact ih later

theorem hostText_wire {labels : List Label} (written : hostText (wire labels) = some text)
    : text = nameText labels := by
  rw [hostText, ntopName] at written
  split at written
  · rename_i done
    cases written
    exact nsNameNtop_ok (nameArray_wire labels) done
  · cases written

theorem isHnok_iff {labels : List Label} (fits : (wire labels).length ≤ maxcdname)
    : isHnok (wire labels) = true ↔ HostName labels :=
  resBinaryHnok_iff (nameArray_wire labels) fits

def packetRecords (packet : Memory UInt8) (packetlen : Nat) (c : RrCursor) : List (Option NameRecord) :=
  answerRecords packet (packetlen + 1) c

/-- A host name that `getanswer_ptr` stores with success is the text of a name by the rules. -/
def StoresHostName (packet : Memory UInt8) (packetlen : Nat) (abuf : AllocBuffer) (ttlp : Option Int)
    : Prop :=
  ∀ result text, getanswerPtr packet packetlen abuf ttlp = some result → result.status = .success
    → result.hname = some (some text)
    → ∃ labels, (wire labels).length ≤ maxcdname ∧ text = nameText labels ∧ HostName labels

/-- `getanswer_ptr` stores only host names exactly if it does not come to an unchecked target. -/
theorem getanswerPtr_hostName (packet : Memory UInt8) (packetlen : Nat) (abuf : AllocBuffer)
    (ttlp : Option Int)
    : StoresHostName packet packetlen abuf ttlp
      ↔ ∀ c, nsRrCursorInit packet packetlen = some c → 0 < rrCursorAncount packet
        → ¬ ReturnsUnchecked abuf (questionName packet c) (packetRecords packet packetlen c) := by
  constructor
  · rintro stores c start some_ ⟨before, r, after, target, text, split, all, unchecked, copied⟩
    obtain ⟨ttl, ends⟩ :=
      @searchRecords_unchecked abuf text (startSearch packet c ttlp) before after r target rfl all
        unchecked
    rw [← split] at ends
    have done := getanswerPtr_eq start some_ ends
    have stored : (ptrSuccess ttl abuf text).hname = some (some text) := congrArg some copied
    obtain ⟨labels, fits, form, host⟩ := stores _ text done rfl stored
    have inside : some r ∈ packetRecords packet packetlen c := by simp [split]
    obtain ⟨labels', rfl, fits'⟩ := answerRecords_target inside unchecked.found
    have same : labels = labels' :=
      nameText_injective fits fits' (form.symm.trans (hostText_wire unchecked.written))
    have bad := unchecked.unchecked
    rw [← same, (isHnok_iff fits).mpr host] at bad
    cases bad
  · intro checked result text done success stored
    cases start : nsRrCursorInit packet packetlen with
    | none =>
      rw [getanswerPtr, start] at done
      cases done
      exact absurd success ptrUnavail_status
    | some c =>
      by_cases none_ : rrCursorAncount packet = 0
      · obtain ⟨result', done', status, -⟩ := getanswerPtr_none start none_
        rw [done] at done'
        cases done'
        rw [status] at success
        cases success
      have some_ := Nat.pos_of_ne_zero none_
      obtain ⟨result', ends, done'⟩ := getanswerPtr_search start some_
      rw [done] at done'
      cases done'
      rcases searchRecords_stored ends success stored with ⟨r, found, inside, target, host, written⟩ | bad
      · obtain ⟨labels, rfl, fits⟩ := answerRecords_target inside target
        exact ⟨labels, fits, hostText_wire written, (isHnok_iff fits).mp host⟩
      · exact absurd bad.2 (checked c start some_)

/-- A response to a PTR query for `1.` with the name `-a.`. -/
def pointerToOption : List UInt8 :=
  [0, 0, 132, 0, 0, 1, 0, 1, 0, 0, 0, 0] ++ [1, 49, 0, 0, 12, 0, 1]
    ++ [192, 12, 0, 12, 0, 1, 0, 0, 0, 9, 0, 4, 2, 45, 97, 0]

/-- The name is stored, though it starts with a dash. -/
theorem getanswerPtr_dash
    : ¬ StoresHostName (nameArray pointerToOption) pointerToOption.length
        { current := 4096, stop := 8192 } none := by
  intro stores
  let dashed : Label := ⟨[45, 97], by decide⟩
  have answer : ptrAnswer (nameArray pointerToOption) pointerToOption.length
      { current := 4096, stop := 8192 } none = some (.success, some (some [45, 97])) := by
    decide +kernel
  obtain ⟨result, done, both⟩ := Option.map_eq_some_iff.mp answer
  obtain ⟨status, hname⟩ := Prod.mk.inj both
  obtain ⟨labels, fits, form, host⟩ := stores result [45, 97] done status hname
  have same : labels = [dashed] := nameText_injective fits (by decide) form.symm
  rw [same] at host
  exact host.2 dashed rfl rfl

end Nglibc.Resolv
