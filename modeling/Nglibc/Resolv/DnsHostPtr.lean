import Nglibc.Resolv.DnsHost

/-! What `getanswer_ptr` makes of the records of a packet: which of them it looks at, and which of the
names in them it checks.

The records are read here apart from the search, with the names in them uncompressed.
-/

namespace Nglibc.Resolv

open Memory

/-- A record, with the name in its data, if there is one. -/
structure NameRecord where
  rname : List UInt8
  rtype : Nat
  rclass : Nat
  ttl : Nat
  target : Option (List UInt8)

def nextRecord (mem : Memory UInt8) (c : RrCursor) : Option (NameRecord × RrCursor) :=
  match nsRrCursorNext mem c with
  | none => none
  | some (rr, next) =>
    let record :=
      { rname := rr.rname, rtype := rr.rtype, rclass := rr.rclass, ttl := rr.ttl, target :=
          if rr.rtype = tCname ∨ rr.rtype = tPtr then (unpackName mem next.eom rr.rdata).map (·.2)
          else none }
    some (record, next)

/-- The next `k` records, up to one that cannot be read. -/
def answerRecords (mem : Memory UInt8) : Nat → RrCursor → List (Option NameRecord)
  | 0, _ => []
  | k + 1, c =>
    match nextRecord mem c with
    | none => [none]
    | some (record, next) => some record :: answerRecords mem k next

/-- The search between two records: the name that is expected, whether it lies in the array, and the
TTL.
-/
structure PtrSearch where
  expected : List UInt8
  inBuffer : Bool
  ttl : Option Int

/-- `__res_binary_hnok` of a name. -/
def isHnok (name : List UInt8) : Bool := resBinaryHnok (nameArray name) 0

/-- `__ns_samebinaryname` of two names. -/
def isSame (name name' : List UInt8) : Bool := nsSamebinaryname (nameArray name) 0 (nameArray name') 0

/-- The text of a name in the array of `getanswer_ptr`. -/
def hostText (name : List UInt8) : Option (List UInt8) := ntopName (nameArray name) (maxhostnamelen + 1)

/-- What a PTR record of the expected name leads to. If the expected name lies in the array, the target
takes its place before it is checked.
-/
def ptrTarget (abuf : AllocBuffer) (s : PtrSearch) (target : Option (List UInt8)) : PtrResult :=
  match target with
  | none => ptrUnavail s.ttl abuf
  | some name =>
    if ¬ isHnok (if s.inBuffer then name else s.expected) then ptrUnavail s.ttl abuf
    else
      match hostText name with
      | none => ptrUnavail s.ttl abuf
      | some hname => ptrSuccess s.ttl abuf hname

theorem ptrTarget_status {abuf : AllocBuffer} {s : PtrSearch} {target : Option (List UInt8)}
    : (ptrTarget abuf s target).status ≠ .tryagain := by
  have failed : (ptrUnavail s.ttl abuf).status ≠ .tryagain := fun same => nomatch same
  cases target with
  | none => exact failed
  | some name =>
    rw [ptrTarget]
    by_cases bad : ¬ isHnok (if s.inBuffer then name else s.expected) = true
    · rw [if_pos bad]
      exact failed
    · rw [if_neg bad]
      cases hostText name with
      | none => exact failed
      | some hname => exact fun same => nomatch same

def searchStep (abuf : AllocBuffer) (s : PtrSearch) : Option NameRecord → PtrResult ⊕ PtrSearch
  | none => .inl (ptrUnavail s.ttl abuf)
  | some record =>
    if record.rclass ≠ cIn then .inr s
    else
      let s :=
        { s with
          ttl := if record.rtype = tCname ∨ record.rtype = tPtr then updateTtl s.ttl record.ttl
            else s.ttl }
      if record.rtype = tCname then
        match record.target with
        | none => .inl (ptrUnavail s.ttl abuf)
        | some name => .inr { s with expected := name, inBuffer := true }
      else if record.rtype = tPtr ∧ isSame record.rname s.expected then
        .inl (ptrTarget abuf s record.target)
      else .inr s

def searchRecords (abuf : AllocBuffer) : PtrSearch → List (Option NameRecord) → PtrResult ⊕ PtrSearch
  | s, [] => .inr s
  | s, record :: rest =>
    match searchStep abuf s record with
    | .inl result => .inl result
    | .inr s => searchRecords abuf s rest

variable {mem mem' : Memory UInt8} {abuf : AllocBuffer} {labels la lb : List Label} {s : PtrState}
  {search : PtrSearch} {c c' : RrCursor} {ancount fuel k a b packetlen packetlen' : Nat} {ttlp : Option Int}
  {result : PtrResult} {name : List UInt8}

theorem resBinaryHnok_eq (held : HoldsName mem a labels) (fits : (wire labels).length ≤ maxcdname)
    : resBinaryHnok mem a = isHnok (wire labels) := by
  rw [Bool.eq_iff_iff, resBinaryHnok_iff held fits, isHnok,
    resBinaryHnok_iff (nameArray_wire labels) fits]

theorem nsSamebinaryname_eq (held : HoldsName mem b lb) (fits : (wire la).length ≤ maxcdname)
    : nsSamebinaryname (nameArray (wire la)) 0 mem b = isSame (wire la) (wire lb) := by
  rw [Bool.eq_iff_iff, nsSamebinaryname_iff (nameArray_wire la) held fits, isSame,
    nsSamebinaryname_iff (nameArray_wire la) (nameArray_wire lb) fits]

/-- The variables of the loop stand for a search: the pointer leads to the expected name. -/
structure PtrState.Tracks (mem : Memory UInt8) (s : PtrState) (search : PtrSearch) : Prop where
  expected : ∃ labels, search.expected = wire labels ∧ (wire labels).length ≤ maxcdname
    ∧ HoldsName (s.expected mem).1 (s.expected mem).2 labels
  place : search.inBuffer = true ↔ s.expectedName = .nameBuffer
  ttl : search.ttl = s.ttl

/-- What a round leaves stands for what the step leaves. -/
def RoundTracks (mem : Memory UInt8) (next : RrCursor)
    : PtrResult ⊕ PtrState → PtrResult ⊕ PtrSearch → Prop
  | .inl result, .inl result' => result = result'
  | .inr s, .inr search => s.c = next ∧ s.Tracks mem search
  | _, _ => False

/-- The target takes the place of the expected name exactly if that lies in the array. -/
theorem ptrRecord_eq {rr : RrWire} (tracks : s.Tracks mem search)
    : ptrRecord mem abuf s rr
        = ptrTarget abuf search ((unpackName mem s.c.eom rr.rdata).map (·.2)) := by
  rw [ptrRecord, ptrTarget.eq_def, tracks.ttl]
  cases unpacked : unpackName mem s.c.eom rr.rdata with
  | none => rfl
  | some target =>
    obtain ⟨n, name⟩ := target
    obtain ⟨labels, rfl, fits⟩ := unpackName_wire unpacked
    obtain ⟨expected, form, short, held⟩ := tracks.expected
    have checked : resBinaryHnok (PtrState.expected mem { s with nameBuffer := wire labels }).1
          (PtrState.expected mem { s with nameBuffer := wire labels }).2
        = isHnok (if search.inBuffer then wire labels else search.expected) := by
      cases place : s.expectedName with
      | nameBuffer =>
        rw [if_pos (tracks.place.mpr place)]
        exact resBinaryHnok_eq (nameArray_wire labels) fits
      | question =>
        have outside : ¬ search.inBuffer = true := fun inside => by
          rw [tracks.place.mp inside] at place
          cases place
        rw [PtrState.expected, place] at held
        rw [if_neg outside, form]
        exact resBinaryHnok_eq held short
    simp only [Option.map_some]
    rw [checked]
    rfl

/-- A round of the loop is a step of the search. -/
theorem ptrRound_tracks {record : NameRecord} {next : RrCursor} (tracks : s.Tracks mem search)
    (read : nextRecord mem s.c = some (record, next))
    : RoundTracks mem next (ptrRound mem abuf s) (searchStep abuf search (some record)) := by
  rw [nextRecord] at read
  cases cursor : nsRrCursorNext mem s.c with
  | none =>
    rw [cursor] at read
    cases read
  | some found =>
    obtain ⟨rr, after⟩ := found
    rw [cursor] at read
    cases read
    obtain ⟨owner, form, fits⟩ := nsRrCursorNext_rname cursor
    obtain ⟨expected, same, short, held⟩ := tracks.expected
    have moved (ttl : Option Int) : PtrState.Tracks mem { s with c := next, ttl } { search with ttl } :=
      ⟨⟨expected, same, short, held⟩, tracks.place, rfl⟩
    rw [ptrRound, cursor, searchStep]
    dsimp only
    by_cases other : rr.rclass ≠ cIn
    · rw [if_pos other, if_pos other]
      exact ⟨rfl, ⟨expected, same, short, held⟩, tracks.place, tracks.ttl⟩
    rw [if_neg other, if_neg other, tracks.ttl]
    by_cases cname : rr.rtype = tCname
    · rw [if_pos cname, if_pos cname]
      simp only [if_pos (.inl cname : rr.rtype = tCname ∨ rr.rtype = tPtr)]
      cases unpacked : unpackName mem next.eom rr.rdata with
      | none => rfl
      | some target =>
        obtain ⟨n, name⟩ := target
        obtain ⟨labels, rfl, fits⟩ := unpackName_wire unpacked
        exact ⟨rfl, ⟨labels, rfl, fits, nameArray_wire labels⟩, iff_of_true rfl rfl, rfl⟩
    rw [if_neg cname, if_neg cname]
    have owns : nsSamebinaryname (nameArray rr.rname) 0 (s.expected mem).1 (s.expected mem).2
        = isSame rr.rname search.expected := by
      rw [form, same]
      exact nsSamebinaryname_eq held fits
    have equal (ttl : Option Int)
        : PtrState.expected mem { s with c := next, ttl } = s.expected mem := rfl
    rw [equal, owns]
    by_cases pointer : rr.rtype = tPtr ∧ isSame rr.rname search.expected = true
    · rw [if_pos pointer, if_pos pointer]
      simp only [if_pos (.inr pointer.1 : rr.rtype = tCname ∨ rr.rtype = tPtr)]
      exact ptrRecord_eq (moved _)
    · rw [if_neg pointer, if_neg pointer]
      exact ⟨rfl, moved _⟩

/-- The cursor moves on inside of the packet. -/
theorem nextRecord_next {record : NameRecord} (read : nextRecord mem c = some (record, c'))
    : c.current < c'.current ∧ c'.current ≤ c'.eom ∧ c'.eom = c.eom := by
  rw [nextRecord] at read
  cases cursor : nsRrCursorNext mem c with
  | none =>
    rw [cursor] at read
    cases read
  | some found =>
    rw [cursor] at read
    cases read
    have moved := nsRrCursorNext_current cursor
    exact ⟨moved.1, (nsRrCursorNext_inside cursor).2, moved.2⟩

/-- A search over records that ends is the one of the loop, whatever comes behind these records. -/
theorem ptrLoop_eq (some_ : 0 < ancount) (tracks : s.Tracks mem search) (inside : s.c.current ≤ s.c.eom)
    (enough : s.c.eom - s.c.current < fuel)
    (ends : searchRecords abuf search (answerRecords mem k s.c) = .inl result)
    : ptrLoop mem abuf ancount fuel s = some result := by
  induction k generalizing s search fuel with
  | zero => cases ends
  | succ k ih =>
    obtain _ | fuel := fuel
    · omega
    rw [ptrLoop, if_pos some_]
    rw [answerRecords] at ends
    cases read : nextRecord mem s.c with
    | none =>
      rw [read] at ends
      cases ends
      rw [nextRecord] at read
      cases cursor : nsRrCursorNext mem s.c with
      | none => rw [ptrRound, cursor, tracks.ttl]
      | some found =>
        rw [cursor] at read
        cases read
    | some found =>
      obtain ⟨record, next⟩ := found
      obtain ⟨further, within, same⟩ := nextRecord_next read
      have round := @ptrRound_tracks mem abuf s search record next tracks read
      simp only [read, searchRecords] at ends
      cases stepped : searchStep abuf search (some record) with
      | inl result' =>
        rw [stepped] at ends round
        cases ends
        cases turned : ptrRound mem abuf s with
        | inl result' =>
          rw [turned] at round
          exact congrArg some round
        | inr s' =>
          rw [turned] at round
          exact round.elim
      | inr search' =>
        rw [stepped] at ends round
        cases turned : ptrRound mem abuf s with
        | inl result' =>
          rw [turned] at round
          exact round.elim
        | inr s' =>
          rw [turned] at round
          obtain ⟨rfl, tracks'⟩ := round
          exact ih tracks' within (by omega) ends

/-- The search over all that the packet holds ends, at the end of the packet at the latest. -/
theorem searchRecords_ends (inside : c.current ≤ c.eom) (enough : c.eom - c.current < k)
    : ∃ result, searchRecords abuf search (answerRecords mem k c) = .inl result := by
  induction k generalizing c search with
  | zero => omega
  | succ k ih =>
    rw [answerRecords]
    cases read : nextRecord mem c with
    | none => exact ⟨_, rfl⟩
    | some found =>
      obtain ⟨record, next⟩ := found
      obtain ⟨further, within, same⟩ := nextRecord_next read
      simp only [searchRecords]
      cases stepped : searchStep abuf search (some record) with
      | inl result => exact ⟨result, rfl⟩
      | inr search' => exact ih within (by omega)

end Nglibc.Resolv
