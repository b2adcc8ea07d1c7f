import Nglibc.Lib.CheckedInt
import Nglibc.Resolv.NsRrCursor

/-! Host names and addresses from the response of a name server: `getanswer_ptr` and
`gaih_getanswer_slice` of `resolv/nss_dns/dns-host.c`, with the allocation buffers of
`include/alloc_buffer.h`.

The model keeps of an address tuple what is stored in it, and of a pointer to it whether it is null.
-/

namespace Nglibc.Resolv

open List

structure AllocBuffer where
  current : Nat
  stop : Nat

namespace AllocBuffer

/-- `alloc_buffer_mark_failed`. -/
def failed : AllocBuffer := { current := 0, stop := 0 }

/-- `alloc_buffer_has_failed`. -/
def hasFailed (buf : AllocBuffer) : Bool := buf.current = 0

/-- `alloc_buffer_alloc_bytes`: the pointer, 0 if it is null, and the buffer. -/
def allocBytes (buf : AllocBuffer) (length : Nat) : Nat × AllocBuffer :=
  if length ≤ buf.stop - buf.current then
    (buf.current, { buf with current := buf.current + length })
  else (0, failed)

/-- `__alloc_buffer_alloc` for an object of more than one byte. -/
def alloc (buf : AllocBuffer) (size align : Nat) : Nat × AllocBuffer :=
  let aligned := (buf.current + (align - 1)) % 2 ^ 64 / align * align
  let newCurrent := (aligned + size) % 2 ^ 64
  if aligned ≥ buf.current ∧ newCurrent ≥ size ∧ newCurrent ≤ buf.stop then
    (aligned, { buf with current := newCurrent })
  else (0, failed)

/-- `alloc_buffer_copy_string`: the copy, `none` for a null pointer. -/
def copyString (buf : AllocBuffer) (src : List UInt8) : Option (List UInt8) × AllocBuffer :=
  let after := (buf.allocBytes (src.length + 1)).2
  (if after.hasFailed then none else some src, after)

end AllocBuffer

def cIn : Nat := 1

def tA : Nat := 1

def tCname : Nat := 5

def tPtr : Nat := 12

def tAaaa : Nat := 28

/-- `MAXHOSTNAMELEN`, as the file defines it. -/
def maxhostnamelen : Nat := 256

inductive NssStatus where
  | tryagain
  | unavail
  | notfound
  | success
deriving DecidableEq

/-- The values stored at `h_errnop`. -/
inductive HErrno where
  | netdbSuccess
  | hostNotFound
  | noRecovery
deriving DecidableEq

/-- What `expected_name` points to: the question in the packet, or the local array. -/
inductive ExpectedName where
  | question
  | nameBuffer

def ExpectedName.place (mem : Memory UInt8) (nameBuffer : List UInt8)
    : ExpectedName → Memory UInt8 × Nat
  | question => (mem, rrCursorQname)
  | .nameBuffer => (nameArray nameBuffer, 0)

/-- `*ttlp = rr.ttl`, if the stored number, as an unsigned one, is greater. -/
def updateTtl (ttlp : Option Int) (ttl : Nat) : Option Int :=
  ttlp.map fun stored => if (BitVec.ofInt 32 stored).toNat > ttl then wrap 32 ttl else stored

/-- `__ns_name_ntop`; `none` is the result -1. A valid name has fewer labels than the rounds. -/
def ntopName (name : Memory UInt8) (dstsiz : Nat) : Option (List UInt8) :=
  match nsNameNtop 256 name dstsiz with
  | some (.ok (_, text)) => some text
  | _ => none

/-- What `getanswer_ptr` returns and stores. `*hnamep` is `none` if nothing is stored there, and
`some none` for a null pointer; `*errnop` is set only where `enoent` holds.
-/
structure PtrResult where
  status : NssStatus
  hname : Option (Option (List UInt8))
  hErrno : Option HErrno
  enoent : Bool
  ttl : Option Int
  abuf : AllocBuffer

structure PtrState where
  c : RrCursor
  expectedName : ExpectedName
  nameBuffer : List UInt8
  ttl : Option Int

/-- `*h_errnop = NO_RECOVERY; return NSS_STATUS_UNAVAIL`. -/
def ptrUnavail (ttl : Option Int) (abuf : AllocBuffer) : PtrResult :=
  { status := .unavail, hname := none, hErrno := some .noRecovery, enoent := false, ttl, abuf }

/-- The pointer `expected_name`. -/
def PtrState.expected (mem : Memory UInt8) (s : PtrState) : Memory UInt8 × Nat :=
  s.expectedName.place mem s.nameBuffer

def ptrSuccess (ttl : Option Int) (abuf : AllocBuffer) (hname : List UInt8) : PtrResult :=
  { status := .success, hname := some (abuf.copyString hname).1, hErrno := none, enoent := false,
    ttl,
    abuf := (abuf.copyString hname).2 }

def ptrRecord (mem : Memory UInt8) (abuf : AllocBuffer) (s : PtrState) (rr : RrWire) : PtrResult :=
  match unpackName mem s.c.eom rr.rdata with
  | none => ptrUnavail s.ttl abuf
  | some (_, name) =>
    let s := { s with nameBuffer := name }
    if ¬ resBinaryHnok (s.expected mem).1 (s.expected mem).2 then ptrUnavail s.ttl abuf
    else
      match ntopName (nameArray s.nameBuffer) (maxhostnamelen + 1) with
      | none => ptrUnavail s.ttl abuf
      | some hname => ptrSuccess s.ttl abuf hname

def ptrRound (mem : Memory UInt8) (abuf : AllocBuffer) (s : PtrState) : PtrResult ⊕ PtrState :=
  match nsRrCursorNext mem s.c with
  | none => .inl (ptrUnavail s.ttl abuf)
  | some (rr, c) =>
    let s := { s with c }
    if rr.rclass ≠ cIn then .inr s
    else
      let s :=
        { s with
          ttl := if rr.rtype = tCname ∨ rr.rtype = tPtr then updateTtl s.ttl rr.ttl else s.ttl }
      if rr.rtype = tCname then
        match unpackName mem c.eom rr.rdata with
        | none => .inl (ptrUnavail s.ttl abuf)
        | some (_, name) => .inr { s with nameBuffer := name, expectedName := .nameBuffer }
      else if rr.rtype = tPtr
          ∧ nsSamebinaryname (nameArray rr.rname) 0 (s.expected mem).1 (s.expected mem).2 then
        .inl (ptrRecord mem abuf s rr)
      else .inr s

/-- The loop, which does not change `ancount`, and what follows it. -/
def ptrLoop (mem : Memory UInt8) (abuf : AllocBuffer) (ancount : Nat) : Nat → PtrState → Option PtrResult
  | 0, _ => none
  | fuel + 1, s =>
    if ancount > 0 then
      match ptrRound mem abuf s with
      | .inl result => some result
      | .inr s => ptrLoop mem abuf ancount fuel s
    else
      some
        { status := .tryagain, hname := none, hErrno := some .noRecovery, enoent := true,
          ttl := s.ttl.map fun _ => 0,
          abuf }

/-- `getanswer_ptr`. Each round moves the cursor on, so that the rounds suffice. -/
def getanswerPtr (packet : Memory UInt8) (packetlen : Nat) (abuf : AllocBuffer) (ttlp : Option Int)
    : Option PtrResult :=
  match nsRrCursorInit packet packetlen with
  | none => some (ptrUnavail ttlp abuf)
  | some c =>
    ptrLoop packet abuf (rrCursorAncount packet) (packetlen + 1)
      { c, expectedName := .question, nameBuffer := [], ttl := ttlp }

/-- The field `name` of a tuple: whatever the memory held before, a null pointer, or a string. -/
inductive TupleName where
  | uninitialized
  | null
  | text (name : List UInt8)
deriving DecidableEq

/-- `struct gaih_addrtuple`, but for `next`. -/
structure GaihAddrtuple where
  name : TupleName
  family : Nat
  addr : List UInt8
  scopeid : Nat

/-- `sizeof (struct gaih_addrtuple)`. -/
def sizeofAddrtuple : Nat := 40

/-- `__alignof__ (struct gaih_addrtuple)`. -/
def alignofAddrtuple : Nat := 8

def afInet : Nat := 2

def afInet6 : Nat := 10

def rrtypeToRdataLength (type : Nat) : Int := if type = tA then 4 else if type = tAaaa then 16 else -1

/-- The variables of the loop; `tuples` are those that are linked in. -/
structure SliceState where
  c : RrCursor
  expectedName : ExpectedName
  nameBuffer : List UInt8
  compressedAliasName : Option Nat
  storeCanon : Bool
  haveanswer : Bool
  tuples : List GaihAddrtuple
  abuf : AllocBuffer
  ttl : Option Int

/-- What `gaih_getanswer_slice` returns and stores. -/
structure SliceResult where
  status : NssStatus
  hErrno : HErrno
  tuples : List GaihAddrtuple
  abuf : AllocBuffer
  ttl : Option Int

/-- The pointer `expected_name`. -/
def SliceState.expected (mem : Memory UInt8) (s : SliceState) : Memory UInt8 × Nat :=
  s.expectedName.place mem s.nameBuffer

def sliceResult (status : NssStatus) (hErrno : HErrno) (s : SliceState) : SliceResult :=
  { status, hErrno, tuples := s.tuples, abuf := s.abuf, ttl := s.ttl }

/-- The field `name` of a new tuple, with the buffer and `store_canon` behind it. -/
def tupleName (mem : Memory UInt8) (s : SliceState) : TupleName × AllocBuffer × Bool :=
  match s.storeCanon, s.compressedAliasName with
  | true, some compressedAliasName =>
    match unpackName mem s.c.eom compressedAliasName with
    | none => (.uninitialized, s.abuf, false)
    | some (_, nbuf) =>
      match ntopName (nameArray nbuf) (maxhostnamelen + 1) with
      | none => (.uninitialized, s.abuf, false)
      | some hname =>
        let (copy, abuf) := s.abuf.copyString hname
        (match copy with
          | none => .null
          | some text => .text text, abuf, false)
  | storeCanon, _ => (.null, s.abuf, storeCanon)

/-- The address of a record that fits is stored, if the buffer has room for a tuple. -/
def storeTuple (mem : Memory UInt8) (rr : RrWire) (s : SliceState) : SliceState :=
  let (ntup, abuf) := s.abuf.alloc sizeofAddrtuple alignofAddrtuple
  let s := { s with abuf }
  if ntup ≠ 0 then
    let (name, abuf, storeCanon) := tupleName mem s
    let tuple :=
      { name, family := if rr.rdlength = 4 then afInet else afInet6,
        addr := mem.slice rr.rdata rr.rdlength,
        scopeid := 0 }
    { s with abuf, storeCanon, tuples := s.tuples ++ [tuple], haveanswer := true }
  else s

def sliceRound (mem : Memory UInt8) (qtype : Nat) (s : SliceState) : SliceResult ⊕ SliceState :=
  match nsRrCursorNext mem s.c with
  | none => .inl (sliceResult .unavail .noRecovery s)
  | some (rr, c) =>
    let s :=
      { s with
        c
        ttl := if rr.rtype = tCname ∨ rr.rtype = qtype then updateTtl s.ttl rr.ttl else s.ttl }
    if rr.rtype = tCname then
      match unpackName mem c.eom rr.rdata with
      | none => .inl (sliceResult .unavail .noRecovery s)
      | some (_, name) =>
        .inr
          { s with
            nameBuffer := name
            expectedName := .nameBuffer
            compressedAliasName :=
              if s.storeCanon ∧ resBinaryHnok (nameArray name) 0 then some rr.rdata
              else s.compressedAliasName }
    else if rr.rtype = qtype
        ∧ nsSamebinaryname (nameArray rr.rname) 0 (s.expected mem).1 (s.expected mem).2
        ∧ (rr.rdlength : Int) = rrtypeToRdataLength qtype then
      .inr (storeTuple mem rr s)
    else .inr s

/-- The loop over the `ancount` records and what follows it. -/
def sliceLoop (mem : Memory UInt8) (qtype : Nat) : Nat → SliceState → SliceResult
  | 0, s =>
    if s.haveanswer then sliceResult .success .netdbSuccess s
    else sliceResult .notfound .hostNotFound s
  | ancount + 1, s =>
    match sliceRound mem qtype s with
    | .inl result => result
    | .inr s => sliceLoop mem qtype ancount s

/-- `gaih_getanswer_slice`; its tuples are those that it links in. -/
def gaihGetanswerSlice (packet : Memory UInt8) (packetlen : Nat) (abuf : AllocBuffer)
    (ttlp : Option Int) (storeCanon : Bool)
    : SliceResult :=
  match nsRrCursorInit packet packetlen with
  | none => { status := .unavail, hErrno := .noRecovery, tuples := [], abuf, ttl := ttlp }
  | some c =>
    let s : SliceState :=
      { c
        expectedName := .question
        nameBuffer := []
        compressedAliasName := some rrCursorQname
        storeCanon
        haveanswer := false
        tuples := []
        abuf
        ttl := ttlp }
    let ancount := rrCursorAncount packet
    if ancount = 0 ∨ ¬ resBinaryHnok packet rrCursorQname then sliceResult .notfound .hostNotFound s
    else sliceLoop packet (rrCursorQtype packet c) ancount s

/-! Each tuple that `gaih_getanswer_slice` links in has a name field that was stored: the name it
unpacks again is a host name, and the text of a host name always fits the array.
-/

open Memory

variable {mem : Memory UInt8} {labels : List Label} {dstsiz n a : Nat}

/-- The characters of host names stand for themselves. -/
theorem hostChar_plain : ∀ ch < 256, hostChar ch = true → special ch = false ∧ printable ch = true := by
  decide +kernel

theorem byteText_host (bytes : List UInt8) (host : ∀ ch ∈ bytes, hostChar ch.toNat = true)
    : bytes.flatMap byteText = bytes := by
  induction bytes with
  | nil => rfl
  | cons ch bytes ih =>
    rw [forall_mem_cons] at host
    have plain := hostChar_plain _ ch.toNat_lt host.1
    rw [flatMap_cons, ih host.2, byteText, plain.1, plain.2, if_neg Bool.false_ne_true,
      if_neg (not_not_intro rfl), singleton_append]

/-- The text of a host name is as long as its wire format, but for the root. -/
theorem moreText_host (host : ∀ l ∈ labels, ∀ ch ∈ l.1, hostChar ch.toNat = true)
    : (moreText labels).length + 1 = (wire labels).length := by
  induction labels with
  | nil => rfl
  | cons l labels ih =>
    rw [forall_mem_cons] at host
    have rest := ih host.2
    rw [moreText] at rest ⊢
    rw [flatMap_cons, wire_cons, length_append, length_append, length_label_wire,
      length_cons, Label.text, byteText_host _ host.1]
    omega

private theorem ntopName_host (name : HoldsName mem 0 labels) (host : HostName labels)
    (fits : (wire labels).length ≤ maxcdname) (room : maxcdname < dstsiz)
    : ntopName mem dstsiz = some (nameText labels) := by
  have limit : maxcdname = 255 := rfl
  have length := @length_wire_ge labels
  have shorter : (nameText labels).length < dstsiz := by
    cases labels with
    | nil => exact (by omega : 1 < dstsiz)
    | cons l rest =>
      have all := host.1
      rw [forall_mem_cons] at all
      have more := moreText_host all.2
      rw [wire_cons, length_append, length_label_wire] at fits
      rw [nameText, length_append, Label.text, byteText_host _ all.1]
      omega
  rw [ntopName, nsNameNtop_fits name shorter (show labels.length < 256 by omega)]

def PointsToHostName (mem : Memory UInt8) (eom a : Nat) : Prop :=
  ∃ n labels, unpackName mem eom a = some (n, wire labels) ∧ (wire labels).length ≤ maxcdname
    ∧ HostName labels

/-- What holds between two rounds: the name that may be stored is a host name, and each tuple has a name
field.
-/
structure SliceState.Named (mem : Memory UInt8) (eom : Nat) (s : SliceState) : Prop where
  eom_eq : s.c.eom = eom
  alias_ : ∃ a, s.compressedAliasName = some a ∧ PointsToHostName mem eom a
  tuples : ∀ tuple ∈ s.tuples, tuple.name ≠ .uninitialized

theorem tupleName_stored {eom : Nat} {s : SliceState} (named : s.Named mem eom)
    : (tupleName mem s).1 ≠ .uninitialized := by
  obtain ⟨a, pointer, n, labels, unpacked, fits, host⟩ := named.alias_
  have text : ntopName (nameArray (wire labels)) (maxhostnamelen + 1) = some (nameText labels) :=
    ntopName_host (nameArray_wire labels) host fits (by decide)
  rw [tupleName, pointer, named.eom_eq]
  cases s.storeCanon with
  | false => exact fun same => by cases same
  | true =>
    simp only [unpacked, text]
    split
    · exact fun same => by cases same
    · exact fun same => by cases same

/-- A name is stored exactly if both conversions succeed wherever they are made. -/
theorem tupleName_stored_iff (mem : Memory UInt8) (s : SliceState)
    : (tupleName mem s).1 ≠ .uninitialized
      ↔ (s.storeCanon = true → ∀ a ∈ s.compressedAliasName, ∃ n nbuf hname,
          unpackName mem s.c.eom a = some (n, nbuf)
          ∧ ntopName (nameArray nbuf) (maxhostnamelen + 1) = some hname) := by
  rw [tupleName]
  cases s.storeCanon with
  | false => simp
  | true =>
    cases s.compressedAliasName with
    | none => simp
    | some a =>
      cases unpacked : unpackName mem s.c.eom a with
      | none => simp [unpacked]
      | some result =>
        obtain ⟨n, nbuf⟩ := result
        cases text : ntopName (nameArray nbuf) (maxhostnamelen + 1) with
        | none => simp [unpacked, text]
        | some hname =>
          simp only [unpacked, text]
          refine iff_of_true ?_ fun _ b same => ⟨n, nbuf, hname, ?_, text⟩
          · split <;> exact fun same => by cases same
          · rw [← Option.some.inj same, unpacked]

theorem storeTuple_named {eom : Nat} {s : SliceState} {rr : RrWire} (named : s.Named mem eom)
    : (storeTuple mem rr s).Named mem eom := by
  rw [storeTuple]
  dsimp only
  split
  · refine ⟨named.eom_eq, named.alias_, fun tuple member => ?_⟩
    rcases mem_append.mp member with old | new
    · exact named.tuples tuple old
    · rw [mem_singleton.mp new]
      exact tupleName_stored
        (s := { s with abuf := (s.abuf.alloc sizeofAddrtuple alignofAddrtuple).2 })
        ⟨named.eom_eq, named.alias_, named.tuples⟩
  · exact ⟨named.eom_eq, named.alias_, named.tuples⟩

def RoundNamed (mem : Memory UInt8) (eom : Nat) : SliceResult ⊕ SliceState → Prop
  | .inl result => ∀ tuple ∈ result.tuples, tuple.name ≠ .uninitialized
  | .inr s => s.Named mem eom

/-- One round: the target of a CNAME record is kept only if it is a host name. -/
theorem sliceRound_named {eom qtype : Nat} {s : SliceState} (named : s.Named mem eom)
    : RoundNamed mem eom (sliceRound mem qtype s) := by
  rw [sliceRound]
  split
  · exact named.tuples
  · rename_i rr c read
    have eom_eq : c.eom = eom := (nsRrCursorNext_current read).2.trans named.eom_eq
    dsimp only
    by_cases cname : rr.rtype = tCname
    · rw [if_pos cname]
      cases unpacked : unpackName mem c.eom rr.rdata with
      | none => exact named.tuples
      | some target =>
        obtain ⟨n, name⟩ := target
        refine ⟨eom_eq, ?_, named.tuples⟩
        split
        · rename_i usable
          obtain ⟨labels, rfl, fits⟩ := unpackName_wire unpacked
          rw [eom_eq] at unpacked
          exact ⟨rr.rdata, rfl, n, labels, unpacked, fits,
            (resBinaryHnok_iff (nameArray_wire labels) fits).mp usable.2⟩
        · exact named.alias_
    · have either {t : SliceState} (named : t.Named mem eom) (address : Prop) [Decidable address]
          : RoundNamed mem eom (if address then .inr (storeTuple mem rr t) else .inr t) := by
        split
        · exact storeTuple_named named
        · exact named
      rw [if_neg cname]
      refine either ?_ _
      exact ⟨eom_eq, named.alias_, named.tuples⟩

private theorem sliceLoop_named {eom qtype ancount : Nat} {s : SliceState} (named : s.Named mem eom)
    : ∀ tuple ∈ (sliceLoop mem qtype ancount s).tuples, tuple.name ≠ .uninitialized := by
  induction ancount generalizing s with
  | zero =>
    rw [sliceLoop]
    split
    · exact named.tuples
    · exact named.tuples
  | succ ancount ih =>
    have round := @sliceRound_named mem eom qtype s named
    rw [sliceLoop]
    split
    · rename_i result done
      rw [done] at round
      exact round
    · rename_i next more
      rw [more] at round
      exact ih round

/-- No tuple is linked in with a name field that was not stored, whatever the packet and the buffer: where
`store_canon` is set, unpacking the name and converting it to text succeed.
-/
theorem gaihGetanswerSlice_named (packet : Memory UInt8) (packetlen : Nat) (abuf : AllocBuffer)
    (ttlp : Option Int) (storeCanon : Bool)
    : (∀ tuple ∈ (gaihGetanswerSlice packet packetlen abuf ttlp storeCanon).tuples,
        tuple.name ≠ .uninitialized)
      ∧ ∀ s, (tupleName packet s).1 ≠ .uninitialized
        ↔ (s.storeCanon = true → ∀ a ∈ s.compressedAliasName, ∃ n nbuf hname,
          unpackName packet s.c.eom a = some (n, nbuf)
          ∧ ntopName (nameArray nbuf) (maxhostnamelen + 1) = some hname) := by
  refine ⟨?_, tupleName_stored_iff packet⟩
  rw [gaihGetanswerSlice]
  split
  · exact fun tuple member => absurd member not_mem_nil
  · rename_i c start
    obtain ⟨eom_eq, labels, name, fits, first, current, inside⟩ := nsRrCursorInit_name start
    dsimp only
    split
    · exact fun tuple member => absurd member not_mem_nil
    · rename_i proceed
      have host : resBinaryHnok packet rrCursorQname = true := by
        simpa using (not_or.mp proceed).2
      refine @sliceLoop_named _ packetlen _ _ _ ⟨eom_eq, ⟨rrCursorQname, rfl, ?_⟩,
        fun tuple member => absurd member not_mem_nil⟩
      exact ⟨_, labels, unpackName_holdsName name fits (by omega), fits,
        (resBinaryHnok_iff name fits).mp host⟩

/-- A response to an A query for `a.`. -/
def addressOfA : List UInt8 := [0, 0, 132, 0, 0, 1, 0, 1, 0, 0, 0, 0] ++ [1, 97, 0, 0, 1, 0, 1]
    ++ [192, 12, 0, 1, 0, 1, 0, 0, 0, 9, 0, 4, 192, 0, 2, 1]

theorem gaihGetanswerSlice_named_address
    : ∃ tuple ∈ (gaihGetanswerSlice (nameArray addressOfA) addressOfA.length
        { current := 4096, stop := 8192 } none true).tuples, tuple.name ≠ .uninitialized := by
  have one : (gaihGetanswerSlice (nameArray addressOfA) addressOfA.length
      { current := 4096, stop := 8192 } none true).tuples.length = 1 := by
    decide +kernel
  obtain ⟨tuple, member⟩ := exists_mem_of_length_pos (Nat.lt_of_lt_of_eq Nat.one_pos one.symm)
  exact ⟨tuple, member, (gaihGetanswerSlice_named _ _ _ _ _).1 tuple member⟩

end Nglibc.Resolv
