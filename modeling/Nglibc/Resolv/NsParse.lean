import Nglibc.Resolv.NsNameText

/-! Reading the records of a DNS message: `resolv/ns_parse.c`, with `resolv/ns_name_skip.c`,
`resolv/dn_skipname.c`, `resolv/ns_name_uncompress.c` and `resolv/dn_expand.c`.

The bytes of the message are those of a memory, with the message at the address 0; pointers are
addresses, and `eom` is the length of the message. The model keeps of `rr` what a successful call
reports.
-/

namespace Nglibc.Resolv

/-- The errors of `ns_parserr`: those of the functions it calls, and `ENODEV`. -/
inductive RrErrno where
  | resolv (e : Errno)
  | enodev
deriving DecidableEq

/-- `NS_GET16`. -/
def get16 (mem : Memory UInt8) (cp : Nat) : Nat := ((mem cp).toNat <<< 8) ||| (mem (cp + 1)).toNat

/-- `NS_GET32`. -/
def get32 (mem : Memory UInt8) (cp : Nat) : Nat :=
  ((mem cp).toNat <<< 24) ||| ((mem (cp + 1)).toNat <<< 16) ||| ((mem (cp + 2)).toNat <<< 8)
    ||| (mem (cp + 3)).toNat

/-- The loop of `___ns_name_skip`. Each round moves `cp` on, so that `eom - cp` rounds suffice. -/
def nameSkipLoop (mem : Memory UInt8) (eom : Nat) : Nat → Nat → Except Errno Nat
  | 0, _ => .error .emsgsize
  | rounds + 1, cp =>
    if cp < eom then
      let n := (mem cp).toNat
      let cp := cp + 1
      if n = 0 then .ok cp
      else if n &&& nsCmprsflgs = 0 then
        if (eom : Int) - cp < n then .error .emsgsize else nameSkipLoop mem eom rounds (cp + n)
      else if n &&& nsCmprsflgs = nsCmprsflgs then
        if cp = eom then .error .emsgsize else .ok (cp + 1)
      else .error .emsgsize
    else .error .emsgsize

/-- `___ns_name_skip`: the address behind the name. -/
def nsNameSkip (mem : Memory UInt8) (eom ptr : Nat) : Except Errno Nat :=
  nameSkipLoop mem eom (eom - ptr) ptr

def dnSkipname (mem : Memory UInt8) (eom ptr : Nat) : Except Errno Nat := do
  let after ← nsNameSkip mem eom ptr
  .ok (after - ptr)

/-- `___ns_name_uncompress`; `tmp` is what its local array holds before. -/
def nsNameUncompress (fuel : Nat) (mem : Memory UInt8) (eom src : Nat) (tmp : Memory UInt8)
    (dstsiz : Nat)
    : Option (Except Errno (Nat × List UInt8)) :=
  match nsNameUnpack fuel mem 0 eom src maxcdname with
  | none => none
  | some (.error e) => some (.error e)
  | some (.ok (n, name)) =>
    match nsNameNtop fuel (tmp.store 0 name) dstsiz with
    | none => none
    | some (.error e) => some (.error e)
    | some (.ok (_, text)) => some (.ok (n.toNat, text))

/-- `___dn_expand` into an array of `NS_MAXDNAME` bytes. The name has at most 255 bytes, and the
pointers in it cover at most the message, which bounds the rounds.
-/
def dnExpand (mem : Memory UInt8) (eom src : Nat) (tmp : Memory UInt8)
    : Option (Except Errno (Nat × List UInt8)) :=
  match nsNameUncompress (eom + 256) mem eom src tmp nsMaxdname with
  | none => none
  | some (.error e) => some (.error e)
  | some (.ok (n, text)) =>
    some (.ok (n, if n > 0 ∧ text.head? = some (UInt8.ofNat '.'.toNat) then [] else text))

def nsSQd : Nat := 0

def nsSMax : Nat := 4

/-- The loop of `ns_skiprr`. -/
def skiprrLoop (mem : Memory UInt8) (eom sect : Nat) : Nat → Nat → Except Errno Nat
  | 0, ptr => .ok ptr
  | count + 1, ptr =>
    match dnSkipname mem eom ptr with
    | .error _ => .error .emsgsize
    | .ok b =>
      let ptr := ptr + (b + 2 + 2)
      if sect ≠ nsSQd then
        if ptr + 4 + 2 > eom then .error .emsgsize
        else skiprrLoop mem eom sect count (ptr + 4 + 2 + get16 mem (ptr + 4))
      else skiprrLoop mem eom sect count ptr

def nsSkiprr (mem : Memory UInt8) (eom ptr sect count : Nat) : Except Errno Nat := do
  let after ← skiprrLoop mem eom sect count ptr
  if after > eom then .error .emsgsize else .ok (after - ptr)

/-- `ns_msg`; a null pointer is `none`. -/
structure NsMsg where
  eom : Nat
  id : Nat
  flags : Nat
  counts : List Nat
  sections : List (Option Nat)
  sect : Nat
  rrnum : Int
  msgPtr : Option Nat
deriving DecidableEq

namespace NsMsg

/-- `_counts[sect]`. -/
def count (handle : NsMsg) (sect : Nat) : Nat := handle.counts.getD sect 0

/-- `_sections[sect]`. -/
def start (handle : NsMsg) (sect : Nat) : Option Nat := handle.sections.getD sect none

end NsMsg

def setsection (msg : NsMsg) (sect : Nat) : NsMsg :=
  if sect = nsSMax then { msg with sect, rrnum := -1, msgPtr := none }
  else { msg with sect, rrnum := 0, msgPtr := msg.start sect }

/-- The loop that reads the counts of `n` sections. -/
def readCounts (mem : Memory UInt8) (eom : Nat) : Nat → Nat → Except Errno (List Nat × Nat)
  | 0, msg => .ok ([], msg)
  | n + 1, msg =>
    if msg + 2 > eom then .error .emsgsize
    else do
      let (counts, after) ← readCounts mem eom n (msg + 2)
      .ok (get16 mem msg :: counts, after)

/-- The loop that finds the sections from the section `i` on. -/
def findSections (mem : Memory UInt8) (eom : Nat)
    : Nat → List Nat → Nat → Except Errno (List (Option Nat) × Nat)
  | _, [], msg => .ok ([], msg)
  | i, count :: counts, msg =>
    if count = 0 then do
      let (sections, after) ← findSections mem eom (i + 1) counts msg
      .ok (none :: sections, after)
    else do
      let b ← nsSkiprr mem eom msg i count
      let (sections, after) ← findSections mem eom (i + 1) counts (msg + b)
      .ok (some msg :: sections, after)

/-- `ns_initparse` of a message of `eom` bytes. -/
def nsInitparse (mem : Memory UInt8) (eom : Nat) : Except Errno NsMsg := do
  if 0 + 2 > eom then .error .emsgsize
  if 2 + 2 > eom then .error .emsgsize
  let (counts, msg) ← readCounts mem eom nsSMax 4
  let (sections, msg) ← findSections mem eom 0 counts msg
  if msg ≠ eom then .error .emsgsize
  .ok (setsection
    { eom, id := get16 mem 0, flags := get16 mem 2, counts,
      sections,
      sect := 0,
      rrnum := 0,
      msgPtr := none } nsSMax)

/-- `ns_rr`; the name is a string. -/
structure NsRr where
  name : List UInt8
  type : Nat
  rrClass : Nat
  ttl : Nat
  rdlength : Nat
  rdata : Option Nat
deriving DecidableEq

/-- What a call returns and the handle it leaves. -/
abbrev ParseResult := Except RrErrno NsRr × NsMsg

/-- The end of a successful `ns_parserr`. -/
def finishRr (handle : NsMsg) (sect : Nat) (rr : NsRr) : ParseResult :=
  let handle := { handle with rrnum := handle.rrnum + 1 }
  (.ok rr, if handle.rrnum > handle.count sect then setsection handle (sect + 1) else handle)

/-- `ns_parserr` from the comment "Do the parse" on, with `_msg_ptr` at `ptr`. -/
def readRr (mem tmp : Memory UInt8) (handle : NsMsg) (sect ptr : Nat) : Option ParseResult :=
  match dnExpand mem handle.eom ptr tmp with
  | none => none
  | some (.error e) => some (.error (.resolv e), handle)
  | some (.ok (b, name)) =>
    let ptr := ptr + b
    if ptr + 2 + 2 > handle.eom then
      some (.error (.resolv .emsgsize), { handle with msgPtr := some ptr })
    else
      let type := get16 mem ptr
      let rrClass := get16 mem (ptr + 2)
      let ptr := ptr + 2 + 2
      if sect = nsSQd then
        some (finishRr { handle with msgPtr := some ptr } sect
          { name, type, rrClass, ttl := 0, rdlength := 0, rdata := none })
      else if ptr + 4 + 2 > handle.eom then
        some (.error (.resolv .emsgsize), { handle with msgPtr := some ptr })
      else
        let ttl := get32 mem ptr
        let rdlength := get16 mem (ptr + 4)
        let ptr := ptr + 4 + 2
        if ptr + rdlength > handle.eom then
          some (.error (.resolv .emsgsize), { handle with msgPtr := some ptr })
        else
          some (finishRr { handle with msgPtr := some (ptr + rdlength) } sect
            { name, type, rrClass, ttl, rdlength, rdata := some ptr })

/-- `ns_parserr`; `none` says that a null pointer was used. -/
def nsParserr (mem tmp : Memory UInt8) (handle : NsMsg) (section' rrnum : Int)
    : Option ParseResult :=
  if section' < 0 ∨ section' ≥ nsSMax then some (.error .enodev, handle)
  else
    let sect := section'.toNat
    let handle := if sect ≠ handle.sect then setsection handle sect else handle
    let rrnum := if rrnum = -1 then handle.rrnum else rrnum
    if rrnum < 0 ∨ rrnum ≥ handle.count sect then some (.error .enodev, handle)
    else
      let handle := if rrnum < handle.rrnum then setsection handle sect else handle
      match handle.msgPtr with
      | none => none
      | some ptr =>
        if rrnum > handle.rrnum then
          match nsSkiprr mem handle.eom ptr sect (rrnum - handle.rrnum).toNat with
          | .error e => some (.error (.resolv e), handle)
          | .ok b => readRr mem tmp { handle with msgPtr := some (ptr + b), rrnum } sect (ptr + b)
        else readRr mem tmp handle sect ptr

/-! The two readers of a name agree: where `dn_expand` succeeds, `dn_skipname` passes the same
bytes. The expansion always ends, and the array it uses in between does not matter.
-/

open Memory

variable {mem : Memory UInt8} {eom src dstsiz fuel : Nat} {u : Unpacking} {n : Int}
  {out : List UInt8}

/-- The label at `srcp`. -/
def Unpacking.label (mem : Memory UInt8) (u : Unpacking) : Unpacking :=
  { u with
    srcp := u.srcp + 1 + (mem u.srcp).toNat
    out := u.out ++ mem u.srcp :: mem.slice (u.srcp + 1) (mem u.srcp).toNat
    checked := u.checked + ((mem u.srcp).toNat + 1) }

/-- The pointer at `srcp`. -/
def Unpacking.pointer (mem : Memory UInt8) (src : Nat) (u : Unpacking) : Unpacking :=
  { u with
    srcp := 0 + indirection mem (mem u.srcp).toNat (u.srcp + 1)
    len := if u.len < 0 then ((u.srcp + 1 : Nat) : Int) - src + 1 else u.len
    checked := u.checked + 2 }

inductive UnpackRound (mem : Memory UInt8) (eom src dstsiz fuel : Nat) (u : Unpacking)
    : Option (Except Errno (Int × List UInt8)) → Prop where
  | root
    : (mem u.srcp).toNat = 0 → UnpackRound mem eom src dstsiz fuel u
          (some (.ok (if u.len < 0 then ((u.srcp + 1 : Nat) : Int) - src else u.len, u.out ++ [0])))
  | failed : UnpackRound mem eom src dstsiz fuel u (some (.error .emsgsize))
  | label
    : (mem u.srcp).toNat ≠ 0 → (mem u.srcp).toNat &&& nsCmprsflgs = 0 → (mem u.srcp).toNat < 64
      → u.out.length + (mem u.srcp).toNat + 1 < dstsiz
      → u.srcp + 1 + (mem u.srcp).toNat < eom
      → UnpackRound mem eom src dstsiz fuel u (unpackLoop mem 0 eom src dstsiz fuel (u.label mem))
  | pointer
    : (mem u.srcp).toNat ≠ 0 → (mem u.srcp).toNat &&& nsCmprsflgs ≠ 0
      → (mem u.srcp).toNat &&& nsCmprsflgs = nsCmprsflgs
      → u.srcp + 1 < eom
      → indirection mem (mem u.srcp).toNat (u.srcp + 1) < eom
      → u.checked + 2 < eom
      → UnpackRound mem eom src dstsiz fuel u
          (unpackLoop mem 0 eom src dstsiz fuel (u.pointer mem src))

theorem unpackLoop_round (mem : Memory UInt8) (eom src dstsiz fuel : Nat) (u : Unpacking)
    : UnpackRound mem eom src dstsiz fuel u (unpackLoop mem 0 eom src dstsiz (fuel + 1) u) := by
  rw [unpackLoop]
  dsimp only
  split
  · rename_i zero
    exact .root zero
  · rename_i nonzero
    split
    · rename_i flags
      split
      · exact .failed
      · rename_i short
        split
        · exact .failed
        · rename_i room
          exact .label nonzero flags (by omega) (by omega) (by omega)
    · rename_i noLabel
      split
      · rename_i flags
        split
        · exact .failed
        · rename_i second
          split
          · exact .failed
          · rename_i target
            split
            · exact .failed
            · rename_i looks
              exact .pointer nonzero noLabel flags (by omega) (by omega) (by omega)
      · exact .failed

theorem unpackLoop_ne_none (space : u.out.length ≤ dstsiz)
    (enough : (dstsiz - u.out.length) + (eom - u.checked) < fuel)
    : unpackLoop mem 0 eom src dstsiz fuel u ≠ none := by
  induction fuel generalizing u with
  | zero => omega
  | succ fuel ih =>
    have round := unpackLoop_round mem eom src dstsiz fuel u
    generalize unpackLoop mem 0 eom src dstsiz (fuel + 1) u = result at round ⊢
    cases round with
    | root => simp
    | failed => simp
    | label nonzero flags short fits inside =>
      have length : (u.label mem).out.length = u.out.length + ((mem u.srcp).toNat + 1) := by
        simp [Unpacking.label]
      have checked : (u.label mem).checked = u.checked + ((mem u.srcp).toNat + 1) := rfl
      exact ih (by omega) (by omega)
    | pointer nonzero noLabel flags second target looks =>
      have same : (u.pointer mem src).out = u.out := rfl
      have checked : (u.pointer mem src).checked = u.checked + 2 := rfl
      exact ih (by rw [same]; exact space) (by rw [same]; omega)

/-- The bytes of the result are a name in wire format. -/
theorem unpackLoop_wire (space : u.out.length < dstsiz)
    (done : unpackLoop mem 0 eom src dstsiz fuel u = some (.ok (n, out)))
    : ∃ labels, out = u.out ++ wire labels ∧ out.length ≤ dstsiz := by
  induction fuel generalizing u with
  | zero => cases done
  | succ fuel ih =>
    have round := unpackLoop_round mem eom src dstsiz fuel u
    rw [done] at round
    generalize result : some (Except.ok (n, out)) = r at round
    cases round with
    | root zero =>
      cases result
      exact ⟨[], by rw [wire_nil], by rw [List.length_append, List.length_singleton]; omega⟩
    | failed => cases result
    | label nonzero flags short fits inside =>
      have length : (u.label mem).out.length = u.out.length + ((mem u.srcp).toNat + 1) := by
        simp [Unpacking.label]
      obtain ⟨labels, bytes, size⟩ := ih (by omega) result.symm
      let l : Label := ⟨mem.slice (u.srcp + 1) (mem u.srcp).toNat,
        by rw [length_slice]; omega, by rw [length_slice]; exact short⟩
      have first : l.wire = mem u.srcp :: mem.slice (u.srcp + 1) (mem u.srcp).toNat := by
        simp [Label.wire, l]
      refine ⟨l :: labels, ?_, size⟩
      rw [bytes, wire_cons, first, ← List.append_assoc]
      rfl
    | pointer =>
      have same : (u.pointer mem src).out = u.out := rfl
      rw [← same] at space ⊢
      exact ih space result.symm

/-- The length is fixed once a pointer was followed. -/
theorem unpackLoop_len (followed : 0 ≤ u.len)
    (done : unpackLoop mem 0 eom src dstsiz fuel u = some (.ok (n, out)))
    : n = u.len := by
  induction fuel generalizing u with
  | zero => cases done
  | succ fuel ih =>
    have round := unpackLoop_round mem eom src dstsiz fuel u
    rw [done] at round
    generalize result : some (Except.ok (n, out)) = r at round
    cases round with
    | root zero =>
      cases result
      rw [if_neg (by omega)]
    | failed => cases result
    | label =>
      have len : (u.label mem).len = u.len := rfl
      rw [← len] at followed ⊢
      exact ih followed result.symm
    | pointer =>
      have len : (u.pointer mem src).len = u.len := if_neg (by omega)
      rw [← len]
      exact ih (by rw [len]; exact followed) result.symm

/-- `ns_name_skip` passes what `ns_name_unpack` reads. Both read the same bytes up to the root or
the first pointer.
-/
theorem nameSkipLoop_of_unpackLoop {rounds : Nat} (first : u.len < 0) (from_ : src ≤ u.srcp)
    (inside : u.srcp < eom) (enough : eom - u.srcp ≤ rounds)
    (done : unpackLoop mem 0 eom src dstsiz fuel u = some (.ok (n, out)))
    : nameSkipLoop mem eom rounds u.srcp = .ok (src + n.toNat) := by
  induction fuel generalizing u rounds with
  | zero => cases done
  | succ fuel ih =>
    obtain _ | rounds := rounds
    · omega
    have round := unpackLoop_round mem eom src dstsiz fuel u
    rw [done] at round
    generalize result : some (Except.ok (n, out)) = r at round
    rw [nameSkipLoop, if_pos inside]
    cases round with
    | root zero =>
      cases result
      rw [if_pos zero]
      apply congrArg Except.ok
      omega
    | failed => cases result
    | label nonzero flags short fits room =>
      rw [if_neg nonzero, if_pos flags, if_neg (by omega)]
      have place : (u.label mem).srcp = u.srcp + 1 + (mem u.srcp).toNat := rfl
      rw [← place]
      exact ih first (by rw [place]; omega) (by rw [place]; exact room)
        (by rw [place]; omega) result.symm
    | pointer nonzero noLabel flags second =>
      have len : (u.pointer mem src).len = ((u.srcp + 1 : Nat) : Int) - src + 1 := if_pos first
      have fixed := unpackLoop_len (by rw [len]; omega) result.symm
      rw [if_neg nonzero, if_neg noLabel, if_pos flags, if_neg (by omega), fixed]
      apply congrArg Except.ok
      omega

/-- The expansion of a name, whatever the local array held. -/
def expandedName (mem : Memory UInt8) (eom src : Nat) : Except Errno (Nat × List UInt8) :=
  (dnExpand mem eom src mem).getD (.error .emsgsize)

theorem nsNameUnpack_ne_none (mem : Memory UInt8) (eom src : Nat)
    : nsNameUnpack (eom + 256) mem 0 eom src maxcdname ≠ none := by
  rw [nsNameUnpack]
  split
  · simp
  · apply unpackLoop_ne_none (Nat.zero_le _)
    have limit : maxcdname = 255 := rfl
    omega

section

variable (done : nsNameUnpack fuel mem 0 eom src maxcdname = some (.ok (n, out)))
include done

theorem nsNameUnpack_wire
    : ∃ labels, out = wire labels ∧ (wire labels).length ≤ maxcdname := by
  rw [nsNameUnpack] at done
  split at done
  · cases done
  · obtain ⟨labels, bytes, size⟩ := unpackLoop_wire (show 0 < 255 by decide) done
    rw [List.nil_append] at bytes
    exact ⟨labels, bytes, bytes ▸ size⟩

theorem dnSkipname_of_nsNameUnpack
    : dnSkipname mem eom src = .ok n.toNat := by
  rw [nsNameUnpack] at done
  split at done
  · cases done
  · rename_i inside
    have skipped := nameSkipLoop_of_unpackLoop (u := ⟨src, [], -1, 0⟩) (by simp) le_rfl
      (show src < eom by omega) (le_refl (eom - src)) done
    rw [dnSkipname, nsNameSkip, skipped]
    exact congrArg Except.ok (Nat.add_sub_cancel_left src n.toNat)

end

/-- What `dn_expand` does with the result of `ns_name_unpack`, whatever its array holds. -/
theorem dnExpand_of_nsNameUnpack (mem : Memory UInt8) (eom src : Nat)
    : (∃ e, ∀ tmp, dnExpand mem eom src tmp = some (.error e))
      ∨ ∃ b name, dnSkipname mem eom src = .ok b
        ∧ ∀ tmp, dnExpand mem eom src tmp = some (.ok (b, name)) := by
  cases unpacked : nsNameUnpack (eom + 256) mem 0 eom src maxcdname with
  | none => exact absurd unpacked (nsNameUnpack_ne_none mem eom src)
  | some result =>
    cases result with
    | error e =>
      refine .inl ⟨e, fun tmp => ?_⟩
      simp only [dnExpand, nsNameUncompress, unpacked]
    | ok read =>
      obtain ⟨n, out⟩ := read
      obtain ⟨labels, rfl, short⟩ := nsNameUnpack_wire unpacked
      refine .inr ⟨n.toNat,
        if n.toNat > 0 ∧ (nameText labels).head? = some (UInt8.ofNat '.'.toNat) then []
        else nameText labels,
        dnSkipname_of_nsNameUnpack unpacked, fun tmp => ?_⟩
      have text : nsNameNtop (eom + 256) (tmp.store 0 (wire labels)) nsMaxdname
          = some (.ok ((nameText labels).length + 1, nameText labels)) :=
        nsNameNtop_text (holdsName_iff.mpr slice_store_self) short (by omega)
      simp only [dnExpand, nsNameUncompress, unpacked, text]

theorem dnExpand_eq (mem : Memory UInt8) (eom src : Nat) (tmp : Memory UInt8)
    : dnExpand mem eom src tmp = some (expandedName mem eom src) := by
  rcases dnExpand_of_nsNameUnpack mem eom src with ⟨e, all⟩ | ⟨b, name, -, all⟩
  · rw [expandedName, all, all]
    rfl
  · rw [expandedName, all, all]
    rfl

theorem dnSkipname_of_expandedName {b : Nat} {name : List UInt8}
    (expanded : expandedName mem eom src = .ok (b, name))
    : dnSkipname mem eom src = .ok b := by
  rw [expandedName] at expanded
  rcases dnExpand_of_nsNameUnpack mem eom src with ⟨e, all⟩ | ⟨b', name', skipped, all⟩
  · rw [all] at expanded
    cases expanded
  · rw [all] at expanded
    cases expanded
    exact skipped

end Nglibc.Resolv
