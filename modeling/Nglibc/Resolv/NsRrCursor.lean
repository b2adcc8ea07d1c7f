import Nglibc.Resolv.NsSamedomain
import Nglibc.Resolv.NsParse

/-! Reading the records of a response: `resolv/ns_rr_cursor_init.c`, `resolv/ns_rr_cursor_next.c` and
`resolv/ns_name_length_uncompressed.c`, with the checks of binary names in `resolv/res-name-checking.c`
and `resolv/ns_samebinaryname.c`.

The packet lies at the address 0 and ends at `eom`. A name in memory is given by the memory and its
address.
-/

namespace Nglibc.Resolv

open Memory

/-- The loop of `__ns_name_length_uncompressed`. Each round moves `p` on, up to `eom` at most. -/
def nameLengthLoop (mem : Memory UInt8) (eom start : Nat) : Nat → Nat → Option Nat
  | 0, _ => none
  | rounds + 1, p =>
    if p = eom then none
    else
      let b := (mem p).toNat
      let p := p + 1
      if b = 0 then if p - start > maxcdname then none else some (p - start)
      else if b ≤ 63 then
        if b ≤ eom - p then nameLengthLoop mem eom start rounds (p + b) else none
      else none

/-- `__ns_name_length_uncompressed`; `none` is the result -1. -/
def nsNameLengthUncompressed (mem : Memory UInt8) (eom p : Nat) : Option Nat :=
  nameLengthLoop mem eom p (eom - p + 1) p

/-- `struct ns_rr_cursor`. -/
structure RrCursor where
  eom : Nat
  firstRr : Nat
  current : Nat

/-- `ns_rr_cursor_ancount`. -/
def rrCursorAncount (mem : Memory UInt8) : Nat := (mem 6).toNat * 256 + (mem 7).toNat

/-- `ns_rr_cursor_qname`. -/
def rrCursorQname : Nat := 12

/-- `ns_rr_cursor_qtype`. -/
def rrCursorQtype (mem : Memory UInt8) (c : RrCursor) : Nat :=
  (mem (c.firstRr - 4)).toNat * 256 + (mem (c.firstRr - 3)).toNat

/-- `__ns_rr_cursor_init`; `none` is the result `false`. -/
def nsRrCursorInit (mem : Memory UInt8) (len : Nat) : Option RrCursor :=
  if len < 12 ∨ mem 4 ≠ 0 ∨ mem 5 ≠ 1 then none
  else
    match nsNameLengthUncompressed mem len 12 with
    | none => none
    | some consumed =>
      let current := 12 + consumed
      if len - current < 4 then none
      else some { eom := len, firstRr := current + 4, current := current + 4 }

/-- `__ns_name_unpack` into an array of `NS_MAXCDNAME` bytes; `none` is the result -1. -/
def unpackName (mem : Memory UInt8) (eom src : Nat) : Option (Nat × List UInt8) :=
  match nsNameUnpack (eom + 256) mem 0 eom src maxcdname with
  | some (.ok (n, name)) => some (n.toNat, name)
  | _ => none

/-- `struct ns_rr_wire`. -/
structure RrWire where
  rname : List UInt8
  rtype : Nat
  rclass : Nat
  ttl : Nat
  rdlength : Nat
  rdata : Nat

/-- `__ns_rr_cursor_next`; `none` is the result `false`. -/
def nsRrCursorNext (mem : Memory UInt8) (c : RrCursor) : Option (RrWire × RrCursor) :=
  match unpackName mem c.eom c.current with
  | none => none
  | some (consumed, rname) =>
    let current := c.current + consumed
    if c.eom - current < 10 then none
    else
      let rtype := get16 mem current
      let rclass := get16 mem (current + 2)
      let ttl := get32 mem (current + 4)
      let rdlength := get16 mem (current + 8)
      let current := current + 10
      if c.eom - current < rdlength then none
      else
        some ({ rname, rtype, rclass, ttl, rdlength, rdata := current },
          { c with current := current + rdlength })

def hostChar (ch : Nat) : Bool :=
  ('0'.toNat ≤ ch && ch ≤ '9'.toNat) || ('A'.toNat ≤ ch && ch ≤ 'Z'.toNat)
    || ('a'.toNat ≤ ch && ch ≤ 'z'.toNat) || ch = '-'.toNat || ch = '_'.toNat

/-- The inner loop of `binary_hnok`. -/
def hostLabel (mem : Memory UInt8) : Nat → Nat → Bool
  | 0, _ => true
  | n + 1, dn => if ¬ hostChar (mem dn).toNat then false else hostLabel mem n (dn + 1)

/-- `binary_hnok`; a name of at most 255 bytes has fewer labels than the rounds it is given. -/
def binaryHnok (mem : Memory UInt8) : Nat → Nat → Bool
  | 0, _ => false
  | rounds + 1, dn =>
    let labelLength := (mem dn).toNat
    if labelLength = 0 then true
    else if hostLabel mem labelLength (dn + 1) then
      binaryHnok mem rounds (dn + 1 + labelLength)
    else false

def binaryLeadingDash (mem : Memory UInt8) (dn : Nat) : Bool :=
  (mem dn).toNat > 0 && (mem (dn + 1)).toNat = '-'.toNat

def resBinaryHnok (mem : Memory UInt8) (dn : Nat) : Bool :=
  !binaryLeadingDash mem dn && binaryHnok mem 256 dn

def asciiToupper (ch : Nat) : Nat :=
  if ch ≥ 'a'.toNat ∧ ch ≤ 'z'.toNat then ch - 'a'.toNat + 'A'.toNat else ch

/-- The inner loop of `__ns_samebinaryname`. -/
def sameLabel (mem mem' : Memory UInt8) : Nat → Nat → Nat → Bool
  | 0, _, _ => true
  | n + 1, a, b =>
    if mem a ≠ mem' b ∧ asciiToupper (mem a).toNat ≠ asciiToupper (mem' b).toNat then false
    else sameLabel mem mem' n (a + 1) (b + 1)

/-- The loop of `__ns_samebinaryname`; its rounds are those of `binaryHnok`. -/
def samebinarynameLoop (mem mem' : Memory UInt8) : Nat → Nat → Nat → Bool
  | 0, _, _ => false
  | rounds + 1, a, b =>
    if mem a ≠ 0 ∧ mem' b ≠ 0 then
      if mem a ≠ mem' b then false
      else
        let labellen := (mem a).toNat
        if sameLabel mem mem' labellen (a + 1) (b + 1) then
          samebinarynameLoop mem mem' rounds (a + 1 + labellen) (b + 1 + labellen)
        else false
    else mem a = 0 && mem' b = 0

def nsSamebinaryname (mem : Memory UInt8) (a : Nat) (mem' : Memory UInt8) (b : Nat) : Bool :=
  samebinarynameLoop mem mem' 256 a b

def nameArray (name : List UInt8) : Memory UInt8 := fun i => name.getD i 0

variable {mem mem' : Memory UInt8} {eom src a b n : Nat} {name : List UInt8} {labels la lb : List Label}
  {c next : RrCursor} {rr : RrWire}

theorem nameArray_slice (name : List UInt8) : (nameArray name).slice 0 name.length = name := by
  apply List.ext_getElem length_slice
  intro i inside inside'
  rw [getElem_slice, nameArray, Nat.zero_add, List.getD_eq_getElem _ _ inside']

theorem nameArray_wire (labels : List Label) : HoldsName (nameArray (wire labels)) 0 labels :=
  holdsName_iff.mpr (nameArray_slice _)

theorem unpackName_wire (unpacked : unpackName mem eom src = some (n, name))
    : ∃ labels, name = wire labels ∧ (wire labels).length ≤ maxcdname := by
  rw [unpackName] at unpacked
  split at unpacked
  · rename_i done
    cases unpacked
    exact nsNameUnpack_wire done
  · cases unpacked

/-- The loop over the question name finds a whole name. -/
theorem nameLengthLoop_name {start rounds p : Nat} (from_ : start ≤ p) (inside : p ≤ eom)
    (found : nameLengthLoop mem eom start rounds p = some n)
    : ∃ labels, HoldsName mem p labels ∧ start + n = p + (wire labels).length ∧ n ≤ maxcdname
      ∧ start + n ≤ eom := by
  induction rounds generalizing p with
  | zero => cases found
  | succ rounds ih =>
    rw [nameLengthLoop] at found
    dsimp only at found
    split at found
    · cases found
    rename_i more
    split at found
    · rename_i zero
      split at found
      · cases found
      · rename_i short
        cases found
        refine ⟨[], toNat_eq_zero.mp zero, ?_, by omega, by omega⟩
        rw [wire_nil, List.length_singleton]
        omega
    · rename_i nonzero
      split at found
      · rename_i small
        split at found
        · obtain ⟨labels, name, length, fits, within⟩ := ih (by omega) (by omega) found
          have size : (mem.slice (p + 1) (mem p).toNat).length = (mem p).toNat := length_slice
          let l : Label := ⟨mem.slice (p + 1) (mem p).toNat, by omega⟩
          refine ⟨l :: labels, ⟨size.symm, by rw [size], ?_⟩, ?_, fits, within⟩
          · rw [show l.1.length = (mem p).toNat from size]
            exact name
          · rw [wire_cons, List.length_append, length_label_wire,
              show l.1.length = (mem p).toNat from size]
            omega
        · cases found
      · cases found

/-- The question of a packet that is accepted begins with a valid name. -/
theorem nsRrCursorInit_name {len : Nat} (start : nsRrCursorInit mem len = some c)
    : c.eom = len ∧ ∃ labels, HoldsName mem rrCursorQname labels ∧ (wire labels).length ≤ maxcdname
      ∧ c.firstRr = rrCursorQname + (wire labels).length + 4 ∧ c.current = c.firstRr
      ∧ c.current ≤ len := by
  rw [nsRrCursorInit] at start
  split at start
  · cases start
  · rename_i header
    split at start
    · cases start
    · rename_i consumed found
      dsimp only at start
      split at start
      · cases start
      · cases start
        obtain ⟨labels, name, length, fits, within⟩ := nameLengthLoop_name le_rfl (by omega) found
        have place : rrCursorQname = 12 := rfl
        exact ⟨rfl, labels, name, by omega, by dsimp only; omega, rfl, by dsimp only; omega⟩

theorem HoldsName.stored {s p : Nat} (name : HoldsName mem p labels) (from_ : s ≤ p)
    : Stored mem 0 s p labels (p + (wire labels).length) := by
  induction labels generalizing p with
  | nil => exact .root from_ name
  | cons l rest ih =>
    have tail := ih name.2.2 (by omega)
    have place : p + (wire (l :: rest)).length = p + 1 + l.1.length + (wire rest).length := by
      rw [wire_cons, List.length_append, length_label_wire]
      omega
    rw [place]
    exact .label from_ name.1 name.2.1 tail

theorem unpackName_holdsName {p : Nat} (name : HoldsName mem p labels)
    (fits : (wire labels).length ≤ maxcdname) (inside : p + (wire labels).length ≤ eom)
    : unpackName mem eom p = some ((wire labels).length, wire labels) := by
  have length := @length_wire_ge labels
  have done := nsNameUnpack_stored (name.stored le_rfl) (Nat.zero_le p) inside fits
    (show 2 * labels.length + 1 < eom + 256 by omega)
  have count : (((p + (wire labels).length : Nat) : Int) - p).toNat = (wire labels).length := by omega
  rw [unpackName, done]
  simp only [count]

section

variable (read : nsRrCursorNext mem c = some (rr, next))
include read

/-- Each record takes at least the ten bytes behind its name. -/
theorem nsRrCursorNext_current
    : c.current < next.current ∧ next.eom = c.eom := by
  rw [nsRrCursorNext] at read
  split at read
  · cases read
  · dsimp only at read
    split at read
    · cases read
    · split at read
      · cases read
      · cases read
        exact ⟨by dsimp only; omega, rfl⟩

/-- The cursor stays inside of the packet, so that none of its differences is negative. -/
theorem nsRrCursorNext_inside
    : rr.rdata ≤ next.current ∧ next.current ≤ next.eom := by
  rw [nsRrCursorNext] at read
  split at read
  · cases read
  · rename_i unpacked
    dsimp only at read
    split at read
    · cases read
    · split at read
      · cases read
      · cases read
        exact ⟨by dsimp only; omega, by dsimp only; omega⟩

/-- The owner of a record is a valid name. -/
theorem nsRrCursorNext_rname
    : ∃ labels, rr.rname = wire labels ∧ (wire labels).length ≤ maxcdname := by
  rw [nsRrCursorNext] at read
  split at read
  · cases read
  · rename_i unpacked
    dsimp only at read
    split at read
    · cases read
    · split at read
      · cases read
      · cases read
        exact unpackName_wire unpacked

end

def HostName (labels : List Label) : Prop := (∀ l ∈ labels, ∀ ch ∈ l.1, hostChar ch.toNat = true)
  ∧ ∀ l ∈ labels.head?, l.1.head? ≠ some (UInt8.ofNat '-'.toNat)

theorem hostLabel_iff {dn : Nat}
    : hostLabel mem n dn = true ↔ ∀ ch ∈ mem.slice dn n, hostChar ch.toNat = true := by
  induction n generalizing dn with
  | zero => simp [hostLabel]
  | succ n ih =>
    rw [hostLabel, slice_succ, List.forall_mem_cons]
    by_cases good : hostChar (mem dn).toNat = true
    · rw [if_neg (not_not_intro good), ih]
      exact (and_iff_right good).symm
    · rw [if_pos good]
      exact iff_of_false Bool.false_ne_true (fun all => good all.1)

private theorem binaryHnok_iff {rounds dn : Nat} (name : HoldsName mem dn labels) (enough : labels.length < rounds)
    : binaryHnok mem rounds dn = true ↔ ∀ l ∈ labels, ∀ ch ∈ l.1, hostChar ch.toNat = true := by
  induction labels generalizing dn rounds with
  | nil =>
    obtain _ | rounds := rounds
    · omega
    have zero : (mem dn).toNat = 0 := toNat_eq_zero.mpr name
    simp [binaryHnok, zero]
  | cons l rest ih =>
    obtain _ | rounds := rounds
    · omega
    have positive := l.2.1
    rw [List.length_cons] at enough
    have length : (mem dn).toNat = l.1.length := name.1
    have check : hostLabel mem l.1.length (dn + 1) = true ↔ ∀ ch ∈ l.1, hostChar ch.toNat = true := by
      rw [hostLabel_iff, name.2.1]
    rw [binaryHnok, List.forall_mem_cons]
    simp only [length]
    rw [if_neg (by omega)]
    by_cases good : hostLabel mem l.1.length (dn + 1) = true
    · rw [if_pos good, ih name.2.2 (by omega)]
      exact (and_iff_right (check.mp good)).symm
    · rw [if_neg good]
      exact iff_of_false Bool.false_ne_true (fun all => good (check.mpr all.1))

/-- `__res_binary_hnok` checks the rules for host names. -/
theorem resBinaryHnok_iff {dn : Nat} (name : HoldsName mem dn labels)
    (fits : (wire labels).length ≤ maxcdname)
    : resBinaryHnok mem dn = true ↔ HostName labels := by
  have limit : maxcdname = 255 := rfl
  have length := @length_wire_ge labels
  rw [resBinaryHnok, Bool.and_eq_true, binaryHnok_iff name (by omega), Bool.not_eq_true', and_comm]
  apply and_congr_right
  intro _
  cases labels with
  | nil =>
    have zero : (mem dn).toNat = 0 := toNat_eq_zero.mpr name
    simp [binaryLeadingDash, zero]
  | cons l rest =>
    have positive := l.2.1
    have first : l.1.head? = some (mem (dn + 1)) := by
      obtain ⟨k, size⟩ := Nat.exists_eq_add_of_lt positive
      rw [← name.2.1, size, slice_succ, List.head?_cons]
    have dash : binaryLeadingDash mem dn = false ↔ (mem (dn + 1)).toNat ≠ '-'.toNat := by
      rw [binaryLeadingDash, name.1, Bool.and_eq_false_iff, decide_eq_false_iff_not,
        decide_eq_false_iff_not]
      exact or_iff_right (not_not_intro positive)
    have same : mem (dn + 1) = UInt8.ofNat '-'.toNat ↔ (mem (dn + 1)).toNat = '-'.toNat := by
      rw [← UInt8.toNat_inj]
      rfl
    rw [dash]
    constructor
    · rintro other m member head
      cases member
      rw [first, Option.some.injEq] at head
      exact other (same.mp head)
    · intro all equal
      exact all l rfl (by rw [first, same.mpr equal])

theorem mklower_toupper : ∀ n < 256, mklower (asciiToupper n) = mklower n := by decide +kernel

theorem toupper_mklower : ∀ n < 256, asciiToupper (mklower n) = asciiToupper n := by decide +kernel

theorem toupper_eq_iff {c d : UInt8}
    : asciiToupper c.toNat = asciiToupper d.toNat ↔ mklower c.toNat = mklower d.toNat := by
  constructor
  · intro same
    rw [← mklower_toupper _ c.toNat_lt, same, mklower_toupper _ d.toNat_lt]
  · intro same
    rw [← toupper_mklower _ c.toNat_lt, same, toupper_mklower _ d.toNat_lt]

private theorem sameLabel_iff
    : sameLabel mem mem' n a b = true
      ↔ (mem.slice a n).map (fun c => mklower c.toNat) = (mem'.slice b n).map (fun c => mklower c.toNat) := by
  induction n generalizing a b with
  | zero => simp [sameLabel]
  | succ n ih =>
    rw [sameLabel, slice_succ, slice_succ, List.map_cons, List.map_cons, List.cons.injEq,
      ← toupper_eq_iff]
    by_cases differ : mem a ≠ mem' b ∧ asciiToupper (mem a).toNat ≠ asciiToupper (mem' b).toNat
    · rw [if_pos differ]
      exact iff_of_false Bool.false_ne_true (fun same => differ.2 same.1)
    · have same : asciiToupper (mem a).toNat = asciiToupper (mem' b).toNat := by
        by_contra other
        exact differ ⟨fun equal => other (by rw [equal]), other⟩
      rw [if_neg differ, ih]
      exact (and_iff_right same).symm

/-- By induction on the labels of both names. -/
theorem samebinarynameLoop_iff {rounds : Nat} (name : HoldsName mem a la) (name' : HoldsName mem' b lb)
    (enough : la.length < rounds)
    : samebinarynameLoop mem mem' rounds a b = true ↔ SameName la lb := by
  induction la generalizing a b lb rounds with
  | nil =>
    obtain _ | rounds := rounds
    · omega
    have zero : mem a = 0 := name
    rw [samebinarynameLoop, zero]
    cases lb with
    | nil =>
      have zero' : mem' b = 0 := name'
      exact iff_of_true (by simp [zero']) .nil
    | cons l lb =>
      have nonzero : mem' b ≠ 0 := by
        rw [Ne, ← toNat_eq_zero, name'.1]
        exact Nat.ne_of_gt l.2.1
      exact iff_of_false (by simp [nonzero]) (fun same => by cases same)
  | cons l la ih =>
    obtain _ | rounds := rounds
    · omega
    rw [List.length_cons] at enough
    have nonzero : mem a ≠ 0 := by
      rw [Ne, ← toNat_eq_zero, name.1]
      exact Nat.ne_of_gt l.2.1
    rw [samebinarynameLoop]
    cases lb with
    | nil =>
      have zero : mem' b = 0 := name'
      rw [if_neg (fun both => both.2 zero)]
      exact iff_of_false (by simp [nonzero]) (fun same => by cases same)
    | cons m lb =>
      have nonzero' : mem' b ≠ 0 := by
        rw [Ne, ← toNat_eq_zero, name'.1]
        exact Nat.ne_of_gt m.2.1
      rw [if_pos ⟨nonzero, nonzero'⟩]
      have names : SameName (l :: la) (m :: lb) ↔ l.Same m ∧ SameName la lb := List.forall₂_cons
      rw [names]
      by_cases length : mem a = mem' b
      · have size : m.1.length = l.1.length := by rw [← name.1, ← name'.1, length]
        have tail := name'.2.2
        rw [if_neg (not_not_intro length), name.1]
        rw [size] at tail
        have label : sameLabel mem mem' l.1.length (a + 1) (b + 1) = true ↔ l.Same m := by
          have bytes := name'.2.1
          rw [size] at bytes
          rw [sameLabel_iff, name.2.1, bytes]
          rfl
        by_cases same : sameLabel mem mem' l.1.length (a + 1) (b + 1) = true
        · rw [if_pos same, ih name.2.2 tail (by omega)]
          exact (and_iff_right (label.mp same)).symm
        · rw [if_neg same]
          exact iff_of_false Bool.false_ne_true (fun all => same (label.mpr all.1))
      · rw [if_pos length]
        refine iff_of_false Bool.false_ne_true (fun all => length ?_)
        rw [← UInt8.toNat_inj, name.1, name'.1]
        exact all.1.length

theorem nsSamebinaryname_iff (name : HoldsName mem a la) (name' : HoldsName mem' b lb)
    (fits : (wire la).length ≤ maxcdname)
    : nsSamebinaryname mem a mem' b = true ↔ SameName la lb := by
  have limit : maxcdname = 255 := rfl
  have length := @length_wire_ge la
  exact samebinarynameLoop_iff name name' (by omega)

end Nglibc.Resolv
