import Nglibc.Resolv.NsParse

/-! `resolv/ns_name_unpack.c` with each byte that it reads or writes. What it stores is what the
loop `unpackLoop` computes, and no access leaves the message and the array at `dst`.

A message has at most 65535 bytes. The sums that the source keeps in an `int` stay below twice its
length, so that they are the numbers of the model.
-/

namespace Nglibc.Resolv

open Memory

/-- One access to a byte: of the message, at its address, or of the array at `dst`, at its offset. -/
inductive Access where
  | read (address : Nat)
  | write (offset : Nat)
deriving DecidableEq

/-- Whether the byte lies in `[msg, eom)` or in `[dst, dst + dstsiz)`. -/
def Access.InBounds (msg eom dstsiz : Nat) : Access → Prop
  | .read address => msg ≤ address ∧ address < eom
  | .write offset => offset < dstsiz

/-- The accesses of `memcpy`. -/
def memcpyAccesses (dstp srcp n : Nat) : List Access :=
  (List.range n).flatMap fun i => [.read (srcp + i), .write (dstp + i)]

/-- The variables of `___ns_name_unpack` and the bytes at `dst`; `dstp` is an offset into them. -/
structure Expanding where
  srcp : Nat
  dst : Memory UInt8
  dstp : Nat
  len : Int
  checked : Nat
  accesses : List Access

/-- One round of the loop: the result it ends with, or the variables for the next one. -/
def expandRound (mem : Memory UInt8) (msg eom src dstsiz : Nat) (e : Expanding)
    : (Except Errno Int × Expanding) ⊕ Expanding :=
  let n := (mem e.srcp).toNat
  let e := { e with srcp := e.srcp + 1, accesses := e.accesses ++ [.read e.srcp] }
  if n = 0 then
    .inl (.ok (if e.len < 0 then (e.srcp : Int) - src else e.len),
      { e with dst := e.dst.store e.dstp [0], accesses := e.accesses ++ [.write e.dstp] })
  else if n &&& nsCmprsflgs = 0 then
    if n ≥ 64 then .inl (.error .emsgsize, e)
    else if (n : Int) + 1 ≥ (dstsiz : Int) - e.dstp ∨ (n : Int) ≥ (eom : Int) - e.srcp then
      .inl (.error .emsgsize, e)
    else
      .inr
        { e with
          srcp := e.srcp + n
          dst := (e.dst.store e.dstp [mem (e.srcp - 1)]).store (e.dstp + 1) (mem.slice e.srcp n)
          dstp := e.dstp + 1 + n
          checked := e.checked + (n + 1)
          accesses := e.accesses ++ .write e.dstp :: memcpyAccesses (e.dstp + 1) e.srcp n }
  else if n &&& nsCmprsflgs = nsCmprsflgs then
    if e.srcp ≥ eom then .inl (.error .emsgsize, e)
    else
      let e :=
        { e with
          len := if e.len < 0 then (e.srcp : Int) - src + 1 else e.len
          accesses := e.accesses ++ [.read e.srcp] }
      let target := indirection mem n e.srcp
      if (target : Int) ≥ (eom : Int) - msg then .inl (.error .emsgsize, e)
      else
        let e := { e with srcp := msg + target, checked := e.checked + 2 }
        if (e.checked : Int) ≥ (eom : Int) - msg then .inl (.error .emsgsize, e) else .inr e
  else .inl (.error .emsgsize, e)

def expandLoop (mem : Memory UInt8) (msg eom src dstsiz : Nat)
    : Nat → Expanding → Option (Except Errno Int × Expanding)
  | 0, _ => none
  | fuel + 1, e =>
    match expandRound mem msg eom src dstsiz e with
    | .inl done => some done
    | .inr e => expandLoop mem msg eom src dstsiz fuel e

/-- `___ns_name_unpack` into an array that holds `dst` before. -/
def nsNameUnpackInto (fuel : Nat) (mem : Memory UInt8) (msg eom src : Nat) (dst : Memory UInt8)
    (dstsiz : Nat)
    : Option (Except Errno Int × Expanding) :=
  let e := { srcp := src, dst, dstp := 0, len := -1, checked := 0, accesses := [] }
  if src < msg ∨ src ≥ eom then some (.error .emsgsize, e)
  else expandLoop mem msg eom src dstsiz fuel e

variable {mem dst : Memory UInt8} {msg eom src dstsiz fuel : Nat} {e e' : Expanding}
  {result : Except Errno Int}

/-- What holds between two rounds: the next byte to read and the next one to write are in bounds, and
so was every access. The bytes that were checked and those ahead are at most twice the message.
-/
structure Expanding.Inside (msg eom dstsiz : Nat) (e : Expanding) : Prop where
  srcp : msg ≤ e.srcp ∧ e.srcp < eom
  dstp : e.dstp < dstsiz
  checked : e.checked + (eom - e.srcp) ≤ 2 * (eom - msg)
  accesses : ∀ access ∈ e.accesses, access.InBounds msg eom dstsiz

def Expanding.AccessesInside (msg eom dstsiz : Nat) (e : Expanding) : Prop :=
  ∀ access ∈ e.accesses, access.InBounds msg eom dstsiz

def RoundInside (msg eom dstsiz : Nat) : (Except Errno Int × Expanding) ⊕ Expanding → Prop
  | .inl (_, e) => e.AccessesInside msg eom dstsiz
  | .inr e => e.Inside msg eom dstsiz

theorem memcpyAccesses_inBounds {dstp srcp n : Nat} (source : msg ≤ srcp ∧ srcp + n ≤ eom)
    (room : dstp + n ≤ dstsiz)
    : ∀ access ∈ memcpyAccesses dstp srcp n, access.InBounds msg eom dstsiz := by
  intro access member
  simp only [memcpyAccesses, List.mem_flatMap, List.mem_range, List.mem_cons, List.not_mem_nil,
    or_false] at member
  obtain ⟨i, small, rfl | rfl⟩ := member
  · exact ⟨by omega, by omega⟩
  · exact show dstp + i < dstsiz by omega

theorem inBounds_append {before more : List Access}
    (old : ∀ access ∈ before, access.InBounds msg eom dstsiz)
    (new : ∀ access ∈ more, access.InBounds msg eom dstsiz)
    : ∀ access ∈ before ++ more, access.InBounds msg eom dstsiz := by
  intro access member
  rcases List.mem_append.mp member with member | member
  · exact old access member
  · exact new access member

theorem inBounds_read {address : Nat} (low : msg ≤ address) (high : address < eom)
    : ∀ access ∈ [Access.read address], access.InBounds msg eom dstsiz := by
  intro access member
  rw [List.mem_singleton.mp member]
  exact ⟨low, high⟩

theorem inBounds_write {offset : Nat} (room : offset < dstsiz)
    : ∀ access ∈ [Access.write offset], access.InBounds msg eom dstsiz := by
  intro access member
  rw [List.mem_singleton.mp member]
  exact room

/-- One round keeps to the message and to the array. The byte for the terminator is left over by
the check of each label.
-/
theorem expandRound_inside (inside : e.Inside msg eom dstsiz)
    : RoundInside msg eom dstsiz (expandRound mem msg eom src dstsiz e) := by
  have first := inBounds_append inside.accesses
    (@inBounds_read msg eom dstsiz e.srcp inside.srcp.1 inside.srcp.2)
  have low := inside.srcp.1
  rw [expandRound]
  dsimp only
  split
  · exact inBounds_append first (inBounds_write inside.dstp)
  · split
    · split
      · exact first
      · split
        · exact first
        · rename_i room
          have sum := inside.checked
          refine ⟨⟨by dsimp only; omega, by dsimp only; omega⟩, by dsimp only; omega,
            by dsimp only; omega, ?_⟩
          refine inBounds_append first ?_
          exact inBounds_append (inBounds_write inside.dstp)
            (memcpyAccesses_inBounds ⟨by omega, by omega⟩ (by omega))
    · split
      · split
        · exact first
        · rename_i second
          have both := inBounds_append first
            (@inBounds_read msg eom dstsiz (e.srcp + 1) (by omega) (by omega))
          split
          · exact both
          · split
            · exact both
            · exact ⟨⟨by dsimp only; omega, by dsimp only; omega⟩, inside.dstp,
                by dsimp only; omega, both⟩
      · exact first

/-- No access of a run leaves the message and the array. -/
theorem expandLoop_inside (inside : e.Inside msg eom dstsiz)
    (done : expandLoop mem msg eom src dstsiz fuel e = some (result, e'))
    : e'.AccessesInside msg eom dstsiz := by
  induction fuel generalizing e with
  | zero => cases done
  | succ fuel ih =>
    have round := @expandRound_inside mem msg eom src dstsiz e inside
    rw [expandLoop] at done
    cases next : expandRound mem msg eom src dstsiz e with
    | inl ended =>
      rw [next] at done round
      cases done
      exact round
    | inr more =>
      rw [next] at done round
      exact ih round done

/-- Whether the two have the same bytes at `dst` behind the array. -/
def SameBehind (dstsiz : Nat) (dst : Memory UInt8) (e : Expanding) : Prop :=
  ∀ offset, dstsiz ≤ offset → e.dst offset = dst offset

def RoundBehind (dstsiz : Nat) (dst : Memory UInt8) : (Except Errno Int × Expanding) ⊕ Expanding → Prop
  | .inl (_, e) => SameBehind dstsiz dst e
  | .inr e => SameBehind dstsiz dst e

private theorem expandRound_behind (room : e.dstp < dstsiz) (same : SameBehind dstsiz dst e)
    : RoundBehind dstsiz dst (expandRound mem msg eom src dstsiz e) := by
  rw [expandRound]
  dsimp only
  split
  · intro offset behind
    dsimp only
    rw [store_outside (by simp; omega)]
    exact same offset behind
  · split
    · split
      · exact same
      · split
        · exact same
        · intro offset behind
          dsimp only
          rw [store_outside (by rw [length_slice]; omega), store_outside (by simp; omega)]
          exact same offset behind
    · split
      · split
        · exact same
        · split
          · exact same
          · split
            · exact same
            · exact same
      · exact same

/-- A run changes no byte behind the array. -/
theorem expandLoop_behind (inside : e.Inside msg eom dstsiz) (same : SameBehind dstsiz dst e)
    (done : expandLoop mem msg eom src dstsiz fuel e = some (result, e'))
    : SameBehind dstsiz dst e' := by
  induction fuel generalizing e with
  | zero => cases done
  | succ fuel ih =>
    have kept := @expandRound_inside mem msg eom src dstsiz e inside
    have round := @expandRound_behind mem dst msg eom src dstsiz e inside.dstp same
    rw [expandLoop] at done
    cases next : expandRound mem msg eom src dstsiz e with
    | inl ended =>
      rw [next] at done round
      cases done
      exact round
    | inr more =>
      rw [next] at done round kept
      exact ih kept round done

/-- A round reads the message only. -/
theorem expandRound_congr {mem' : Memory UInt8} (same : ∀ a, msg ≤ a → a < eom → mem' a = mem a)
    (inside : e.Inside msg eom dstsiz)
    : expandRound mem' msg eom src dstsiz e = expandRound mem msg eom src dstsiz e := by
  have first : mem' e.srcp = mem e.srcp := same e.srcp inside.srcp.1 inside.srcp.2
  have low := inside.srcp.1
  rw [expandRound, expandRound, first]
  dsimp only
  split
  · rfl
  · split
    · split
      · rfl
      · split
        · rfl
        · rename_i room
          have text : mem'.slice (e.srcp + 1) (mem e.srcp).toNat
              = mem.slice (e.srcp + 1) (mem e.srcp).toNat :=
            slice_congr fun x _ _ => same x (by omega) (by omega)
          simp only [text, Nat.add_sub_cancel, first]
    · split
      · split
        · rfl
        · have second : mem' (e.srcp + 1) = mem (e.srcp + 1) := same _ (by omega) (by omega)
          have target : indirection mem' (mem e.srcp).toNat (e.srcp + 1)
              = indirection mem (mem e.srcp).toNat (e.srcp + 1) := by
            rw [indirection, indirection, second]
          rw [target]
      · rfl

/-- The bytes outside of the message do not matter. -/
theorem expandLoop_congr {mem' : Memory UInt8} (same : ∀ a, msg ≤ a → a < eom → mem' a = mem a)
    (inside : e.Inside msg eom dstsiz)
    : expandLoop mem' msg eom src dstsiz fuel e = expandLoop mem msg eom src dstsiz fuel e := by
  induction fuel generalizing e with
  | zero => rfl
  | succ fuel ih =>
    have kept := @expandRound_inside mem msg eom src dstsiz e inside
    rw [expandLoop, expandLoop, expandRound_congr same inside]
    cases next : expandRound mem msg eom src dstsiz e with
    | inl ended => rfl
    | inr more =>
      rw [next] at kept
      exact ih kept

def withName : Except Errno Int × Expanding → Except Errno (Int × List UInt8)
  | (.error error, _) => .error error
  | (.ok n, e) => .ok (n, e.dst.slice 0 (e.dstp + 1))

theorem slice_store_label {d n srcp : Nat} {c : UInt8}
    : ((dst.store d [c]).store (d + 1) (mem.slice srcp n)).slice 0 (d + 1 + n)
        = dst.slice 0 d ++ c :: mem.slice srcp n := by
  have both : (dst.store d [c]).store (d + 1) (mem.slice srcp n)
      = dst.store (0 + d) (c :: mem.slice srcp n) := by
    rw [Nat.zero_add]
    exact @store_store_append _ dst d [c] (mem.slice srcp n)
  have length : (c :: mem.slice srcp n).length = n + 1 := by simp
  have place : d + 1 + n = d + (c :: mem.slice srcp n).length := by omega
  rw [both, place, slice_store_append]

theorem slice_store_root {d : Nat} : (dst.store d [0]).slice 0 (d + 1) = dst.slice 0 d ++ [0] := by
  have stored := @slice_store_append _ dst 0 d [0]
  rwa [Nat.zero_add] at stored

/-- The loop stores what `unpackLoop` computes. -/
theorem expandLoop_unpackLoop {srcp dstp checked : Nat} {len : Int} {accesses : List Access}
    : (expandLoop mem msg eom src dstsiz fuel ⟨srcp, dst, dstp, len, checked, accesses⟩).map withName
        = unpackLoop mem msg eom src dstsiz fuel ⟨srcp, dst.slice 0 dstp, len, checked⟩ := by
  induction fuel generalizing srcp dst dstp len checked accesses with
  | zero => rfl
  | succ fuel ih =>
    rw [expandLoop, unpackLoop, expandRound]
    by_cases zero : (mem srcp).toNat = 0
    · simp only [if_pos zero, Option.map_some, withName, slice_store_root]
    simp only [if_neg zero]
    by_cases label : (mem srcp).toNat &&& nsCmprsflgs = 0
    · simp only [if_pos label]
      by_cases long : (mem srcp).toNat ≥ 64
      · simp only [if_pos long]
        rfl
      simp only [if_neg long]
      have length : (dst.slice 0 dstp).length = dstp := length_slice
      by_cases full : ((mem srcp).toNat : Int) + 1 ≥ (dstsiz : Int) - dstp
          ∨ ((mem srcp).toNat : Int) ≥ (eom : Int) - (srcp + 1 : Nat)
      · have full' := full
        rw [← length] at full'
        simp only [if_pos full, if_pos full']
        rfl
      have room := full
      rw [← length] at room
      simp only [if_neg full, if_neg room]
      rw [ih, slice_store_label, Nat.add_sub_cancel]
    simp only [if_neg label]
    by_cases pointer : (mem srcp).toNat &&& nsCmprsflgs = nsCmprsflgs
    · simp only [if_pos pointer]
      by_cases cut : srcp + 1 ≥ eom
      · simp only [if_pos cut]
        rfl
      simp only [if_neg cut]
      by_cases far : (indirection mem (mem srcp).toNat (srcp + 1) : Int) ≥ (eom : Int) - msg
      · simp only [if_pos far]
        rfl
      simp only [if_neg far]
      by_cases looped : ((checked + 2 : Nat) : Int) ≥ (eom : Int) - msg
      · simp only [if_pos looped]
        rfl
      simp only [if_neg looped]
      exact ih
    simp only [if_neg pointer]
    rfl

/-- The bytes from the address `msg` on. -/
def from_ (msg : Nat) (mem : Memory UInt8) : Memory UInt8 := fun a => mem (msg + a)

theorem slice_from {a n : Nat} : mem.slice (msg + a) n = (from_ msg mem).slice a n :=
  slice_eq_slice fun i _ => congrArg mem (Nat.add_assoc msg a i)

/-- Where the message lies does not matter to `ns_name_unpack`. -/
theorem unpackLoop_shift {size start p checked : Nat} {out : List UInt8} {len : Int}
    : unpackLoop mem msg (msg + size) (msg + start) dstsiz fuel ⟨msg + p, out, len, checked⟩
        = unpackLoop (from_ msg mem) 0 size start dstsiz fuel ⟨p, out, len, checked⟩ := by
  induction fuel generalizing p out len checked with
  | zero => rfl
  | succ fuel ih =>
    have byte (a : Nat) : from_ msg mem a = mem (msg + a) := rfl
    have target (n : Nat) : indirection (from_ msg mem) n (p + 1) = indirection mem n (msg + p + 1) :=
      rfl
    have room : ((msg + size : Nat) : Int) - (msg + p + 1 : Nat) = (size : Int) - (p + 1 : Nat) := by
      push_cast
      omega
    have span : ((msg + size : Nat) : Int) - (msg : Nat) = (size : Int) - (0 : Nat) := by
      push_cast
      omega
    have passed : ((msg + p + 1 : Nat) : Int) - (msg + start : Nat) = ((p + 1 : Nat) : Int) - start := by
      push_cast
      omega
    have cut : msg + p + 1 ≥ msg + size ↔ p + 1 ≥ size := by omega
    simp only [unpackLoop, byte, target, room, span, passed, cut]
    have label := @ih (p + 1 + (mem (msg + p)).toNat) (checked + ((mem (msg + p)).toNat + 1))
      (out ++ mem (msg + p) :: (from_ msg mem).slice (p + 1) (mem (msg + p)).toNat) len
    have pointer := @ih (indirection mem (mem (msg + p)).toNat (msg + p + 1)) (checked + 2) out
      (if len < 0 then ((p + 1 : Nat) : Int) - start + 1 else len)
    have next : msg + p + 1 + (mem (msg + p)).toNat = msg + (p + 1 + (mem (msg + p)).toNat) := by omega
    rw [next, Nat.add_assoc msg p 1, slice_from, label, ← Nat.add_assoc msg p 1, pointer, Nat.zero_add]

/-- Nor does it matter to `ns_name_skip`. -/
theorem nameSkipLoop_shift {size rounds p after : Nat}
    (skipped : nameSkipLoop (from_ msg mem) size rounds p = .ok after)
    : nameSkipLoop mem (msg + size) rounds (msg + p) = .ok (msg + after) := by
  induction rounds generalizing p with
  | zero => cases skipped
  | succ rounds ih =>
    have byte : from_ msg mem p = mem (msg + p) := rfl
    have room : ((msg + size : Nat) : Int) - (msg + p + 1 : Nat) = (size : Int) - (p + 1 : Nat) := by
      push_cast
      omega
    have inside : msg + p < msg + size ↔ p < size := by omega
    have cut : msg + p + 1 = msg + size ↔ p + 1 = size := by omega
    rw [nameSkipLoop] at skipped
    rw [nameSkipLoop]
    simp only [room, inside, cut]
    dsimp only at skipped
    split at skipped
    · rw [if_pos ‹_›]
      split at skipped
      · rw [if_pos ‹_›]
        cases skipped
        rfl
      · rw [if_neg ‹_›]
        split at skipped
        · rw [if_pos ‹_›]
          split at skipped
          · cases skipped
          · rw [if_neg ‹_›]
            have step := ih skipped
            rwa [← Nat.add_assoc] at step
        · rw [if_neg ‹_›]
          split at skipped
          · rw [if_pos ‹_›]
            split at skipped
            · cases skipped
            · rw [if_neg ‹_›]
              cases skipped
              rfl
          · cases skipped
    · cases skipped

/-- The bytes that are reported are counted from `src` on. -/
theorem unpackLoop_nonneg {u : Unpacking} {n : Int} {out : List UInt8}
    (behind : u.len < 0 → src ≤ u.srcp)
    (done : unpackLoop mem 0 eom src dstsiz fuel u = some (.ok (n, out)))
    : 0 ≤ n := by
  rcases Int.lt_or_le u.len 0 with first | followed
  · induction fuel generalizing u with
    | zero => cases done
    | succ fuel ih =>
      have round := unpackLoop_round mem eom src dstsiz fuel u
      rw [done] at round
      generalize result : some (Except.ok (n, out)) = r at round
      cases round with
      | root zero =>
        cases result
        omega
      | failed => cases result
      | label =>
        have place : (u.label mem).srcp = u.srcp + 1 + (mem u.srcp).toNat := rfl
        exact ih (fun _ => by rw [place]; omega) result.symm first
      | pointer =>
        have len : (u.pointer mem src).len = ((u.srcp + 1 : Nat) : Int) - src + 1 := if_pos first
        rw [unpackLoop_len (by rw [len]; omega) result.symm]
        omega
  · rw [unpackLoop_len followed done]
    exact followed

private theorem expandLoop_mono {more : Nat} {r : Except Errno Int × Expanding}
    (done : expandLoop mem msg eom src dstsiz fuel e = some r) (le : fuel ≤ more)
    : expandLoop mem msg eom src dstsiz more e = some r := by
  induction fuel generalizing e more with
  | zero => cases done
  | succ fuel ih =>
    obtain ⟨more, rfl⟩ := Nat.exists_eq_add_of_le' (Nat.le_trans (Nat.succ_le_succ fuel.zero_le) le)
    rw [expandLoop] at done ⊢
    cases next : expandRound mem msg eom src dstsiz e with
    | inl ended =>
      rw [next] at done
      exact done
    | inr e =>
      rw [next] at done
      exact ih done (by omega)

def Expanding.start (src : Nat) (dst : Memory UInt8) : Expanding :=
  { srcp := src, dst, dstp := 0, len := -1, checked := 0, accesses := [] }

theorem Expanding.start_inside (start : msg ≤ src) (inside : src < eom) (room : 1 ≤ dstsiz)
    : (Expanding.start src dst).Inside msg eom dstsiz :=
  ⟨⟨start, inside⟩, room, by dsimp only [Expanding.start]; omega, fun _ member => absurd member List.not_mem_nil⟩

/-- What a call stores, in terms of the message moved to the address 0. -/
theorem expandLoop_start {size start : Nat}
    : (expandLoop mem msg (msg + size) (msg + start) dstsiz fuel
          (.start (msg + start) dst)).map withName
        = unpackLoop (from_ msg mem) 0 size start dstsiz fuel ⟨start, [], -1, 0⟩ := by
  rw [Expanding.start, expandLoop_unpackLoop, slice_zero, unpackLoop_shift]

/-- A call ends. It reads the message only and writes to the array only; when it succeeds, the array
holds a name, and `ns_name_skip` passes as many bytes as it reports.
-/
def UnpacksSafely (mem : Memory UInt8) (msg eom src : Nat) (dst : Memory UInt8) (dstsiz : Nat) : Prop :=
  ∃ rounds result e,
    (∀ fuel ≥ rounds, ∀ mem' : Memory UInt8, (∀ a, msg ≤ a → a < eom → mem' a = mem a)
      → nsNameUnpackInto fuel mem' msg eom src dst dstsiz = some (result, e))
    ∧ (∀ access ∈ e.accesses, access.InBounds msg eom dstsiz)
    ∧ (∀ offset, dstsiz ≤ offset → e.dst offset = dst offset)
    ∧ ∀ n, result = .ok n → ∃ labels, e.dst.slice 0 (wire labels).length = wire labels
        ∧ (wire labels).length ≤ dstsiz
        ∧ ∃ count : Nat, n = count ∧ nsNameSkip mem eom src = .ok (src + count)

/-- `ns_name_unpack` is safe on every message. -/
theorem nsNameUnpackInto_safe (mem dst : Memory UInt8) {msg eom src dstsiz : Nat} (start : msg ≤ src)
    (inside : src < eom) (room : 1 ≤ dstsiz)
    : UnpacksSafely mem msg eom src dst dstsiz := by
  obtain ⟨p, rfl⟩ := Nat.exists_eq_add_of_le start
  obtain ⟨size, rfl⟩ := Nat.exists_eq_add_of_le (Nat.le_of_lt (Nat.lt_of_le_of_lt start inside))
  have first := @Expanding.start_inside dst msg _ _ dstsiz start inside room
  have ends : unpackLoop (from_ msg mem) 0 size p dstsiz (dstsiz + size + 1) ⟨p, [], -1, 0⟩ ≠ none :=
    unpackLoop_ne_none (Nat.zero_le _) (by simp only [List.length_nil]; omega)
  have stored := @expandLoop_start mem dst msg dstsiz (dstsiz + size + 1) size p
  cases done : expandLoop mem msg (msg + size) (msg + p) dstsiz (dstsiz + size + 1)
      (.start (msg + p) dst) with
  | none =>
    rw [done] at stored
    exact absurd stored.symm ends
  | some r =>
    obtain ⟨result, e⟩ := r
    refine ⟨dstsiz + size + 1, result, e, ?_, expandLoop_inside first done,
      expandLoop_behind first (fun _ _ => rfl) done, ?_⟩
    · intro fuel enough mem' same
      have within : ¬ (msg + p < msg ∨ msg + p ≥ msg + size) := by omega
      rw [nsNameUnpackInto, if_neg within]
      exact (expandLoop_congr same first).trans (expandLoop_mono done enough)
    · rintro n rfl
      rw [done, Option.map_some] at stored
      obtain ⟨labels, bytes, fits⟩ := unpackLoop_wire (show [].length < dstsiz from room) stored.symm
      rw [List.nil_append] at bytes
      have length : e.dstp + 1 = (wire labels).length := by rw [← bytes, length_slice]
      have skipped := nameSkipLoop_of_unpackLoop (u := ⟨p, [], -1, 0⟩) (by simp) le_rfl
        (show p < size by omega) (le_refl (size - p)) stored.symm
      have rounds : msg + size - (msg + p) = size - p := by omega
      have positive := unpackLoop_nonneg (u := ⟨p, [], -1, 0⟩) (fun _ => le_rfl) stored.symm
      refine ⟨labels, by rw [← length, bytes], ?_, n.toNat, (Int.toNat_of_nonneg positive).symm, ?_⟩
      · rw [← bytes]
        exact fits
      · rw [nsNameSkip, rounds, nameSkipLoop_shift skipped, Nat.add_assoc]

/-- A name at the address 5 that goes on with a pointer to the address 2, and a short array. -/
theorem nsNameUnpackInto_safe_pointer
    : UnpacksSafely (fun a => [9, 9, 1, 97, 0, 1, 98, 0xc0, 0].getD a 0) 2 9 5 (fun _ => 0) 5
      ∧ (nsNameUnpackInto 4 (fun a => [9, 9, 1, 97, 0, 1, 98, 0xc0, 0].getD a 0) 2 9 5
          (fun _ => 0) 5).map withName
        = some (.ok (4, [1, 98, 1, 97, 0])) :=
  ⟨nsNameUnpackInto_safe _ _ (by decide) (by decide) (by decide), rfl⟩

end Nglibc.Resolv
