import Nglibc.Resolv.NsName

/-! Names as lists of labels: where a message stores one, in full or with a compression
pointer at its end, and what `dn_find` and `___ns_name_unpack` make of it.
-/

namespace Nglibc.Resolv

open Memory List

def Label := { bytes : List UInt8 // 0 < bytes.length ∧ bytes.length < 64 }

def Label.wire (l : Label) : List UInt8 := UInt8.ofNat l.1.length :: l.1

def wire (labels : List Label) : List UInt8 := labels.flatMap Label.wire ++ [0]

/-- The name in wire format at the address `a`. -/
def HoldsName (m : Memory UInt8) : Nat → List Label → Prop
  | a, [] => m a = 0
  | a, l :: rest =>
    (m a).toNat = l.1.length ∧ m.slice (a + 1) l.1.length = l.1
    ∧ HoldsName m (a + 1 + l.1.length) rest

/-- Two labels that are equal after `mklower`. -/
def Label.Same (a b : Label) : Prop :=
  a.1.map (fun c => mklower c.toNat) = b.1.map (fun c => mklower c.toNat)

/-- Two names with the same labels after `mklower`. -/
def SameName : List Label → List Label → Prop := List.Forall₂ Label.Same

/-- The message at `msg` stores a name at `off`, as a part of a name that starts at `s`; its
own bytes end before `stop`. A compression pointer leads to a label of a name that ends
before `s`.
-/
inductive Stored (mem : Memory UInt8) (msg : Nat) : Nat → Nat → List Label → Nat → Prop where
  | root {s off : Nat} : s ≤ off → mem off = 0 → Stored mem msg s off [] (off + 1)
  | label {s off stop : Nat} {l : Label} {rest : List Label}
    : s ≤ off → (mem off).toNat = l.1.length → mem.slice (off + 1) l.1.length = l.1
      → Stored mem msg s (off + 1 + l.1.length) rest stop → Stored mem msg s off (l :: rest) stop
  | pointer {s off t s' stop : Nat} {l : Label} {rest : List Label}
    : s ≤ off → (mem off).toNat = 0xc0 + t / 256 → (mem (off + 1)).toNat = t % 256 → t < 0x4000
      → (mem (msg + t)).toNat = l.1.length → Stored mem msg s' (msg + t) (l :: rest) stop
      → msg ≤ s' → stop ≤ s → Stored mem msg s off (l :: rest) (off + 2)

variable {src mem mem' : Memory UInt8} {msg s off stop dn fuel : Nat} {labels held : List Label}

theorem land_label : ∀ n < 64, n &&& nsCmprsflgs = 0 := by decide

theorem land_pointer : ∀ h < 64, (0xc0 + h) &&& nsCmprsflgs = nsCmprsflgs := by decide

theorem or_pointer : ∀ h < 64, h ||| nsCmprsflgs = 0xc0 + h := by decide

theorem land_target : ∀ h < 64, (0xc0 + h) &&& 0x3f = h := by decide

/-- The two bytes of a compression pointer give its target. -/
theorem indirection_eq {t cp : Nat} (small : t < 0x4000) (low : (mem cp).toNat = t % 256)
    : indirection mem (0xc0 + t / 256) cp = t := by
  have high : t / 256 < 64 := by omega
  rw [indirection, land_target _ high, ← Nat.shiftLeft_add_eq_or_of_lt (by omega)]
  omega

theorem toNat_length (l : Label) : (UInt8.ofNat l.1.length).toNat = l.1.length := by
  have short := l.2.2
  rw [UInt8.toNat_ofNat']
  omega

theorem toNat_eq_zero {c : UInt8} : c.toNat = 0 ↔ c = 0 := by
  rw [← UInt8.toNat_inj, UInt8.toNat_zero]

theorem slice_label {l : Label} (length : (mem off).toNat = l.1.length)
    (bytes : mem.slice (off + 1) l.1.length = l.1)
    : mem.slice off (l.1.length + 1) = l.wire := by
  have first : mem off = UInt8.ofNat l.1.length := by
    rw [← UInt8.toNat_inj, toNat_length, length]
  rw [slice_succ, bytes, Label.wire, first]

@[simp] theorem length_label_wire (l : Label) : l.wire.length = l.1.length + 1 := by
  rw [Label.wire, length_cons]

theorem wire_cons (l : Label) : wire (l :: labels) = l.wire ++ wire labels := by
  rw [wire, wire, flatMap_cons, append_assoc]

theorem wire_nil : wire [] = [0] := rfl

/-- Every label takes at least two bytes. -/
theorem length_wire_ge : 2 * labels.length + 1 ≤ (wire labels).length := by
  induction labels with
  | nil => exact Nat.le_refl 1
  | cons l rest ih =>
    have positive := l.2.1
    rw [wire_cons, length_append, length_label_wire, length_cons]
    omega

theorem Label.Same.length {a b : Label} (same : a.Same b) : a.1.length = b.1.length := by
  have lengths := congrArg List.length same
  rwa [length_map, length_map] at lengths

theorem SameName.length_wire {a b : List Label} (same : SameName a b)
    : (wire a).length = (wire b).length := by
  induction same with
  | nil => rfl
  | cons head _ ih =>
    rw [wire_cons, wire_cons, length_append, length_append, ih, length_label_wire,
      length_label_wire, head.length]

theorem HoldsName.first {a : Nat} (name : HoldsName src a labels)
    : (src a = 0 ↔ labels = []) ∧ (src a).toNat < 64 := by
  cases labels with
  | nil =>
    have zero : src a = 0 := name
    exact ⟨iff_of_true zero rfl, by rw [zero]; decide⟩
  | cons l rest =>
    have positive := l.2
    refine ⟨iff_of_false ?_ (cons_ne_nil _ _), by rw [name.1]; exact positive.2⟩
    intro zero
    rw [← toNat_eq_zero, name.1] at zero
    omega

theorem holdsName_iff {a : Nat}
    : HoldsName src a labels ↔ src.slice a (wire labels).length = wire labels := by
  induction labels generalizing a with
  | nil => simp [HoldsName, wire_nil, slice_succ]
  | cons l rest ih =>
    rw [HoldsName, wire_cons, length_append, slice_add, length_label_wire, ih]
    constructor
    · rintro ⟨length, bytes, tail⟩
      rw [slice_label length bytes, ← Nat.add_assoc, Nat.add_right_comm, tail]
    · intro whole
      obtain ⟨first, tail⟩ := append_inj whole (by rw [length_slice, length_label_wire])
      rw [slice_succ, Label.wire, List.cons.injEq] at first
      refine ⟨by rw [first.1, toNat_length], first.2, ?_⟩
      rwa [← Nat.add_assoc, Nat.add_right_comm] at tail

def ValidName (src : Memory UInt8) : Prop :=
  ∃ labels, HoldsName src 0 labels ∧ (wire labels).length ≤ maxcdname

namespace Stored

section

variable (stored : Stored mem msg s off held stop)
include stored

theorem bounds : s ≤ off ∧ off < stop := by
  induction stored with
  | root le _ => exact ⟨le, Nat.lt_succ_self _⟩
  | label le _ _ _ ih => exact ⟨le, by omega⟩
  | pointer le _ _ _ _ _ _ _ _ => exact ⟨le, by omega⟩

/-- A stored name depends on the memory before its end only. -/
theorem congr (same : ∀ x < stop, mem' x = mem x)
    : Stored mem' msg s off held stop := by
  induction stored with
  | root le zero => exact .root le ((same _ (Nat.lt_succ_self _)).trans zero)
  | label le length bytes rest ih =>
    have inside := rest.bounds
    refine .label le ?_ ?_ (ih same)
    · rw [same _ (by omega), length]
    · rw [slice_congr (fun x _ below => same x (by omega)), bytes]
  | pointer le high low small first target base before ih =>
    have inside := target.bounds
    refine .pointer le ?_ ?_ small ?_ (ih fun x below => same x (by omega)) base before
    · rw [same _ (by omega), high]
    · rw [same _ (by omega), low]
    · rw [same _ (by omega), first]

theorem of_zero (zero : mem off = 0) : held = [] := by
  rw [← toNat_eq_zero] at zero
  cases stored with
  | root _ _ => rfl
  | @label _ _ _ l _ _ length _ _ =>
    have positive := l.2.1
    omega
  | pointer _ high _ _ _ _ _ _ => omega

end

theorem cons {l : Label} (stored : Stored mem msg s (off + (l.1.length + 1)) held stop)
    (le : s ≤ off) (copied : mem.slice off (l.1.length + 1) = l.wire)
    : Stored mem msg s off (l :: held) stop := by
  rw [slice_succ, Label.wire, List.cons.injEq] at copied
  refine .label le (by rw [copied.1, toNat_length]) copied.2 ?_
  rwa [Nat.add_assoc, Nat.add_comm 1]

end Stored

theorem sameBytes_iff {n cp : Nat}
    : sameBytes src mem n dn cp = true ↔ (mem.slice cp n).map (fun c => mklower c.toNat)
        = (src.slice dn n).map (fun c => mklower c.toNat) := by
  induction n generalizing dn cp with
  | zero => simp [sameBytes]
  | succ n ih =>
    rw [sameBytes, slice_succ, slice_succ, map_cons, map_cons, List.cons.injEq, ← ih]
    by_cases same : mklower (src dn).toNat = mklower (mem cp).toNat
    · rw [if_neg (not_not.mpr same)]
      exact (and_iff_right same.symm).symm
    · rw [if_pos same]
      exact iff_of_false Bool.false_ne_true fun both => same both.1.symm

/-- The comparison of a name with a stored one ends, and finds names with the same labels
only. By induction on the stored name; a pointer is followed by a label.
-/
theorem compareNames_stored (stored : Stored mem msg s off held stop)
    (name : HoldsName src dn labels)
    (nonempty : 0 < labels.length)
    (enough : 2 * labels.length < fuel ∨ (2 * labels.length ≤ fuel ∧ (mem off).toNat < 64))
    : ∃ end_, compareNames src mem msg fuel dn off = some end_
      ∧ (end_ = .found → SameName held labels) := by
  induction stored generalizing dn labels fuel with
  | root _ zero =>
    obtain _ | fuel := fuel
    · omega
    · refine ⟨.next, ?_, nofun⟩
      exact if_pos (toNat_eq_zero.mpr zero)
  | @label s off stop l rest le length bytes tail ih =>
    obtain _ | fuel := fuel
    · omega
    · have range := l.2
      simp only [compareNames, length]
      rw [if_neg (by omega), if_pos (land_label _ range.2)]
      by_cases lengths : l.1.length = (src dn).toNat
      · rw [if_neg (not_not.mpr lengths)]
        obtain _ | ⟨w, wanted⟩ := labels
        · rw [toNat_eq_zero.mpr name] at lengths
          omega
        · obtain ⟨first, wantedBytes, wantedTail⟩ := name
          rw [first] at lengths
          rw [lengths] at bytes tail ih ⊢
          cases compared : sameBytes src mem w.1.length (dn + 1) (off + 1) with
          | false => exact ⟨.next, rfl, nofun⟩
          | true =>
            rw [sameBytes_iff, bytes, wantedBytes] at compared
            have same : l.Same w := compared
            by_cases ends : src (dn + 1 + w.1.length) = 0 ∧ mem (off + 1 + w.1.length) = 0
            · rw [if_pos ends, tail.of_zero ends.2, wantedTail.first.1.mp ends.1]
              exact ⟨.found, rfl, fun _ => .cons same .nil⟩
            · rw [if_neg ends]
              by_cases more : src (dn + 1 + w.1.length) ≠ 0
              · rw [if_pos more]
                have wantedMore : 0 < wanted.length :=
                  length_pos_iff.mpr fun none_ => more (wantedTail.first.1.mpr none_)
                have rounds : 2 * wanted.length < fuel := by
                  rw [length_cons] at enough
                  omega
                obtain ⟨end_, run, found⟩ := ih wantedTail wantedMore (.inl rounds)
                exact ⟨end_, run, fun h => .cons same (found h)⟩
              · rw [if_neg more]
                exact ⟨.next, rfl, nofun⟩
      · rw [if_pos lengths]
        exact ⟨.next, rfl, nofun⟩
  | @pointer s off t s' stop l rest le high low small first target base before ih =>
    obtain _ | fuel := fuel
    · omega
    · have page : t / 256 < 64 := by omega
      have short := l.2.2
      simp only [compareNames, high]
      rw [if_neg (by omega), land_pointer _ page, indirection_eq small low]
      have rounds : 2 * labels.length ≤ fuel ∧ (mem (msg + t)).toNat < 64 := by
        omega
      exact ih name nonempty (.inr rounds)

/-- A suffix of a saved name that `dn_find` may point to. -/
structure Suffix (mem : Memory UInt8) (msg limit t : Nat) (labels : List Label) : Prop where
  small : t < 0x4000
  stored : ∃ s l rest stop, Stored mem msg s (msg + t) (l :: rest) stop
    ∧ (mem (msg + t)).toNat = l.1.length ∧ msg ≤ s ∧ stop ≤ limit ∧ SameName (l :: rest) labels

/-- The search in one saved name ends, at a suffix with the same labels if it finds one. -/
theorem searchSuffixes_stored {rounds limit : Nat} (stored : Stored mem msg s off held stop)
    (name : HoldsName src dn labels) (nonempty : 0 < labels.length) (base : msg ≤ s)
    (inside : stop ≤ limit) (enough : 2 * labels.length < fuel) (turns : held.length < rounds)
    : ∃ result, searchSuffixes src mem msg dn fuel rounds off = some result
      ∧ ∀ found, result = .ok (some found)
        → ∃ t, found = msg + t ∧ Suffix mem msg limit t labels := by
  induction stored generalizing rounds with
  | root _ zero =>
    obtain _ | rounds := rounds
    · omega
    · refine ⟨.ok none, ?_, nofun⟩
      exact if_neg fun all => all.1 (toNat_eq_zero.mpr zero)
  | pointer _ high _ _ _ _ _ _ _ =>
    obtain _ | rounds := rounds
    · omega
    · refine ⟨.ok none, ?_, nofun⟩
      rw [searchSuffixes, high]
      refine if_neg fun all => ?_
      rw [land_pointer _ (by omega)] at all
      exact absurd all.2.1 (by decide)
  | @label s off stop l rest le length bytes tail ih =>
    obtain _ | rounds := rounds
    · omega
    · have whole : Stored mem msg s off (l :: rest) stop := .label le length bytes tail
      obtain ⟨end_, run, found⟩ := compareNames_stored whole name nonempty (.inl enough)
      simp only [searchSuffixes, run]
      by_cases usable : (mem off).toNat ≠ 0 ∧ (mem off).toNat &&& nsCmprsflgs = 0
          ∧ (off : Int) - msg < 0x4000
      · rw [if_pos usable]
        cases end_ with
        | found =>
          refine ⟨_, rfl, ?_⟩
          intro sp result
          cases result
          refine ⟨off - msg, by omega, by omega, ?_⟩
          rw [Nat.add_sub_cancel' (le_trans base le)]
          exact ⟨s, l, rest, stop, whole, length, base, inside, found rfl⟩
        | illegal => exact ⟨_, rfl, nofun⟩
        | next =>
          rw [length, Nat.add_comm l.1.length, ← Nat.add_assoc]
          exact ih base inside (by rw [length_cons] at turns; omega)
      · rw [if_neg usable]
        exact ⟨_, rfl, nofun⟩

/-- A name that is saved in the list of pointers. -/
def Saved (mem : Memory UInt8) (msg limit p : Nat) : Prop :=
  ∃ s held stop, Stored mem msg s p held stop ∧ msg ≤ s ∧ stop ≤ limit ∧ held.length < 256

theorem Saved.congr {limit p : Nat} (saved : Saved mem msg limit p) {limit' : Nat}
    (le : limit ≤ limit') (same : ∀ x < limit, mem' x = mem x) : Saved mem' msg limit' p := by
  obtain ⟨s, held, stop, stored, base, inside, short⟩ := saved
  exact ⟨s, held, stop, stored.congr fun x below => same x (by omega), base, by omega, short⟩

/-- `dn_find` ends, and an offset it returns is that of a suffix with the same labels. -/
theorem dnFind_stored {limit : Nat} {ptrs : List Nat}
    (saved : ∀ p ∈ ptrs, Saved mem msg limit p) (name : HoldsName src dn labels)
    (nonempty : 0 < labels.length) (enough : 2 * labels.length < fuel) (turns : 256 ≤ fuel)
    : ∃ result, dnFind src mem msg dn fuel (ptrs.map some) = some result
      ∧ ∀ l, result = .ok l → ∃ t : Nat, l = t ∧ Suffix mem msg limit t labels := by
  induction ptrs with
  | nil => exact ⟨_, rfl, nofun⟩
  | cons p rest ih =>
    obtain ⟨s, held, stop, stored, base, inside, short⟩ := saved p mem_cons_self
    obtain ⟨result, run, found⟩ := searchSuffixes_stored stored name nonempty base inside enough
        (show held.length < fuel by omega)
    simp only [map_cons, dnFind, run]
    rcases result with e | _ | sp
    · exact ⟨_, rfl, nofun⟩
    · exact ih fun q member => saved q (mem_cons_of_mem p member)
    · obtain ⟨t, rfl, suffix⟩ := found sp rfl
      refine ⟨_, rfl, ?_⟩
      intro l result
      cases result
      exact ⟨t, by push_cast; omega, suffix⟩

/-- The loop of `___ns_name_unpack` on a stored name. The bytes that `checked` counts are those
of the names passed so far, which lie apart from each other: `k` counts the ones before the
current name, and `k + stop` stays inside of the message.
-/
theorem unpackLoop_stored {eom source dstsiz k : Nat} {u : Unpacking}
    (stored : Stored mem msg s off held stop) (at_ : u.srcp = off) (base : msg ≤ s)
    (started : u.len < 0 → source ≤ off)
    (inside : k + stop ≤ eom) (counted : u.checked ≤ k + (off - s))
    (fits : u.out.length + (wire held).length ≤ dstsiz)
    (enough : 2 * held.length + 1 < fuel ∨ (2 * held.length < fuel ∧ (mem off).toNat < 64))
    : unpackLoop mem msg eom source dstsiz fuel u
      = some (.ok (if u.len < 0 then (stop : Int) - source else u.len, u.out ++ wire held)) := by
  induction stored generalizing fuel u k with
  | root _ zero =>
    obtain _ | fuel := fuel
    · omega
    · simp only [unpackLoop, at_]
      rw [if_pos (toNat_eq_zero.mpr zero), wire_nil]
  | @label s off stop l rest le length bytes tail ih =>
    obtain _ | fuel := fuel
    · omega
    · have range := l.2
      have ends := tail.bounds
      have terminated := @length_wire_ge rest
      rw [wire_cons, length_append, length_label_wire] at fits
      simp only [unpackLoop, at_, length]
      rw [if_neg (by omega), if_pos (land_label _ range.2), if_neg (by omega), if_neg (by omega)]
      have rounds : 2 * rest.length + 1 < fuel := by
        rw [length_cons] at enough
        omega
      rw [ih rfl base (fun fresh => by have := started fresh; omega) inside (by simp only; omega) (by
          simp only [length_append, length_cons, length_slice]
          omega) (.inl rounds)]
      rw [← slice_succ, slice_label length bytes, wire_cons, append_assoc]
  | @pointer s off t s' stop l rest le high low small first target base' before ih =>
    obtain _ | fuel := fuel
    · omega
    · have page : t / 256 < 64 := by omega
      have ends := target.bounds
      simp only [unpackLoop, at_, high]
      rw [if_neg (by omega), land_pointer _ page, if_neg (by decide), if_pos rfl,
        indirection_eq small low, if_neg (by omega), if_neg (by omega), if_neg (by omega)]
      have rounds : 2 * (l :: rest).length < fuel ∧ (mem (msg + t)).toNat < 64 := by
        have short := l.2.2
        omega
      have passed : u.checked + 2 ≤ k + (off + 2 - s) := by omega
      have next : ∀ len : Int, 0 ≤ len
          → unpackLoop mem msg eom source dstsiz fuel ⟨msg + t, u.out, len, u.checked + 2⟩
            = some (.ok (len, u.out ++ wire (l :: rest))) := by
        intro len found
        have run := ih (u := ⟨msg + t, u.out, len, u.checked + 2⟩) rfl base'
          (fun fresh => absurd fresh (not_lt.mpr found)) (by omega : k + (off + 2 - s) + stop ≤ eom)
          (Nat.le_add_right_of_le passed) fits (.inr rounds)
        rwa [if_neg (not_lt.mpr found)] at run
      by_cases fresh : u.len < 0
      · rw [if_pos fresh, if_pos fresh, next _ (by omega)]
        push_cast
        ring_nf
      · rw [if_neg fresh, if_neg fresh, next _ (not_lt.mp fresh)]

/-- `___ns_name_unpack` returns the number of bytes a stored name takes, and the name. -/
theorem nsNameUnpack_stored {eom dstsiz : Nat} (stored : Stored mem msg s s held stop)
    (base : msg ≤ s) (inside : stop ≤ eom) (fits : (wire held).length ≤ dstsiz)
    (enough : 2 * held.length + 1 < fuel)
    : nsNameUnpack fuel mem msg eom s dstsiz = some (.ok ((stop : Int) - s, wire held)) := by
  have bounds := stored.bounds
  have run := unpackLoop_stored (u := ⟨s, [], -1, 0⟩) (k := 0) stored rfl base (fun _ => le_rfl)
    (show 0 + stop ≤ eom by omega) (Nat.zero_le _) (by simpa using fits) (.inl enough)
  rw [nsNameUnpack, if_neg (by omega)]
  exact run

end Nglibc.Resolv
