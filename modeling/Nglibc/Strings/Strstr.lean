import Nglibc.Strings.TwoWay

/-! `strstr` of `string/strstr.c`: a hash of the last bytes for needles of two and three bytes, a table of
shifts by the hash of two bytes for needles of up to 256 bytes, and the Two-Way search for longer ones.
-/

namespace Nglibc.Strings

open Nglibc.Words

/-! The function -/

/-- One turn of the loops of `strstr2` and `strstr3` on `hs` and `h2`; `roll` is the body. The place that
is returned is `back` bytes before `hs`.
-/
def rollTurn (haystack : CString) (roll : Nat → Nat → Nat) (h1 back : Nat) (st : Nat × Nat)
    : Option (Option Nat ⊕ (Nat × Nat)) := do
  let c ← haystack.read st.1
  if h1 ≠ st.2 ∧ c ≠ 0 then some (.inr (st.1 + 1, roll st.2 c.toNat))
  else some (.inl (if h1 = st.2 then some (st.1 - back) else none))

/-- `(h2 << 16) | c` in 32 bits. -/
def roll2 (h2 c : Nat) : Nat := (h2 <<< 16 % 2 ^ 32) ||| c

/-- `(h2 | c) << 8` in 32 bits. -/
def roll3 (h2 c : Nat) : Nat := (h2 ||| c) <<< 8 % 2 ^ 32

def strstr2 (haystack needle : CString) (hs : Nat) : Option (Option Nat) := do
  let ne0 ← needle.read 0
  let ne1 ← needle.read 1
  iterate (rollTurn haystack roll2 (ne0.toNat <<< 16 ||| ne1.toNat) 2) (haystack.length + 1) (hs, 0)

def strstr3 (haystack needle : CString) (hs : Nat) : Option (Option Nat) := do
  let ne0 ← needle.read 0
  let ne1 ← needle.read 1
  let ne2 ← needle.read 2
  iterate (rollTurn haystack roll3 (ne0.toNat <<< 24 ||| ne1.toNat <<< 16 ||| ne2.toNat <<< 8) 3)
    (haystack.length + 1) (hs, 0)

/-- `hash2` on `p[0]` and `p[-1]`. -/
def hash2 (p0 p1 : UInt8) : Nat := sizeSub p0.toNat (p1.toNat <<< 3) % 256

def hash2At (s : CString) (p : Nat) : Option Nat := do
  let p0 ← s.read p
  let p1 ← s.read (p - 1)
  some (hash2 p0 p1)

/-- `shift` after the loop has come to `i`; the entries are of the type `uint8_t`. -/
def shiftUpTo (needle : CString) : Nat → Option (Nat → Nat)
  | 0 => some fun _ => 0
  | i + 1 => do
    let shift ← shiftUpTo needle i
    let h ← hash2At needle (i + 1)
    some (Function.update shift h ((i + 1) % 256))

/-- The variables `hs`, `end` and `offset`, the pointers as indices. -/
structure Horspool where
  hs : Nat
  end_ : Nat
  offset : Nat
  deriving DecidableEq, Repr

/-- `do { hs += m1; tmp = shift[hash2 (hs)]; } while (tmp == 0 && hs <= end)` -/
def skipTurn (haystack : CString) (shift : Nat → Nat) (m1 end_ hs : Nat)
    : Option ((Nat × Nat) ⊕ Nat) := do
  let h ← hash2At haystack (hs + m1)
  if shift h = 0 ∧ hs + m1 ≤ end_ then some (.inr (hs + m1))
  else some (.inl (hs + m1, shift h))

/-- `end`, which reads on when the search is ahead of it. -/
def extendEnd (haystack : CString) (m1 : Nat) (st : Horspool) : Option Nat :=
  if st.hs > st.end_ then do
    let more ← haystack.strnlen (st.end_ + m1 + 1) 2048
    some (st.end_ + more)
  else some st.end_

/-- `m1 < 15 || memcmp (hs + offset, ne + offset, 8) == 0` -/
def passesFilter (haystack needle : CString) (m1 hs offset : Nat) : Option Bool :=
  if m1 < 15 then some true else haystack.memEqual needle (hs + offset) offset 8

def horspoolTurn (haystack needle : CString) (shift : Nat → Nat) (m1 shift1 : Nat) (st : Horspool)
    : Option (Option Nat ⊕ Horspool) := do
  let end_ ← extendEnd haystack m1 st
  if st.hs > end_ then some (.inl none)
  else
    let (ahead, tmp) ← iterate (skipTurn haystack shift m1 end_) (haystack.length + 1) st.hs
    let hs := ahead - tmp
    if tmp < m1 then some (.inr ⟨hs, end_, st.offset⟩)
    else
      if ← passesFilter haystack needle m1 hs st.offset then
        if ← haystack.memEqual needle hs 0 m1 then some (.inl (some hs))
        else
          some (.inr ⟨hs + shift1, end_, sizeSub (if st.offset ≥ 8 then st.offset else m1) 8⟩)
      else some (.inr ⟨hs + shift1, end_, st.offset⟩)

/-- `strstr` behind the special cases for short needles. -/
def strstrFrom (haystack needle : CString) (hs : Nat) : Option (Option Nat) := do
  let neLen ← needle.strlen
  let hsLen ← haystack.strnlen hs (neLen ||| 512)
  if hsLen < neLen then some none
  else if ← haystack.memEqual needle hs 0 neLen then some (some hs)
  else if neLen > 256 then
    (·.1.map (hs + ·)) <$> twoWayLongNeedle id CString.memEqual (haystack.drop hs) needle hsLen
  else
    let m1 := neLen - 1
    let shift ← shiftUpTo needle (m1 - 1)
    let h ← hash2At needle m1
    iterate (horspoolTurn haystack needle (Function.update shift h (m1 % 256)) m1 (m1 - shift h))
      (haystack.length + 1) ⟨hs, hs + hsLen - neLen, 0⟩

/-- `strstr`: the index in the haystack, or none for `NULL`. The outer option is none at a fault. -/
def strstr (haystack needle : CString) : Option (Option Nat) := do
  let ne0 ← needle.read 0
  if ne0 = 0 then some (some 0)
  else
    match ← haystack.findChar id ne0 0 with
    | none => some none
    | some hs =>
      if (← needle.read 1) = 0 then some (some hs)
      else if (← needle.read 2) = 0 then strstr2 haystack needle hs
      else if (← needle.read 3) = 0 then strstr3 haystack needle hs
      else strstrFrom haystack needle hs

/-! Needles of two and three bytes -/

variable {haystack needle : CString}

abbrev Occurs (haystack needle : CString) (j : Nat) : Prop :=
  MatchesAt (needle.word id) (haystack.word id) needle.length j

/-- The needle does not occur before `j`. -/
abbrev Missed (haystack needle : CString) (j : Nat) : Prop :=
  NoneBefore (needle.word id) (haystack.word id) needle.length j

abbrev First (haystack needle : CString) (result : Option Nat) : Prop :=
  FirstMatch (needle.word id) (haystack.word id) needle.length result

theorem keepsNul_id : CString.KeepsNul id := fun _ => Iff.rfl

/-- A rolling hash finds the needle when it equals the hash of the needle just behind a match. -/
theorem rollTurn_first {roll : Nat → Nat → Nat} {h1 start : Nat} {hash : Nat → Nat}
    (nonempty : 0 < needle.length) (inside : start ≤ haystack.length)
    (missed : Missed haystack needle start)
    (rolls : ∀ hs, start ≤ hs → hs < haystack.length
      → roll (hash hs) (haystack.word id hs) = hash (hs + 1))
    (equal : ∀ hs, start ≤ hs → hs ≤ haystack.length → (h1 = hash hs ↔ start + needle.length ≤ hs
      ∧ Occurs haystack needle (hs - needle.length)))
    : ∃ result, iterate (rollTurn haystack roll h1 needle.length) (haystack.length + 1)
        (start, hash start) = some result
      ∧ First haystack needle result := by
  refine @Progresses.iterate _ _ _ (fun st : Nat × Nat => start ≤ st.1 ∧ st.1 ≤ haystack.length
    ∧ st.2 = hash st.1 ∧ ∀ q, q + needle.length < st.1 → ¬ Occurs haystack needle q)
    _ (fun st => haystack.length - st.1) ?_ _ _
    ⟨le_rfl, inside, rfl, fun q before => missed q (by omega)⟩ (Nat.lt_succ_of_le (Nat.sub_le _ _))
  rintro ⟨hs, h2⟩ ⟨from_, within, last, none⟩
  simp only at from_ within last none
  subst last
  unfold rollTurn
  rw [CString.read_some within]
  simp only [Option.bind_eq_bind, Option.bind_some]
  by_cases found : h1 = hash hs
  · rw [if_neg fun more => more.1 found, if_pos found]
    obtain ⟨room, match_⟩ := (equal hs from_ within).mp found
    exact .inl ⟨_, rfl, match_, fun q before => none q (by omega)⟩
  have noMatch : ∀ q, q + needle.length ≤ hs → ¬ Occurs haystack needle q := by
    intro q ends match_
    rcases Nat.lt_or_eq_of_le ends with before | here
    · exact none q before match_
    · have place : hs - needle.length = q := by omega
      refine found ((equal hs from_ within).mpr ⟨?_, place ▸ match_⟩)
      by_contra early
      exact missed q (by omega) match_
  by_cases zero : haystack.bytes.getD hs 0 = 0
  · rw [if_neg fun more => more.2 zero, if_neg found]
    rw [CString.getD_eq_zero_iff] at zero
    refine .inl ⟨_, rfl, fun q match_ => noMatch q ?_ match_⟩
    exact (CString.inside_of_matchesAt keepsNul_id match_ nonempty).trans zero
  · rw [if_pos ⟨found, zero⟩]
    rw [CString.getD_eq_zero_iff, Nat.not_le] at zero
    refine .inr ⟨_, rfl, ⟨Nat.le_succ_of_le from_, zero, rolls hs from_ zero, ?_⟩,
      Nat.sub_lt_sub_left zero (Nat.lt_succ_self hs)⟩
    exact fun q before => noMatch q (Nat.le_of_lt_succ before)

/-- The byte `back` places before `hs`, or 0 where the search has not read so many. -/
def recent (haystack : CString) (start hs back : Nat) : Nat :=
  if start + back ≤ hs then haystack.word id (hs - back) else 0

theorem word_lt (s : CString) (i : Nat) : s.word id i < 256 := UInt8.toNat_lt _

theorem recent_lt (haystack : CString) (start hs back : Nat) : recent haystack start hs back < 256 := by
  unfold recent
  split
  · exact word_lt haystack _
  · exact Nat.zero_lt_succ 255

theorem recent_zero {start hs : Nat} (from_ : start ≤ hs)
    : recent haystack start hs 0 = haystack.word id hs := if_pos from_

theorem recent_succ (haystack : CString) (start hs back : Nat)
    : recent haystack start (hs + 1) (back + 1) = recent haystack start hs back := by
  unfold recent
  rw [Nat.add_sub_add_right]
  exact if_congr (by omega) rfl rfl

theorem recent_start (haystack : CString) (start back : Nat) (some_ : 0 < back)
    : recent haystack start start back = 0 := if_neg (by omega)

theorem recent_matches {start hs : Nat} (nonempty : 0 < needle.length)
    : (∀ i < needle.length, recent haystack start hs (needle.length - i) = needle.word id i)
      ↔ start + needle.length ≤ hs ∧ Occurs haystack needle (hs - needle.length) := by
  have some_ : needle.word id 0 ≠ 0 := by
    rw [Ne, CString.word_eq_zero_iff keepsNul_id]
    omega
  constructor
  · intro all
    have room : start + needle.length ≤ hs := by
      by_contra short
      have first := all 0 nonempty
      rw [recent, if_neg (by omega)] at first
      exact some_ first.symm
    refine ⟨room, fun i below => ?_⟩
    have here := all i below
    rw [recent, if_pos (by omega)] at here
    have place : hs - needle.length + i = hs - (needle.length - i) := by omega
    rw [place]
    exact here
  · rintro ⟨room, match_⟩ i below
    have place : hs - needle.length + i = hs - (needle.length - i) := by omega
    rw [recent, if_pos (by omega), ← place]
    exact match_ i below

theorem mul_or {a b k : Nat} (small : b < 2 ^ k) : a * 2 ^ k ||| b = a * 2 ^ k + b := by
  rw [← Nat.shiftLeft_eq, ← Nat.shiftLeft_add_eq_or_of_lt small]

/-- `strstr2` finds the first match. -/
theorem strstr2_first {start : Nat} (two : needle.length = 2) (inside : start ≤ haystack.length)
    (missed : Missed haystack needle start)
    : ∃ result, strstr2 haystack needle start = some result ∧ First haystack needle result := by
  have small : ∀ i, needle.word id i < 2 ^ 16 := fun i => Nat.lt_trans (word_lt needle i) (by decide)
  have recentSmall : ∀ hs back, recent haystack start hs back < 2 ^ 16 := fun hs back =>
    Nat.lt_trans (recent_lt haystack start hs back) (by decide)
  unfold strstr2
  rw [CString.read_some (by omega), CString.read_some (by omega)]
  have search := @rollTurn_first haystack needle roll2
    (needle.word id 0 <<< 16 ||| needle.word id 1) start
    (fun hs => recent haystack start hs 2 * 2 ^ 16 + recent haystack start hs 1)
    (by omega) inside missed ?_ ?_
  · rw [two] at search
    simp only [recent_start haystack start _ Nat.two_pos, recent_start haystack start _ Nat.one_pos]
      at search
    exact search
  · intro hs from_ _
    have byte := word_lt haystack hs
    have last := recent_lt haystack start hs 1
    have shifted : (recent haystack start hs 2 * 2 ^ 16 + recent haystack start hs 1) <<< 16 % 2 ^ 32
        = recent haystack start hs 1 * 2 ^ 16 := by
      omega
    simp only [roll2]
    rw [shifted, mul_or (Nat.lt_trans byte (by decide)), recent_succ, recent_succ, recent_zero from_]
  · intro hs _ _
    rw [Nat.shiftLeft_eq, mul_or (small 1), ← recent_matches (by omega), two]
    have one := small 1
    have last := recentSmall hs 1
    constructor
    · intro equal i below
      have cases_ : i = 0 ∨ i = 1 := by omega
      rcases cases_ with rfl | rfl
      · simp only [Nat.sub_zero]
        omega
      · simp only [Nat.reduceSub]
        omega
    · intro all
      rw [← all 0 (by omega), ← all 1 (by omega)]

/-- `strstr3` finds the first match. -/
theorem strstr3_first {start : Nat} (three : needle.length = 3) (inside : start ≤ haystack.length)
    (missed : Missed haystack needle start)
    : ∃ result, strstr3 haystack needle start = some result ∧ First haystack needle result := by
  unfold strstr3
  rw [CString.read_some (by omega), CString.read_some (by omega), CString.read_some (by omega)]
  have packed : needle.word id 0 <<< 24 ||| needle.word id 1 <<< 16 ||| needle.word id 2 <<< 8
      = (needle.word id 0 * 2 ^ 16 + needle.word id 1 * 2 ^ 8 + needle.word id 2) * 2 ^ 8 := by
    have one := word_lt needle 1
    have two := word_lt needle 2
    rw [Nat.shiftLeft_eq, Nat.shiftLeft_eq, Nat.shiftLeft_eq, mul_or (by omega)]
    have front : needle.word id 0 * 2 ^ 24 + needle.word id 1 * 2 ^ 16
        = (needle.word id 0 * 2 ^ 8 + needle.word id 1) * 2 ^ 16 := by omega
    rw [front, mul_or (by omega)]
    ring
  have search := @rollTurn_first haystack needle roll3
    (needle.word id 0 <<< 24 ||| needle.word id 1 <<< 16 ||| needle.word id 2 <<< 8) start
    (fun hs => (recent haystack start hs 3 * 2 ^ 16 + recent haystack start hs 2 * 2 ^ 8
      + recent haystack start hs 1) * 2 ^ 8)
    (by omega) inside missed ?_ ?_
  · rw [three] at search
    simp only [recent_start haystack start 3 (by decide), recent_start haystack start _ Nat.two_pos,
      recent_start haystack start _ Nat.one_pos] at search
    exact search
  · intro hs from_ _
    have byte := word_lt haystack hs
    have last := recent_lt haystack start hs 1
    have before := recent_lt haystack start hs 2
    simp only [roll3]
    rw [mul_or (by omega), recent_succ, recent_succ, recent_succ, recent_zero from_]
    omega
  · intro hs _ _
    rw [packed, ← recent_matches (by omega), three]
    have one := word_lt needle 1
    have two := word_lt needle 2
    have last := recent_lt haystack start hs 1
    have before := recent_lt haystack start hs 2
    constructor
    · intro equal i below
      have cases_ : i = 0 ∨ i = 1 ∨ i = 2 := by omega
      rcases cases_ with rfl | rfl | rfl
      · simp only [Nat.sub_zero]
        omega
      · simp only [Nat.reduceSub]
        omega
      · simp only [Nat.reduceSub]
        omega
    · intro all
      rw [← all 0 (by omega), ← all 1 (by omega), ← all 2 (by omega)]

/-! The table of shifts -/

/-- The hash of the pair that ends at `i`. -/
def pairHash (s : CString) (i : Nat) : Nat := hash2 (s.bytes.getD i 0) (s.bytes.getD (i - 1) 0)

theorem hash2At_eq {s : CString} {i : Nat} (inside : i ≤ s.length) : hash2At s i = some (pairHash s i) := by
  unfold hash2At
  rw [CString.read_some inside, CString.read_some ((Nat.sub_le i 1).trans inside)]
  rfl

/-- With the first bytes of two pairs, their hashes decide the second ones. -/
theorem hash2_inj {a b c : UInt8} (equal : hash2 a c = hash2 b c) : a = b := by
  have first := UInt8.toNat_lt a
  have second := UInt8.toNat_lt b
  have third := UInt8.toNat_lt c
  unfold hash2 sizeSub at equal
  exact UInt8.toNat_inj.mp (by omega)

/-- A table after the first `k` pairs: the last of them with a hash. -/
structure LastPair (needle : CString) (shift : Nat → Nat) (k : Nat) : Prop where
  le : ∀ h, shift h ≤ k
  last : ∀ i, 0 < i → i ≤ k → i ≤ shift (pairHash needle i)

private theorem shiftUpTo_lastPair {k : Nat} (inside : k < needle.length) (small : k < 256)
    : ∃ shift, shiftUpTo needle k = some shift ∧ LastPair needle shift k := by
  induction k with
  | zero => exact ⟨_, rfl, fun _ => le_rfl, fun i pos below => absurd pos (Nat.not_lt.mpr below)⟩
  | succ k ih =>
    obtain ⟨shift, run, holds⟩ := ih (Nat.lt_of_succ_lt inside) (Nat.lt_of_succ_lt small)
    unfold shiftUpTo
    rw [run, hash2At_eq inside.le]
    rw [Nat.mod_eq_of_lt small]
    refine ⟨_, rfl, ?_, ?_⟩
    · intro h
      rcases eq_or_ne h (pairHash needle (k + 1)) with rfl | other
      · rw [Function.update_self]
      · rw [Function.update_of_ne other]
        exact Nat.le_succ_of_le (holds.le h)
    · intro i pos below
      rcases eq_or_ne (pairHash needle i) (pairHash needle (k + 1)) with same | other
      · rw [same, Function.update_self]
        exact below
      · rw [Function.update_of_ne other]
        refine holds.last i pos (Nat.le_of_lt_succ (Nat.lt_of_le_of_ne below fun equal => other ?_))
        rw [equal]

/-- The table of the search: the entry of the last pair is `m1`, and only that pair has it. -/
structure Table (needle : CString) (m1 : Nat) (shift : Nat → Nat) (shift1 : Nat) : Prop where
  le : ∀ h, shift h ≤ m1
  last : ∀ i, 0 < i → i ≤ m1 → i ≤ shift (pairHash needle i)
  full : ∀ h, shift h = m1 → h = pairHash needle m1
  pos : 0 < shift1
  again : ∀ i, 0 < i → i < m1 → pairHash needle i = pairHash needle m1 → shift1 ≤ m1 - i
  shift1_le : shift1 ≤ m1

theorem LastPair.table {m1 : Nat} {shift : Nat → Nat} (holds : LastPair needle shift (m1 - 1))
    (some_ : 0 < m1)
    : Table needle m1 (Function.update shift (pairHash needle m1) m1)
        (m1 - shift (pairHash needle m1)) where
  le := by
    intro h
    rcases eq_or_ne h (pairHash needle m1) with rfl | other
    · rw [Function.update_self]
    · rw [Function.update_of_ne other]
      exact (holds.le h).trans (Nat.sub_le _ _)
  last := by
    intro i pos below
    rcases eq_or_ne (pairHash needle i) (pairHash needle m1) with same | other
    · rw [same, Function.update_self]
      exact below
    · rw [Function.update_of_ne other]
      refine holds.last i pos (Nat.le_sub_one_of_lt (Nat.lt_of_le_of_ne below fun equal => other ?_))
      rw [equal]
  full := by
    intro h equal
    by_contra other
    rw [Function.update_of_ne other] at equal
    have le := holds.le h
    omega
  pos := by
    have le := holds.le (pairHash needle m1)
    omega
  again := by
    intro i pos below same
    have last := holds.last i pos (Nat.le_sub_one_of_lt below)
    rw [same] at last
    omega
  shift1_le := Nat.sub_le _ _

/-! Needles of 4 to 256 bytes -/

theorem byte_eq_iff {s t : CString} {i k : Nat}
    : s.word id i = t.word id k ↔ s.bytes.getD i 0 = t.bytes.getD k 0 := @word_eq_iff id _ _ _ _

theorem pairHash_of_matches {q i : Nat} (pos : 0 < i) (below : i < needle.length)
    (found : Occurs haystack needle q)
    : pairHash haystack (q + i) = pairHash needle i := by
  have before := byte_eq_iff.mp (found (i - 1) (Nat.lt_of_le_of_lt (Nat.sub_le i 1) below))
  have place : q + (i - 1) = q + i - 1 := by omega
  rw [place] at before
  unfold pairHash
  rw [byte_eq_iff.mp (found i below), before]

variable {shift : Nat → Nat} {m1 shift1 : Nat}

/-- The pair at the end of the window rules out the places that would bring an earlier pair there. -/
theorem Table.noneBefore {hs : Nat} (table : Table needle m1 shift shift1)
    (length : m1 + 1 = needle.length) (missed : Missed haystack needle hs)
    : Missed haystack needle (hs + (m1 - shift (pairHash haystack (hs + m1)))) := by
  refine missed.add ?_
  intro d short found
  have hash := pairHash_of_matches (i := m1 - d) (by omega) (by omega) found
  have place : hs + d + (m1 - d) = hs + m1 := by omega
  rw [place] at hash
  have last := table.last (m1 - d) (by omega) (Nat.sub_le _ _)
  rw [← hash] at last
  omega

/-- The loop that skips pairs stops at a pair of the needle, or behind the known end. -/
theorem skip_found {hs end_ : Nat} (table : Table needle m1 shift shift1)
    (length : m1 + 1 = needle.length) (some_ : 0 < m1) (known : end_ + needle.length ≤ haystack.length)
    (near : hs ≤ end_) (missed : Missed haystack needle hs)
    : ∃ result, iterate (skipTurn haystack shift m1 end_) (haystack.length + 1) hs = some result
      ∧ ∃ last, hs ≤ last ∧ last ≤ end_ ∧ result = (last + m1, shift (pairHash haystack (last + m1)))
        ∧ Missed haystack needle last := by
  refine @Progresses.iterate _ _ _ (fun place => hs ≤ place ∧ place ≤ end_ ∧ Missed haystack needle place)
    _ (fun place => end_ - place) ?_ _ _ ⟨le_rfl, near, missed⟩ (by omega)
  rintro place ⟨from_, within, none⟩
  unfold skipTurn
  rw [hash2At_eq (by omega)]
  simp only [Option.bind_eq_bind, Option.bind_some]
  by_cases more : shift (pairHash haystack (place + m1)) = 0 ∧ place + m1 ≤ end_
  · rw [if_pos more]
    have next := table.noneBefore length none
    rw [more.1] at next
    exact .inr ⟨_, rfl, ⟨from_.trans (Nat.le_add_right _ _), more.2, next⟩,
      Nat.sub_lt_sub_left (Nat.lt_of_lt_of_le (Nat.lt_add_of_pos_right some_) more.2)
        (Nat.lt_add_of_pos_right some_)⟩
  · rw [if_neg more]
    exact .inl ⟨_, rfl, place, from_, within, rfl, none⟩

/-- No place before `hs` matches, the needle fits at `end`, the search is at most one step ahead of it,
and the filter stays inside of the needle.
-/
structure Horspool.Holds (haystack needle : CString) (m1 : Nat) (st : Horspool) : Prop where
  missed : Missed haystack needle st.hs
  known : st.end_ + needle.length ≤ haystack.length
  near : st.hs ≤ st.end_ + m1
  filter : 15 ≤ m1 → st.offset + 8 ≤ m1

/-- After a match of the hash of the last pair, the next such pair is `shift1` places later. -/
theorem Table.noneBefore_shift1 {hs : Nat} (table : Table needle m1 shift shift1)
    (length : m1 + 1 = needle.length)
    (missed : Missed haystack needle hs)
    (hash : pairHash haystack (hs + m1) = pairHash needle m1)
    (differ : ¬ Occurs haystack needle hs)
    : Missed haystack needle (hs + shift1) := by
  have le := table.shift1_le
  refine missed.add ?_
  intro d short found
  rcases Nat.eq_zero_or_pos d with rfl | pos
  · exact differ found
  · have pair := pairHash_of_matches (i := m1 - d) (by omega) (by omega) found
    have place : hs + d + (m1 - d) = hs + m1 := by omega
    rw [place, hash] at pair
    have far := table.again (m1 - d) (by omega) (by omega) pair.symm
    omega

private theorem matches_of_front {hs : Nat} (length : m1 + 1 = needle.length) (some_ : 0 < m1)
    (hash : pairHash haystack (hs + m1) = pairHash needle m1)
    (front : ∀ l < m1, haystack.bytes.getD (hs + l) 0 = needle.bytes.getD (0 + l) 0)
    : Occurs haystack needle hs := by
  intro i below
  rcases Nat.lt_or_eq_of_le (Nat.le_of_lt_succ (length.symm ▸ below)) with inFront | rfl
  · have same := front i inFront
    rw [Nat.zero_add] at same
    exact byte_eq_iff.mpr same
  · have before := front (i - 1) (Nat.sub_lt some_ Nat.one_pos)
    have place : hs + (i - 1) = hs + i - 1 := by omega
    rw [Nat.zero_add, place] at before
    unfold pairHash at hash
    rw [before] at hash
    exact byte_eq_iff.mpr (hash2_inj hash)

def Horspool.left (haystack : CString) (st : Horspool) : Nat := haystack.length - st.hs

/-- The search is never so far ahead that reading on by 2048 bytes could miss a place. -/
theorem Horspool.Holds.extended {st : Horspool} (holds : st.Holds haystack needle m1)
    (length : m1 + 1 = needle.length) (small : m1 < 256)
    : ∃ end_, extendEnd haystack m1 st = some end_ ∧ end_ + needle.length ≤ haystack.length
      ∧ (st.hs > end_ → haystack.length < st.hs + needle.length) := by
  have known := holds.known
  have near := holds.near
  unfold extendEnd
  by_cases ahead : st.hs > st.end_
  · rw [if_pos ahead, CString.strnlen_eq (by omega)]
    exact ⟨_, rfl, by omega, fun above => by omega⟩
  · rw [if_neg ahead]
    exact ⟨_, rfl, known, fun above => absurd above ahead⟩

theorem Horspool.Holds.filtered {st : Horspool} {hs : Nat} (holds : st.Holds haystack needle m1)
    (length : m1 + 1 = needle.length) (inside : hs + needle.length ≤ haystack.length)
    : ∃ filter, passesFilter haystack needle m1 hs st.offset = some filter
      ∧ (filter = false → ¬ Occurs haystack needle hs) := by
  unfold passesFilter
  by_cases short : m1 < 15
  · rw [if_pos short]
    exact ⟨true, rfl, nofun⟩
  · rw [if_neg short]
    have filter := holds.filter (Nat.not_lt.mp short)
    obtain ⟨equal, compare, iff⟩ := CString.memEqual_eq (s := haystack) (t := needle)
      (i := hs + st.offset) (k := st.offset) (n := 8) (by omega) (by omega)
    refine ⟨equal, compare, ?_⟩
    rintro rfl found
    refine Bool.noConfusion (iff.mpr fun l below => ?_)
    have letter := found (st.offset + l) (by omega)
    rw [← Nat.add_assoc] at letter
    exact byte_eq_iff.mp letter

/-- A turn finds the first match, finds that there is none, or goes on. -/
theorem horspoolTurn_progresses (table : Table needle m1 shift shift1)
    (length : m1 + 1 = needle.length) (some_ : 0 < m1) (small : m1 < 256)
    : Progresses (horspoolTurn haystack needle shift m1 shift1) (Horspool.Holds haystack needle m1)
        (First haystack needle) (Horspool.left haystack) := by
  intro st holds
  unfold horspoolTurn
  obtain ⟨end_, extend, known', ends⟩ := holds.extended length small
  rw [extend]
  simp only [Option.bind_eq_bind, Option.bind_some]
  by_cases ahead : st.hs > end_
  · rw [if_pos ahead]
    refine .inl ⟨_, rfl, fun q found => ?_⟩
    have within := CString.inside_of_matchesAt keepsNul_id found (by omega)
    exact holds.missed q (by omega) found
  rw [if_neg ahead]
  obtain ⟨result, run, last, from_, within, rfl, missed⟩ :=
    skip_found table length some_ known' (Nat.not_lt.mp ahead) holds.missed
  rw [run]
  simp only [Option.bind_some]
  have le := table.le (pairHash haystack (last + m1))
  by_cases part : shift (pairHash haystack (last + m1)) < m1
  · -- the pair stands inside of the needle
    rw [if_pos part]
    have next := table.noneBefore length missed
    have place : last + m1 - shift (pairHash haystack (last + m1))
        = last + (m1 - shift (pairHash haystack (last + m1))) := Nat.add_sub_assoc le last
    rw [place]
    refine .inr ⟨_, rfl, ⟨next, known', ?_, holds.filter⟩, ?_⟩
    · simp only
      omega
    · unfold Horspool.left
      simp only
      omega
  rw [if_neg part]
  have full : shift (pairHash haystack (last + m1)) = m1 := Nat.le_antisymm le (Nat.not_lt.mp part)
  have hash := table.full _ full
  have pos := table.pos
  have shift1_le := table.shift1_le
  rw [full, Nat.add_sub_cancel]
  -- the search goes on behind a window that does not match
  have goesOn : ∀ offset, ¬ Occurs haystack needle last → (15 ≤ m1 → offset + 8 ≤ m1)
      → Horspool.Holds haystack needle m1 ⟨last + shift1, end_, offset⟩
        ∧ Horspool.left haystack ⟨last + shift1, end_, offset⟩ < st.left haystack := by
    intro offset differ filter
    refine ⟨⟨table.noneBefore_shift1 length missed hash differ, known', ?_, filter⟩, ?_⟩
    · simp only
      omega
    · unfold Horspool.left
      simp only
      omega
  obtain ⟨filter, runFilter, rejects⟩ := @Horspool.Holds.filtered _ _ _ _ last holds length (by omega)
  rw [runFilter]
  cases filter with
  | false =>
    exact .inr ⟨_, rfl, goesOn _ (rejects rfl) holds.filter⟩
  | true =>
    obtain ⟨equal, compare, iff⟩ := CString.memEqual_eq (s := haystack) (t := needle)
      (i := last) (k := 0) (n := m1) (by omega) (by omega)
    rw [compare]
    cases equal with
    | true =>
      exact .inl ⟨_, rfl, matches_of_front length some_ hash (iff.mp rfl), missed⟩
    | false =>
      refine .inr ⟨_, rfl, goesOn _ ?_ ?_⟩
      · intro found
        refine Bool.noConfusion (iff.mpr fun l below => ?_)
        rw [Nat.zero_add]
        exact byte_eq_iff.mp (found l (by omega))
      · intro long
        have filter := holds.filter long
        unfold sizeSub
        split
        · omega
        · omega

/-! The search -/

theorem word_drop (s : CString) (start i : Nat) : (s.drop start).word id i = s.word id (start + i) := by
  unfold CString.word CString.drop
  simp only [List.getD_eq_getElem?_getD, List.getElem?_drop]

private theorem firstMatch_drop {start : Nat} {result : Option Nat}
    (missed : Missed haystack needle start)
    (first : FirstMatch (needle.word id) ((haystack.drop start).word id) needle.length result)
    : First haystack needle (result.map (start + ·)) := by
  have moved : ∀ q, MatchesAt (needle.word id) ((haystack.drop start).word id) needle.length q
      ↔ Occurs haystack needle (start + q) := by
    intro q
    refine forall₂_congr fun i _ => ?_
    rw [word_drop, Nat.add_assoc]
  cases result with
  | none =>
    intro q found
    rcases Nat.lt_or_ge q start with before | from_
    · exact missed q before found
    · obtain ⟨d, rfl⟩ := Nat.exists_eq_add_of_le from_
      exact first d ((moved d).mpr found)
  | some place =>
    refine ⟨(moved place).mp first.1, ?_⟩
    exact missed.add fun d short found => first.2 d short ((moved d).mpr found)

/-- Needles of at least four bytes, from the first place of their first byte on. -/
theorem strstrFrom_first {hs : Nat} (four : 4 ≤ needle.length) (inside : hs ≤ haystack.length)
    (missed : Missed haystack needle hs)
    : ∃ result, strstrFrom haystack needle hs = some result ∧ First haystack needle result := by
  unfold strstrFrom
  have ahead : needle.length ≤ needle.length ||| 512 := Nat.left_le_or
  rw [CString.strlen_eq]
  simp only [Option.bind_eq_bind, Option.bind_some, CString.strnlen_eq inside]
  by_cases short : min (needle.length ||| 512) (haystack.length - hs) < needle.length
  · rw [if_pos short]
    refine ⟨none, rfl, fun q found => ?_⟩
    have within := CString.inside_of_matchesAt keepsNul_id found (by omega)
    have before : q < hs := by omega
    exact missed q before found
  rw [if_neg short]
  obtain ⟨equal, compare, iff⟩ := CString.memEqual_eq (s := haystack) (t := needle)
    (i := hs) (k := 0) (n := needle.length) (by omega) (by omega)
  rw [compare]
  cases equal with
  | true =>
    refine ⟨_, rfl, fun i below => ?_, missed⟩
    have letter := iff.mp rfl i below
    rw [Nat.zero_add] at letter
    exact byte_eq_iff.mpr letter
  | false =>
    by_cases long : needle.length > 256
    · rw [if_pos long]
      have rest : (haystack.drop hs).length = haystack.length - hs := List.length_drop
      obtain ⟨verdict, run, right⟩ := @twoWayLongNeedle_verdict id (haystack.drop hs) needle
        (min (needle.length ||| 512) (haystack.length - hs)) _ keepsNul_id
        compares_memEqual (by omega) (rest ▸ min_le_right _ _)
      rw [run]
      exact ⟨_, rfl, firstMatch_drop missed right.1⟩
    · rw [if_neg long]
      obtain ⟨shift, fill, lastPair⟩ := @shiftUpTo_lastPair needle
        (needle.length - 1 - 1) (by omega) (by omega)
      rw [fill, hash2At_eq (Nat.sub_le _ 1)]
      rw [Nat.mod_eq_of_lt (by omega)]
      exact (horspoolTurn_progresses (lastPair.table (by omega)) (by omega) (by omega)
        (by omega)).iterate _ ⟨missed, by simp only; omega, by simp only; omega,
          fun _ => by simp only; omega⟩ (Nat.lt_succ_of_le (Nat.sub_le _ _))

/-- `strstr` returns the first occurrence of the needle or `NULL`, and reads no byte behind the terminator
of either string.
-/
theorem strstr_first (haystack needle : CString)
    : ∃ result, strstr haystack needle = some result
      ∧ CString.FirstOccurrence id haystack needle result := by
  unfold strstr
  rw [CString.read_some (Nat.zero_le _)]
  simp only [Option.bind_eq_bind, Option.bind_some]
  by_cases empty : needle.bytes.getD 0 0 = 0
  · rw [if_pos empty]
    exact ⟨_, rfl, CString.firstOccurrence_empty
      (Nat.le_zero.mp (CString.getD_eq_zero_iff.mp empty))⟩
  rw [if_neg empty]
  rw [CString.getD_eq_zero_iff, Nat.not_le] at empty
  suffices found : ∃ result, _ = some result ∧ First haystack needle result by
    obtain ⟨result, run, first⟩ := found
    exact ⟨result, run, CString.firstOccurrence_of_firstMatch keepsNul_id empty first⟩
  obtain ⟨first, run, next⟩ := @CString.findChar_found id haystack
    (needle.bytes.getD 0 0) 0 keepsNul_id (Nat.zero_le _)
  rw [run]
  cases first with
  | none =>
    refine ⟨none, rfl, fun q found => ?_⟩
    have within := CString.inside_of_matchesAt keepsNul_id found empty
    have letter := byte_eq_iff.mp (found 0 empty)
    exact next q (Nat.zero_le q) (by omega) letter
  | some hs =>
    obtain ⟨_, inside, letter, others⟩ := next
    have missed : Missed haystack needle hs :=
      fun q before found => others q (Nat.zero_le q) before (byte_eq_iff.mp (found 0 empty))
    rw [CString.read_some (i := 1) empty]
    simp only [Option.bind_some]
    by_cases one : needle.bytes.getD 1 0 = 0
    · rw [if_pos one]
      rw [CString.getD_eq_zero_iff] at one
      refine ⟨_, rfl, fun i below => ?_, missed⟩
      have start : i = 0 := by omega
      rw [start]
      exact byte_eq_iff.mpr letter
    rw [if_neg one]
    rw [CString.getD_eq_zero_iff, Nat.not_le] at one
    rw [CString.read_some (i := 2) one]
    simp only [Option.bind_some]
    by_cases two : needle.bytes.getD 2 0 = 0
    · rw [if_pos two]
      rw [CString.getD_eq_zero_iff] at two
      exact strstr2_first (Nat.le_antisymm two one) inside missed
    rw [if_neg two]
    rw [CString.getD_eq_zero_iff, Nat.not_le] at two
    rw [CString.read_some (i := 3) two]
    simp only [Option.bind_some]
    by_cases three : needle.bytes.getD 3 0 = 0
    · rw [if_pos three]
      rw [CString.getD_eq_zero_iff] at three
      exact strstr3_first (Nat.le_antisymm three two) inside missed
    rw [if_neg three]
    rw [CString.getD_eq_zero_iff, Nat.not_le] at three
    exact strstrFrom_first three inside missed

end Nglibc.Strings
