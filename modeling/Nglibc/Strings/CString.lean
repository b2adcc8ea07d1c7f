import Nglibc.Lib.Iteration
import Nglibc.Lib.WordSearch

/-! NUL-terminated strings and the reads that the search functions make. A read behind the terminator is
a fault.
-/

namespace Nglibc.Strings

open Nglibc.Words List

/-- A NUL-terminated string in an object of at most `PTRDIFF_MAX` bytes. -/
structure CString where
  bytes : List UInt8
  noNul : 0 ∉ bytes
  object : bytes.length + 1 < 2 ^ 63

namespace CString

abbrev length (s : CString) : Nat := s.bytes.length

/-- `s + start`, for a place up to the terminator. -/
def drop (s : CString) (start : Nat) : CString where
  bytes := s.bytes.drop start
  noNul := fun member => s.noNul (mem_of_mem_drop member)
  object := by
    have object := s.object
    rw [length_drop]
    omega

/-- The byte at `i`: the terminator is the last one that may be read. -/
def read (s : CString) (i : Nat) : Option UInt8 := (s.bytes ++ [0])[i]?

/-- `strnlen (s + start, n)` -/
def strnlen (s : CString) (start : Nat) : Nat → Option Nat
  | 0 => some 0
  | n + 1 => do
    let c ← s.read start
    if c = 0 then some 0 else (· + 1) <$> s.strnlen (start + 1) n

/-- `strlen (s)`, which ends at the terminator. -/
def strlen (s : CString) : Option Nat := s.strnlen 0 (s.length + 1)

/-- `memcmp (s + i, t + k, n) == 0`, which may read all of the two ranges. -/
def memEqual (s t : CString) (i k : Nat) : Nat → Option Bool
  | 0 => some true
  | n + 1 => do
    let a ← s.read i
    let b ← t.read k
    let rest ← memEqual s t (i + 1) (k + 1) n
    some (a = b && rest)

/-- `strncasecmp (s + i, t + k, n) == 0` -/
def strncaseEqual (canonElement : UInt8 → UInt8) (s t : CString) (i k : Nat) : Nat → Option Bool
  | 0 => some true
  | n + 1 => do
    let a ← s.read i
    let b ← t.read k
    if canonElement a ≠ canonElement b then some false
    else if a = 0 then some true
    else strncaseEqual canonElement s t (i + 1) (k + 1) n

def findCharTurn (s : CString) (canonElement : UInt8 → UInt8) (wanted : UInt8) (place : Nat)
    : Option (Option Nat ⊕ Nat) := do
  let c ← canonElement <$> s.read place
  if wanted = c then some (.inl (some place))
  else if c = 0 then some (.inl none)
  else some (.inr (place + 1))

/-- The next place of a character from `start` on. -/
def findChar (s : CString) (canonElement : UInt8 → UInt8) (wanted : UInt8) (start : Nat)
    : Option (Option Nat) :=
  iterate (s.findCharTurn canonElement wanted) (s.length + 1) start

/-- The bytes behind a function on bytes, as numbers; the terminator and everything behind it read as
NUL.
-/
def word (canonElement : UInt8 → UInt8) (s : CString) : Nat → Nat :=
  fun i => (canonElement (s.bytes.getD i 0)).toNat

variable {s t : CString} {canonElement : UInt8 → UInt8} {i k n start : Nat}

theorem read_some (inside : i ≤ s.length) : s.read i = some (s.bytes.getD i 0) := by
  unfold read
  rcases Nat.lt_or_eq_of_le inside with before | rfl
  · rw [getElem?_append_left before, getD_eq_getElem?_getD, getElem?_eq_getElem before,
      Option.getD_some]
  · simp [length, getD_eq_getElem?_getD]

theorem getD_ne_zero (inside : i < s.length) : s.bytes.getD i 0 ≠ 0 := by
  intro zero
  have member : s.bytes.getD i 0 ∈ s.bytes := by
    rw [getD_eq_getElem?_getD, getElem?_eq_getElem inside]
    exact getElem_mem inside
  exact s.noNul (zero ▸ member)

theorem getD_of_le (behind : s.length ≤ i) : s.bytes.getD i 0 = 0 := by
  rw [getD_eq_getElem?_getD, getElem?_eq_none behind, Option.getD_none]

theorem getD_eq_zero_iff : s.bytes.getD i 0 = 0 ↔ s.length ≤ i :=
  ⟨fun zero => Nat.not_lt.mp fun inside => getD_ne_zero inside zero, getD_of_le⟩

theorem strnlen_eq (inside : start ≤ s.length) : s.strnlen start n = some (min n (s.length - start)) := by
  induction n generalizing start with
  | zero => simp [strnlen]
  | succ n ih =>
    unfold strnlen
    rw [read_some inside]
    simp only [Option.bind_eq_bind, Option.bind_some]
    rcases Nat.lt_or_eq_of_le inside with before | rfl
    · rw [if_neg (getD_ne_zero before), ih before]
      simp only [Option.map_eq_map, Option.map_some, Option.some.injEq]
      omega
    · rw [if_pos (getD_of_le le_rfl), Nat.sub_self, Nat.min_zero]

theorem strlen_eq (s : CString) : s.strlen = some s.length := by
  unfold strlen
  rw [strnlen_eq (Nat.zero_le _), Nat.sub_zero, min_eq_right (Nat.le_succ _)]

theorem memEqual_eq (left : i + n ≤ s.length + 1) (right : k + n ≤ t.length + 1)
    : ∃ equal, s.memEqual t i k n = some equal
      ∧ (equal = true ↔ ∀ l < n, s.bytes.getD (i + l) 0 = t.bytes.getD (k + l) 0) := by
  induction n generalizing i k with
  | zero => exact ⟨true, rfl, by simp⟩
  | succ n ih =>
    obtain ⟨rest, run, equal⟩ := ih (i := i + 1) (k := k + 1) (by omega) (by omega)
    refine ⟨decide (s.bytes.getD i 0 = t.bytes.getD k 0) && rest, ?_, ?_⟩
    · unfold memEqual
      rw [read_some (by omega), read_some (by omega), run]
      rfl
    · rw [Bool.and_eq_true, decide_eq_true_eq, equal, Nat.forall_lt_succ_left]
      simp only [Nat.add_zero, Nat.add_right_comm _ 1, Nat.add_assoc]

theorem strncaseEqual_eq (left : i + n ≤ s.length) (right : k + n ≤ t.length)
    : ∃ equal, strncaseEqual canonElement s t i k n = some equal ∧ (equal = true
        ↔ ∀ l < n, canonElement (s.bytes.getD (i + l) 0) = canonElement (t.bytes.getD (k + l) 0)) := by
  induction n generalizing i k with
  | zero => exact ⟨true, rfl, by simp⟩
  | succ n ih =>
    obtain ⟨rest, run, equal⟩ := ih (i := i + 1) (k := k + 1) (by omega) (by omega)
    unfold strncaseEqual
    rw [read_some (by omega), read_some (by omega)]
    simp only [Option.bind_eq_bind, Option.bind_some]
    by_cases same : canonElement (s.bytes.getD i 0) = canonElement (t.bytes.getD k 0)
    · rw [if_neg (not_not.mpr same), if_neg (getD_ne_zero (by omega))]
      rw [Nat.forall_lt_succ_left]
      simp only [Nat.add_right_comm _ 1, Nat.add_assoc] at equal
      exact ⟨rest, run, equal.trans (and_iff_right same).symm⟩
    · rw [if_pos same]
      exact ⟨false, rfl, nofun, fun all => absurd (all 0 (Nat.succ_pos n)) same⟩

def KeepsNul (canonElement : UInt8 → UInt8) : Prop := ∀ c, canonElement c = 0 ↔ c = 0

theorem word_eq_zero_iff (keeps : KeepsNul canonElement) : s.word canonElement i = 0 ↔ s.length ≤ i := by
  unfold word
  have zero : (canonElement (s.bytes.getD i 0)).toNat = 0 ↔ canonElement (s.bytes.getD i 0) = 0 :=
    ⟨fun h => UInt8.toNat_inj.mp h, fun h => congrArg UInt8.toNat h⟩
  rw [zero, keeps, getD_eq_zero_iff]

theorem canonElement_eq_zero_iff {s : CString} {i : Nat} (keeps : KeepsNul canonElement)
    : canonElement (s.bytes.getD i 0) = 0 ↔ s.length ≤ i :=
  (keeps _).trans getD_eq_zero_iff

/-- The first loop finds the next place of its character, or there is none. -/
theorem findChar_found {haystack : CString} {wanted : UInt8} {start : Nat} (keeps : KeepsNul canonElement)
    (inside : start ≤ haystack.length)
    : ∃ first, haystack.findChar canonElement wanted start = some first ∧ match first with
        | some first => start ≤ first ∧ first ≤ haystack.length
            ∧ canonElement (haystack.bytes.getD first 0) = wanted
            ∧ ∀ q, start ≤ q → q < first → canonElement (haystack.bytes.getD q 0) ≠ wanted
        | none => ∀ q, start ≤ q → q < haystack.length
            → canonElement (haystack.bytes.getD q 0) ≠ wanted := by
  refine @Progresses.iterate _ _ _ (fun q => start ≤ q ∧ q ≤ haystack.length
    ∧ ∀ q', start ≤ q' → q' < q → canonElement (haystack.bytes.getD q' 0) ≠ wanted)
    _ (fun q => haystack.length - q) ?_ _ _
    ⟨le_rfl, inside, fun q from_ before => absurd before (Nat.not_lt.mpr from_)⟩
    (Nat.lt_succ_of_le (Nat.sub_le _ _))
  rintro q ⟨from_, within, missed⟩
  unfold findCharTurn
  rw [read_some within]
  simp only [Option.bind_eq_bind, Option.map_eq_map, Option.map_some, Option.bind_some]
  by_cases same : wanted = canonElement (haystack.bytes.getD q 0)
  · rw [if_pos same]
    exact .inl ⟨_, rfl, from_, within, same.symm, missed⟩
  rw [if_neg same]
  by_cases zero : canonElement (haystack.bytes.getD q 0) = 0
  · rw [if_pos zero]
    have end_ := (canonElement_eq_zero_iff keeps).mp zero
    exact .inl ⟨_, rfl, fun q' after before => missed q' after (Nat.lt_of_lt_of_le before end_)⟩
  · rw [if_neg zero]
    rw [canonElement_eq_zero_iff keeps, Nat.not_le] at zero
    refine .inr ⟨_, rfl, ⟨Nat.le_succ_of_le from_, zero, ?_⟩,
      Nat.sub_lt_sub_left zero (Nat.lt_succ_self q)⟩
    intro q' after before
    rcases Nat.eq_or_lt_of_le (Nat.le_of_lt_succ before) with rfl | earlier
    · exact fun equal => same equal.symm
    · exact missed q' after earlier

variable {haystack needle : CString}

theorem inside_of_matchesAt {q : Nat} (keeps : KeepsNul canonElement)
    (found : MatchesAt (needle.word canonElement) (haystack.word canonElement) needle.length q)
    (nonempty : 0 < needle.length)
    : q + needle.length ≤ haystack.length := by
  have last := found (needle.length - 1) (Nat.sub_lt nonempty Nat.one_pos)
  have some_ : needle.word canonElement (needle.length - 1) ≠ 0 := by
    rw [Ne, word_eq_zero_iff keeps, Nat.not_le]
    exact Nat.sub_lt nonempty Nat.one_pos
  rw [← last, Ne, word_eq_zero_iff keeps] at some_
  omega

/-- The needle occurs in the haystack at `q` after a function on both. -/
def Occurs (canonElement : UInt8 → UInt8) (haystack needle : CString) (q : Nat) : Prop :=
  needle.bytes.map canonElement <+: (haystack.bytes.drop q).map canonElement

def FirstOccurrence (canonElement : UInt8 → UInt8) (haystack needle : CString) : Option Nat → Prop
  | some q => q ≤ haystack.length ∧ Occurs canonElement haystack needle q
      ∧ ∀ q' < q, ¬ Occurs canonElement haystack needle q'
  | none => ∀ q, ¬ Occurs canonElement haystack needle q

theorem word_of_lt (inside : i < s.length) : s.word canonElement i = (canonElement s.bytes[i]).toNat := by
  unfold word
  rw [getD_eq_getElem?_getD, getElem?_eq_getElem inside, Option.getD_some]

/-- An occurrence is a match of the words. -/
theorem occurs_iff {q : Nat} (keeps : KeepsNul canonElement) (nonempty : 0 < needle.length)
    : Occurs canonElement haystack needle q
      ↔ MatchesAt (needle.word canonElement) (haystack.word canonElement) needle.length q := by
  unfold Occurs
  rw [prefix_iff_getElem]
  constructor
  · rintro ⟨fits, same⟩ i below
    rw [length_map, length_map, length_drop] at fits
    have inside : q + i < haystack.length := by
      unfold length at below ⊢
      omega
    have letter := same i (by rw [length_map]; exact below)
    rw [getElem_map, getElem_map, getElem_drop] at letter
    rw [word_of_lt inside, word_of_lt below, letter]
  · intro found
    have within := inside_of_matchesAt keeps found nonempty
    refine ⟨?_, ?_⟩
    · rw [length_map, length_map, length_drop]
      exact Nat.le_sub_of_add_le' within
    · intro i below
      rw [length_map] at below
      have inside : q + i < haystack.length :=
        Nat.lt_of_lt_of_le (Nat.add_lt_add_left below q) within
      have letter := found i below
      rw [word_of_lt inside, word_of_lt below] at letter
      rw [getElem_map, getElem_map, getElem_drop]
      exact (UInt8.toNat_inj.mp letter).symm

theorem firstOccurrence_of_firstMatch {result : Option Nat} (keeps : KeepsNul canonElement)
    (nonempty : 0 < needle.length)
    (first : FirstMatch (needle.word canonElement) (haystack.word canonElement) needle.length result)
    : FirstOccurrence canonElement haystack needle result := by
  cases result with
  | none => exact fun q occurs => first q ((occurs_iff keeps nonempty).mp occurs)
  | some q =>
    have within := inside_of_matchesAt keeps first.1 nonempty
    exact ⟨(Nat.le_add_right _ _).trans within, (occurs_iff keeps nonempty).mpr first.1,
      fun q' before occurs => first.2 q' before ((occurs_iff keeps nonempty).mp occurs)⟩

theorem firstOccurrence_empty (empty : needle.length = 0)
    : FirstOccurrence canonElement haystack needle (some 0) := by
  refine ⟨Nat.zero_le _, ?_, fun q before => absurd before (Nat.not_lt_zero q)⟩
  unfold Occurs
  rw [length_eq_zero_iff.mp empty]
  exact nil_prefix

end CString

end Nglibc.Strings
