import Nglibc.Strings.CriticalFactorization
import Nglibc.Strings.CString

/-! The Two-Way searches of `string/str-two-way.h` as `strstr` and `strcasestr` use them: `AVAILABLE` finds
out the length of the haystack piece by piece. The sums of indices stay below 2^64 because no object is
longer than `PTRDIFF_MAX`.
-/

namespace Nglibc.Strings

open Nglibc.Words

section Parts

variable (canonElement : UInt8 → UInt8) (cmpFunc : CString → CString → Nat → Nat → Nat → Option Bool)
  (haystack needle : CString)

/-- `AVAILABLE`, with the new value of `h_l`. -/
def available (haystackLen j needleLen : Nat) : Option (Bool × Nat) :=
  if j + needleLen ≤ haystackLen then some (true, haystackLen)
  else do
    let more ← haystack.strnlen haystackLen (needleLen + 512)
    some (decide (j + needleLen ≤ haystackLen + more), haystackLen + more)

/-- The scan for matches in the right half, from `i` to `stop`. -/
def matchRight (stop j i : Nat) : Option Nat :=
  if i < stop then do
    let a ← needle.read i
    let b ← haystack.read (i + j)
    if canonElement a = canonElement b then matchRight stop j (i + 1) else some i
  else some i
termination_by stop - i

/-- The scan for matches in the left half. The argument is `i + 1`, which the code compares with `memory`
and which is 0 where `i` is `SIZE_MAX`.
-/
def matchLeft (memory j : Nat) : Nat → Option Nat
  | 0 => some 0
  | i + 1 =>
    if memory < i + 1 then do
      let a ← needle.read i
      let b ← haystack.read (i + j)
      if canonElement a = canonElement b then matchLeft memory j i else some (i + 1)
    else some (i + 1)

/-- The second loop that fills `shift_table`, from `i` on. -/
def shiftTableFrom (needle : List UInt8) (needleLen : Nat) (table : UInt8 → Nat) (i : Nat)
    : UInt8 → Nat :=
  match needle with
  | [] => table
  | b :: rest =>
    shiftTableFrom rest needleLen (Function.update table (canonElement b) (needleLen - i - 1)) (i + 1)

def shiftTable : UInt8 → Nat :=
  shiftTableFrom canonElement needle.bytes needle.length (fun _ => needle.length) 0

structure TwoWay where
  j : Nat
  memory : Nat
  haystackLen : Nat
  deriving DecidableEq, Repr

/-- The place that is returned, or none for NULL, and `haystack_len` at the end. -/
abbrev Verdict := Option Nat × Nat

/-- The scans of the two halves, the right one up to `stop`, and the step that follows from them. A
search for a periodic needle remembers `needle_len - period` letters behind a shift, the others none.
-/
def scanTurn (stop suffix period remembered haystackLen : Nat) (st : TwoWay)
    : Option (Verdict ⊕ TwoWay) := do
  let i ← matchRight canonElement haystack needle stop st.j (max suffix st.memory)
  if stop ≤ i then
    let left ← matchLeft canonElement haystack needle st.memory st.j suffix
    if left < st.memory + 1 then some (.inl (some st.j, haystackLen))
    else some (.inr ⟨st.j + period, remembered, haystackLen⟩)
  else some (.inr ⟨st.j + (i - suffix + 1), 0, haystackLen⟩)

/-- One turn of the loops of `two_way_long_needle`, which check the last byte of the window first. -/
def longTurn (table : UInt8 → Nat) (suffix period remembered : Nat) (st : TwoWay)
    : Option (Verdict ⊕ TwoWay) := do
  let needleLen := needle.length
  let (more, haystackLen) ← available haystack st.haystackLen st.j needleLen
  if more = false then some (.inl (none, haystackLen))
  else
    let last ← haystack.read (st.j + (needleLen - 1))
    let shift := table (canonElement last)
    if 0 < shift then
      let shift := if st.memory ≠ 0 ∧ shift < period then needleLen - period else shift
      some (.inr ⟨st.j + shift, 0, haystackLen⟩)
    else
      scanTurn canonElement haystack needle (needleLen - 1) suffix period remembered haystackLen st

/-- `two_way_long_needle`; `cmpFunc` decides `CMP_FUNC (p1, p2, l) == 0`. -/
def twoWayLongNeedle (haystackLen : Nat) : Option Verdict := do
  let (suffix, period) ← criticalFactorization (fun c => (canonElement c).toNat) needle.bytes
  let table := shiftTable canonElement needle
  let fuel := haystack.length + 2
  if ← cmpFunc needle needle 0 period suffix then
    iterate (longTurn canonElement haystack needle table suffix period (needle.length - period)) fuel
      ⟨0, 0, haystackLen⟩
  else
    let period := max suffix (needle.length - suffix) + 1
    iterate (longTurn canonElement haystack needle table suffix period 0) fuel ⟨0, 0, haystackLen⟩

end Parts

variable {canonElement : UInt8 → UInt8} {haystack needle : CString} {haystackLen j : Nat}

/-- `AVAILABLE` finds out whether the needle fits, if the scan is not ahead of the known length. -/
theorem available_eq (known : haystackLen ≤ haystack.length) (near : j ≤ haystackLen) (needleLen : Nat)
    : ∃ haystackLen', available haystack haystackLen j needleLen
        = some (decide (j + needleLen ≤ haystack.length), haystackLen')
      ∧ haystackLen' ≤ haystack.length
      ∧ (j + needleLen ≤ haystack.length → j + needleLen ≤ haystackLen') := by
  unfold available
  by_cases enough : j + needleLen ≤ haystackLen
  · rw [if_pos enough]
    have fits := decide_eq_true (enough.trans known)
    rw [fits]
    exact ⟨haystackLen, rfl, known, fun _ => enough⟩
  · rw [if_neg enough, CString.strnlen_eq known]
    simp only [Option.bind_eq_bind, Option.bind_some, Option.some.injEq, Prod.mk.injEq, decide_eq_decide]
    exact ⟨_, ⟨by omega, rfl⟩, by omega, fun _ => by omega⟩

theorem word_eq_iff {s t : CString} {i k : Nat}
    : s.word canonElement i = t.word canonElement k
      ↔ canonElement (s.bytes.getD i 0) = canonElement (t.bytes.getD k 0) :=
  UInt8.toNat_inj

/-- The scan in the right half stops at the first mismatch, by induction on what is left. -/
theorem matchRight_eq {stop i : Nat} (inNeedle : stop ≤ needle.length)
    (inHaystack : j + stop ≤ haystack.length) (start : i ≤ stop)
    : ∃ i', matchRight canonElement haystack needle stop j i = some i' ∧ i ≤ i' ∧ i' ≤ stop
      ∧ MatchesRight (needle.word canonElement) (haystack.word canonElement) i i' j
      ∧ (i' < stop → haystack.word canonElement (j + i') ≠ needle.word canonElement i') := by
  obtain ⟨left, rfl⟩ := Nat.exists_eq_add_of_le start
  induction left generalizing i with
  | zero =>
    unfold matchRight
    rw [Nat.add_zero, if_neg (Nat.lt_irrefl i)]
    exact ⟨i, rfl, le_rfl, le_rfl, fun t from_ below => absurd below (Nat.not_lt.mpr from_),
      fun below => absurd below (Nat.lt_irrefl _)⟩
  | succ left ih =>
    unfold matchRight
    rw [if_pos (by omega), CString.read_some (by omega), CString.read_some (by omega)]
    simp only [Option.bind_eq_bind, Option.bind_some]
    by_cases same : canonElement (needle.bytes.getD i 0) = canonElement (haystack.bytes.getD (i + j) 0)
    · rw [if_pos same]
      have swap : i + (left + 1) = i + 1 + left := Nat.add_right_comm i left 1
      rw [swap] at inNeedle inHaystack start ⊢
      obtain ⟨i', run, from_, below, matched, differ⟩ := ih inNeedle inHaystack (Nat.le_add_right _ _)
      refine ⟨i', run, Nat.le_of_succ_le from_, below, ?_, differ⟩
      intro t after before
      rcases Nat.eq_or_lt_of_le after with rfl | later
      · rw [Nat.add_comm j]
        exact (word_eq_iff.mpr same).symm
      · exact matched t later before
    · rw [if_neg same]
      refine ⟨i, rfl, le_rfl, start, fun t from_ below => absurd below (Nat.not_lt.mpr from_), ?_⟩
      intro _ equal
      rw [Nat.add_comm j] at equal
      exact same (word_eq_iff.mp equal.symm)

/-- The scan in the left half stops behind the last mismatch, by induction on what is left. -/
theorem matchLeft_eq {memory i : Nat} (inNeedle : i ≤ needle.length)
    (inHaystack : j + i ≤ haystack.length)
    : ∃ i', matchLeft canonElement haystack needle memory j i = some i' ∧ i' ≤ i
      ∧ MatchesRight (needle.word canonElement) (haystack.word canonElement) i' i j
      ∧ (memory < i' → haystack.word canonElement (j + (i' - 1)) ≠ needle.word canonElement (i' - 1)) := by
  induction i with
  | zero =>
    exact ⟨0, rfl, le_rfl, fun t _ below => absurd below (Nat.not_lt_zero t),
      fun below => absurd below (Nat.not_lt_zero _)⟩
  | succ i ih =>
    unfold matchLeft
    by_cases more : memory < i + 1
    · rw [if_pos more, CString.read_some (by omega), CString.read_some (by omega)]
      simp only [Option.bind_eq_bind, Option.bind_some]
      by_cases same : canonElement (needle.bytes.getD i 0) = canonElement (haystack.bytes.getD (i + j) 0)
      · rw [if_pos same]
        obtain ⟨i', run, below, matched, differ⟩ := ih (by omega) (by omega)
        refine ⟨i', run, Nat.le_succ_of_le below, ?_, differ⟩
        intro t after before
        rcases Nat.eq_or_lt_of_le (Nat.le_of_lt_succ before) with rfl | earlier
        · rw [Nat.add_comm j]
          exact (word_eq_iff.mpr same).symm
        · exact matched t after earlier
      · rw [if_neg same]
        refine ⟨i + 1, rfl, le_rfl, fun t from_ below => absurd below (Nat.not_lt.mpr from_), ?_⟩
        intro _ equal
        rw [Nat.add_comm j] at equal
        exact same (word_eq_iff.mp equal.symm)
    · rw [if_neg more]
      exact ⟨i + 1, rfl, le_rfl, fun t from_ below => absurd below (Nat.not_lt.mpr from_),
        fun above => absurd above more⟩

/-- A shift table after the first `i` letters: the distance of the last of them to the end, or the length
of the needle.
-/
structure ShiftsTo (canonElement : UInt8 → UInt8) (needle : CString) (table : UInt8 → Nat) (i : Nat) : Prop where
  le : ∀ b, table b ≤ needle.length
  last : ∀ k < i, table (canonElement (needle.bytes.getD k 0)) ≤ needle.length - 1 - k
  from_ : ∀ b, table b < needle.length
    → ∃ k < i, canonElement (needle.bytes.getD k 0) = b ∧ table b = needle.length - 1 - k

variable {i : Nat}

/-- By induction on the rest of the needle: the last occurrence of a byte stays. -/
theorem shiftTableFrom_shiftsTo {rest : List UInt8} {table : UInt8 → Nat}
    (behind : needle.bytes.drop i = rest) (shifts : ShiftsTo canonElement needle table i)
    (inside : i ≤ needle.length)
    : ShiftsTo canonElement needle (shiftTableFrom canonElement rest needle.length table i)
        needle.length := by
  induction rest generalizing table i with
  | nil =>
    have all : needle.length ≤ i := List.drop_eq_nil_iff.mp behind
    have ends : i = needle.length := Nat.le_antisymm inside all
    rw [ends] at shifts
    exact shifts
  | cons b rest ih =>
    have before : i < needle.length := by
      by_contra none
      rw [List.drop_eq_nil_of_le (Nat.not_lt.mp none)] at behind
      cases behind
    have letter : needle.bytes.getD i 0 = b := by
      rw [List.getD_eq_getElem?_getD, ← List.head?_drop, behind]
      rfl
    have next : needle.bytes.drop (i + 1) = rest := by
      rw [← List.tail_drop, behind]
      rfl
    refine ih next ⟨?_, ?_, ?_⟩ before
    · intro a
      rcases eq_or_ne a (canonElement b) with rfl | other
      · rw [Function.update_self]
        omega
      · rw [Function.update_of_ne other]
        exact shifts.le a
    · intro k below
      rcases eq_or_ne (canonElement (needle.bytes.getD k 0)) (canonElement b) with same | other
      · rw [same, Function.update_self]
        omega
      · rw [Function.update_of_ne other]
        refine shifts.last k (Nat.lt_of_le_of_ne (Nat.le_of_lt_succ below) fun equal => other ?_)
        rw [equal, letter]
    · intro a small
      rcases eq_or_ne a (canonElement b) with rfl | other
      · refine ⟨i, Nat.lt_succ_self i, by rw [letter], ?_⟩
        rw [Function.update_self]
        omega
      · rw [Function.update_of_ne other] at small ⊢
        obtain ⟨k, below, equal⟩ := shifts.from_ a small
        exact ⟨k, Nat.lt_succ_of_lt below, equal⟩

theorem shiftTable_shiftsTo (canonElement : UInt8 → UInt8) (needle : CString)
    : ShiftsTo canonElement needle (shiftTable canonElement needle) needle.length :=
  shiftTableFrom_shiftsTo List.drop_zero
    ⟨fun _ => le_rfl, fun k below => absurd below (Nat.not_lt_zero k),
      fun _ below => absurd below (Nat.lt_irrefl _)⟩ (Nat.zero_le _)

/-- No place before `j` matches, the known length is no longer than the haystack, and what is remembered
of the window was matched one shift before.
-/
structure TwoWay.Holds (canonElement : UInt8 → UInt8) (haystack needle : CString) (suffix shift : Nat)
    (st : TwoWay) : Prop where
  known : st.haystackLen ≤ haystack.length
  near : st.j ≤ st.haystackLen
  missed : NoneBefore (needle.word canonElement) (haystack.word canonElement) needle.length st.j
  remembers : Remembers (needle.word canonElement) (haystack.word canonElement) needle.length suffix
    shift st.memory st.j

/-- A verdict is the first match, and `haystack_len` did not exceed the length of the haystack. -/
def RightVerdict (canonElement : UInt8 → UInt8) (haystack needle : CString) (verdict : Verdict) : Prop :=
  FirstMatch (needle.word canonElement) (haystack.word canonElement) needle.length verdict.1
  ∧ verdict.2 ≤ haystack.length

variable {st : TwoWay} {suffix period shift remembered : Nat}

theorem TwoWay.start_holds (known : haystackLen ≤ haystack.length)
    : TwoWay.Holds canonElement haystack needle suffix shift ⟨0, 0, haystackLen⟩ where
  known := known
  near := Nat.zero_le _
  missed := fun q before => absurd before (Nat.not_lt_zero q)
  remembers := .inl rfl

theorem TwoWay.Holds.ends (holds : st.Holds canonElement haystack needle suffix shift)
    (keeps : CString.KeepsNul canonElement) (nonempty : 0 < needle.length)
    (short : ¬ st.j + needle.length ≤ haystack.length) (known : haystackLen ≤ haystack.length)
    : RightVerdict canonElement haystack needle (none, haystackLen) := by
  refine ⟨?_, known⟩
  intro q found
  rcases Nat.lt_or_ge q st.j with before | from_
  · exact holds.missed q before found
  · exact short ((Nat.add_le_add_right from_ _).trans
      (CString.inside_of_matchesAt keeps found nonempty))

variable {p : Nat}
  (factorizes : Factorizes (needle.word canonElement) needle.length suffix p)

include factorizes

section

variable (holds : st.Holds canonElement haystack needle suffix shift)
include holds

/-- The right half matches as far as the scan went, remembered letters included. -/
theorem TwoWay.Holds.right
    (scanned : MatchesRight (needle.word canonElement) (haystack.word canonElement)
      (max suffix st.memory) i st.j)
    : MatchesRight (needle.word canonElement) (haystack.word canonElement) suffix i st.j := by
  intro t from_ below
  rcases Nat.lt_or_ge t st.memory with old | new
  · exact holds.remembers.matches factorizes old
  · exact scanned t (max_le from_ new) below

theorem TwoWay.Holds.found
    (right : MatchesRight (needle.word canonElement) (haystack.word canonElement) suffix
      needle.length st.j)
    (left : MatchesRight (needle.word canonElement) (haystack.word canonElement) i suffix st.j)
    (all : i < st.memory + 1) (known : haystackLen ≤ haystack.length)
    : RightVerdict canonElement haystack needle (some st.j, haystackLen) := by
  refine ⟨⟨?_, holds.missed⟩, known⟩
  intro t inside
  rcases Nat.lt_or_ge t st.memory with old | new
  · exact holds.remembers.matches factorizes old
  rcases Nat.lt_or_ge t suffix with before | behind
  · exact left t (by omega) before
  · exact right t behind inside

/-- The right half matches and the left one does not: the search goes on behind the shift. -/
theorem TwoWay.Holds.shifted (safe : SafeShift (needle.word canonElement) needle.length shift remembered)
    (right : MatchesRight (needle.word canonElement) (haystack.word canonElement) suffix
      needle.length st.j) (inside : i < needle.length)
    (differ : haystack.word canonElement (st.j + i) ≠ needle.word canonElement i)
    (known : haystackLen ≤ haystack.length) (more : st.j + needle.length ≤ haystackLen)
    : TwoWay.Holds canonElement haystack needle suffix shift ⟨st.j + shift, remembered, haystackLen⟩ where
  known := known
  near := (Nat.add_le_add_left safe.inside _).trans more
  missed := by
    refine holds.missed.add ?_
    intro d short
    rcases Nat.eq_zero_or_pos d with rfl | pos
    · exact fun match_ => differ (match_ i inside)
    · exact safe.not_matchesAt factorizes right pos short
  remembers := by
    rcases safe.memory with none | ⟨length, period⟩
    · exact .inl none
    · refine .inr ⟨length, period, Nat.le_add_left _ _, ?_⟩
      rw [Nat.add_sub_cancel]
      exact right

/-- The right half differs at `i`: the search goes on behind the place that this rules out. -/
theorem TwoWay.Holds.mismatched
    (right : MatchesRight (needle.word canonElement) (haystack.word canonElement) suffix i st.j)
    (from_ : suffix ≤ i) (inside : i < needle.length)
    (differ : haystack.word canonElement (st.j + i) ≠ needle.word canonElement i)
    (known : haystackLen ≤ haystack.length) (more : st.j + i < haystackLen)
    : TwoWay.Holds canonElement haystack needle suffix shift
        ⟨st.j + (i - suffix + 1), 0, haystackLen⟩ where
  known := known
  near := by
    simp only
    omega
  missed := by
    refine holds.missed.add ?_
    intro d short
    rcases Nat.eq_zero_or_pos d with rfl | pos
    · exact fun match_ => differ (match_ i inside)
    · exact factorizes.not_matchesAt right inside differ pos (by omega)
  remembers := .inl rfl

end

/-- The last letter of the window stands in the needle only before its end: the search goes on where the
two meet, or behind everything that is remembered.
-/
theorem TwoWay.Holds.skipped {table : UInt8 → Nat}
    (holds : st.Holds canonElement haystack needle suffix shift)
    (shifts : ShiftsTo canonElement needle table needle.length)
    (some_ : 0 < table (canonElement (haystack.bytes.getD (st.j + (needle.length - 1)) 0)))
    {skip : Nat} (skips : skip = table (canonElement (haystack.bytes.getD (st.j + (needle.length - 1)) 0))
      ∨ skip = st.memory)
    (known : haystackLen ≤ haystack.length) (more : st.j + needle.length ≤ haystackLen)
    (short : skip ≤ needle.length)
    : TwoWay.Holds canonElement haystack needle suffix shift ⟨st.j + skip, 0, haystackLen⟩ where
  known := known
  near := (Nat.add_le_add_left short _).trans more
  missed := by
    have meets : ∀ k < needle.length, k + table (canonElement
        (haystack.bytes.getD (st.j + (needle.length - 1)) 0)) > needle.length - 1
        → haystack.word canonElement (st.j + (needle.length - 1)) ≠ needle.word canonElement k := by
      intro k inside far equal
      have last := shifts.last k inside
      rw [← word_eq_iff.mp equal] at last
      omega
    refine holds.missed.add ?_
    intro d before
    rcases skips with rfl | rfl
    · intro found
      have place : st.j + d + (needle.length - 1 - d) = st.j + (needle.length - 1) := by omega
      have here := found (needle.length - 1 - d) (by omega)
      rw [place] at here
      exact meets _ (by omega) (by omega) here
    · exact holds.remembers.not_matchesAt factorizes before (meets _ (by omega) (by omega))
  remembers := .inl rfl

def TwoWay.left (haystack : CString) (st : TwoWay) : Nat := haystack.length + 1 - st.j

omit factorizes in
theorem TwoWay.Holds.left_lt {memory : Nat} (holds : st.Holds canonElement haystack needle suffix shift)
    (pos : 0 < period)
    : TwoWay.left haystack ⟨st.j + period, memory, haystackLen⟩ < st.left haystack := by
  have near := holds.near.trans holds.known
  unfold TwoWay.left
  simp only
  omega

theorem TwoWay.Holds.memory_lt (holds : st.Holds canonElement haystack needle suffix shift)
    : st.memory < needle.length := by
  have cut := factorizes.inside
  rcases holds.remembers with none | ⟨length, period, _⟩
  · omega
  · have pos := period.1
    omega

/-- The scans advance the search when the letters from `stop` on match. -/
theorem scanTurn_advances {stop : Nat} (holds : st.Holds canonElement haystack needle suffix shift)
    (safe : SafeShift (needle.word canonElement) needle.length shift remembered)
    (inside : stop ≤ needle.length) (near : needle.length ≤ stop + 1)
    (checked : MatchesRight (needle.word canonElement) (haystack.word canonElement) stop needle.length
      st.j)
    (known : haystackLen ≤ haystack.length) (more : st.j + needle.length ≤ haystackLen)
    : Advances (TwoWay.Holds canonElement haystack needle suffix shift)
        (RightVerdict canonElement haystack needle) (TwoWay.left haystack) st
        (scanTurn canonElement haystack needle stop suffix shift remembered haystackLen st) := by
  have cut := factorizes.inside
  have memory := holds.memory_lt factorizes
  obtain ⟨i, run, from_, below, scanned, differ⟩ := @matchRight_eq canonElement
    haystack _ st.j _ (max suffix st.memory) inside (by omega)
    (max_le (by omega) (by omega))
  have right := holds.right factorizes scanned
  unfold scanTurn
  rw [run]
  simp only [Option.bind_eq_bind, Option.bind_some]
  by_cases whole : stop ≤ i
  · -- the right half matches
    rw [if_pos whole]
    have rightAll : MatchesRight (needle.word canonElement) (haystack.word canonElement) suffix
        needle.length st.j := by
      intro t after before
      rcases Nat.lt_or_ge t i with inside | end_
      · exact right t after inside
      · exact checked t (whole.trans end_) before
    obtain ⟨i', runLeft, leftLe, left, differLeft⟩ := @matchLeft_eq canonElement
      haystack _ st.j st.memory suffix cut.le (by omega)
    rw [runLeft]
    simp only [Option.bind_some]
    by_cases all : i' < st.memory + 1
    · rw [if_pos all]
      exact .inl ⟨_, rfl, holds.found factorizes rightAll left all known⟩
    · rw [if_neg all]
      exact .inr ⟨_, rfl, holds.shifted factorizes safe rightAll (by omega) (differLeft (by omega))
        known more, holds.left_lt safe.pos⟩
  · rw [if_neg whole]
    exact .inr ⟨_, rfl, holds.mismatched factorizes right ((le_max_left _ _).trans from_) (by omega)
      (differ (by omega)) known (by omega), holds.left_lt (Nat.succ_pos _)⟩

/-- A turn of the long search finds the first match, finds that there is none, or goes on. -/
theorem longTurn_progresses (keeps : CString.KeepsNul canonElement)
    (safe : SafeShift (needle.word canonElement) needle.length shift remembered)
    : Progresses
        (longTurn canonElement haystack needle (shiftTable canonElement needle) suffix shift remembered)
        (TwoWay.Holds canonElement haystack needle suffix shift)
        (RightVerdict canonElement haystack needle) (TwoWay.left haystack) := by
  intro st holds
  have nonempty : 0 < needle.length := Nat.zero_lt_of_lt factorizes.inside
  have shifts := shiftTable_shiftsTo canonElement needle
  obtain ⟨haystackLen, enough, known, grown⟩ := available_eq holds.known holds.near needle.length
  unfold longTurn
  simp only [enough, Option.bind_eq_bind, Option.bind_some]
  by_cases fits : st.j + needle.length ≤ haystack.length
  case neg =>
    rw [decide_eq_false fits]
    exact .inl ⟨_, rfl, holds.ends keeps nonempty fits known⟩
  have more := grown fits
  rw [decide_eq_true fits, CString.read_some (by omega)]
  simp only [Option.bind_some]
  by_cases some_ : 0 < shiftTable canonElement needle
      (canonElement (haystack.bytes.getD (st.j + (needle.length - 1)) 0))
  · -- the last byte does not match
    rw [if_pos some_]
    refine .inr ⟨_, rfl, ?_⟩
    by_cases remembers : st.memory ≠ 0 ∧ shiftTable canonElement needle
        (canonElement (haystack.bytes.getD (st.j + (needle.length - 1)) 0)) < shift
    · rw [if_pos remembers]
      have memory : needle.length - shift = st.memory := by
        rcases holds.remembers with none | ⟨length, _⟩
        · exact absurd none remembers.1
        · exact length.symm
      rw [memory]
      exact ⟨holds.skipped factorizes shifts some_ (.inr rfl) known more (holds.memory_lt factorizes).le,
        holds.left_lt (Nat.pos_of_ne_zero remembers.1)⟩
    · rw [if_neg remembers]
      exact ⟨holds.skipped factorizes shifts some_ (.inl rfl) known more (shifts.le _),
        holds.left_lt some_⟩
  · rw [if_neg some_]
    refine scanTurn_advances factorizes holds safe (Nat.sub_le _ 1) (by omega) ?_ known more
    intro t after before
    obtain ⟨k, inside, letter, distance⟩ := shifts.from_
      (canonElement (haystack.bytes.getD (st.j + (needle.length - 1)) 0)) (by omega)
    have last : k = t := by omega
    have end_ : needle.length - 1 = t := by omega
    rw [last, end_] at letter
    exact word_eq_iff.mpr letter.symm

omit factorizes

/-- What `CMP_FUNC` has to decide inside of strings. -/
def Compares (canonElement : UInt8 → UInt8)
    (cmpFunc : CString → CString → Nat → Nat → Nat → Option Bool) : Prop :=
  ∀ (s t : CString) (i k n : Nat), i + n ≤ s.length → k + n ≤ t.length →
    ∃ equal, cmpFunc s t i k n = some equal
      ∧ (equal = true ↔ ∀ l < n, s.word canonElement (i + l) = t.word canonElement (k + l))

theorem compares_strncaseEqual (canonElement : UInt8 → UInt8)
    : Compares canonElement (CString.strncaseEqual canonElement) := by
  intro s t i k n left right
  obtain ⟨equal, run, iff⟩ := @CString.strncaseEqual_eq _ _ canonElement _ _ _ left right
  exact ⟨equal, run, iff.trans (forall₂_congr fun l _ => word_eq_iff.symm)⟩

theorem compares_memEqual : Compares id CString.memEqual := by
  intro s t i k n left right
  obtain ⟨equal, run, iff⟩ := CString.memEqual_eq (Nat.le_succ_of_le left) (Nat.le_succ_of_le right)
  exact ⟨equal, run, iff.trans (forall₂_congr fun l _ => (@word_eq_iff id _ _ _ _).symm)⟩

/-- The comparison of the halves finds out whether the needle is periodic, and a safe shift for both
cases.
-/
theorem halves_compared {cmpFunc : CString → CString → Nat → Nat → Nat → Option Bool}
    (compares : Compares canonElement cmpFunc)
    (factorizes : Factorizes (needle.word canonElement) needle.length suffix p)
    : (cmpFunc needle needle 0 p suffix = some true
        ∧ SafeShift (needle.word canonElement) needle.length p (needle.length - p))
      ∨ (cmpFunc needle needle 0 p suffix = some false
        ∧ SafeShift (needle.word canonElement) needle.length
            (max suffix (needle.length - suffix) + 1) 0) := by
  have inside := factorizes.period_le
  obtain ⟨equal, run, iff⟩ := compares needle needle 0 p suffix (by omega) (by omega)
  have repeats : equal = true ↔ Repeats (needle.word canonElement) suffix p := by
    rw [iff]
    refine forall₂_congr fun l _ => ?_
    rw [Nat.zero_add, Nat.add_comm p]
  cases equal with
  | true => exact .inl ⟨run, factorizes.safeShift_periodic (repeats.mp rfl)⟩
  | false =>
    exact .inr ⟨run, factorizes.safeShift_distinct fun all => Bool.noConfusion (repeats.mpr all)⟩

theorem criticalFactorization_word (canonElement : UInt8 → UInt8) (nonempty : 0 < needle.length)
    : ∃ suffix period,
        criticalFactorization (fun c => (canonElement c).toNat) needle.bytes = some (suffix, period)
      ∧ Factorizes (needle.word canonElement) needle.length suffix period :=
  criticalFactorization_factorizes _ nonempty (by
    have object := needle.object
    omega)

/-- `two_way_long_needle` returns the first match and reads nothing behind the terminators. -/
theorem twoWayLongNeedle_verdict {cmpFunc : CString → CString → Nat → Nat → Nat → Option Bool}
    (keeps : CString.KeepsNul canonElement) (compares : Compares canonElement cmpFunc)
    (nonempty : 0 < needle.length) (known : haystackLen ≤ haystack.length)
    : ∃ verdict, twoWayLongNeedle canonElement cmpFunc haystack needle haystackLen = some verdict
      ∧ RightVerdict canonElement haystack needle verdict := by
  obtain ⟨suffix, period, run, factorizes⟩ := criticalFactorization_word canonElement nonempty
  have start : ∀ shift, TwoWay.Holds canonElement haystack needle suffix shift ⟨0, 0, haystackLen⟩ :=
    fun _ => TwoWay.start_holds known
  have enough : TwoWay.left haystack ⟨0, 0, haystackLen⟩ < haystack.length + 2 :=
    Nat.lt_succ_self (haystack.length + 1)
  unfold twoWayLongNeedle
  simp only [run, Option.bind_eq_bind, Option.bind_some]
  rcases halves_compared compares factorizes with ⟨test, safe⟩ | ⟨test, safe⟩
  · rw [test]
    exact (longTurn_progresses factorizes keeps safe).iterate _ (start _) enough
  · rw [test]
    exact (longTurn_progresses factorizes keeps safe).iterate _ (start _) enough

end Nglibc.Strings
