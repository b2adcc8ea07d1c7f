import Nglibc.Strings.TwoWay

/-! `strcasestr` of `string/strcasestr.c`, with the search for short needles of `string/str-two-way.h`:
for a needle that is not periodic it takes the terminator of the haystack for a mismatch, and raises
`haystack_len` by what it has read (`CHECK_EOL`).
-/

namespace Nglibc.Strings

open Nglibc.Words

section Short

variable (canonElement : UInt8 → UInt8) (haystack needle : CString)

/-- One turn of the loop of `two_way_short_needle` for a periodic needle. -/
def shortPeriodicTurn (suffix period : Nat) (st : TwoWay) : Option (Verdict ⊕ TwoWay) := do
  let needleLen := needle.length
  let (more, haystackLen) ← available haystack st.haystackLen st.j needleLen
  if more = false then some (.inl (none, haystackLen))
  else
    scanTurn canonElement haystack needle needleLen suffix period (needleLen - period) haystackLen st

/-- The scan for matches in the right half, with `i` and `phaystack` at its end, or none at `ret0`. -/
def matchRightEol (i phaystack : Nat) : Option (Option (Nat × Nat)) :=
  if i < needle.length then do
    let a ← needle.read i
    let haystackChar ← canonElement <$> haystack.read phaystack
    if canonElement a ≠ haystackChar then
      if haystackChar = 0 then some none else some (some (i, phaystack + 1))
    else matchRightEol (i + 1) (phaystack + 1)
  else some (some (i, phaystack))
termination_by needle.length - i

/-- The scan for matches in the left half on `i + 1`, or none at `ret0`. -/
def matchLeftEol (j : Nat) : Nat → Option (Option Nat)
  | 0 => some (some 0)
  | i + 1 => do
    let a ← needle.read i
    let haystackChar ← canonElement <$> haystack.read (i + j)
    if canonElement a ≠ haystackChar then
      if haystackChar = 0 then some none else some (some (i + 1))
    else matchLeftEol j i

/-- One turn of the loop of `two_way_short_needle` for a needle with distinct halves. -/
def shortDistinctTurn (suffix period : Nat) (st : TwoWay) : Option (Verdict ⊕ TwoWay) := do
  let needleLen := needle.length
  let needleSuffix ← canonElement <$> needle.read suffix
  let (more, haystackLen) ← available haystack st.haystackLen st.j needleLen
  if more = false then some (.inl (none, haystackLen))
  else
    match ← haystack.findChar canonElement needleSuffix (suffix + st.j) with
    | none => some (.inl (none, haystackLen))
    | some first =>
      let j := first - suffix
      match ← matchRightEol canonElement haystack needle (suffix + 1) (first + 1) with
      | none => some (.inl (none, haystackLen))
      | some (i, phaystack) =>
        let haystackLen := if phaystack > haystackLen then phaystack else haystackLen
        if needleLen ≤ i then
          match ← matchLeftEol canonElement haystack needle j suffix with
          | none => some (.inl (none, haystackLen))
          | some 0 => some (.inl (some j, haystackLen))
          | some (_ + 1) => some (.inr ⟨j + period, 0, haystackLen⟩)
        else some (.inr ⟨j + (i - suffix + 1), 0, haystackLen⟩)

/-- The two loops of `two_way_short_needle`. -/
def shortTurn (periodic : Bool) (suffix period : Nat) : TwoWay → Option (Verdict ⊕ TwoWay) :=
  if periodic then shortPeriodicTurn canonElement haystack needle suffix period
  else shortDistinctTurn canonElement haystack needle suffix (max suffix (needle.length - suffix) + 1)

def twoWayShortNeedle (cmpFunc : CString → CString → Nat → Nat → Nat → Option Bool)
    (haystackLen : Nat) : Option Verdict := do
  let (suffix, period) ← criticalFactorization (fun c => (canonElement c).toNat) needle.bytes
  let periodic ← cmpFunc needle needle 0 period suffix
  iterate (shortTurn canonElement haystack needle periodic suffix period) (haystack.length + 2)
    ⟨0, 0, haystackLen⟩

def longNeedleThreshold : Nat := 32

/-- `strcasestr`: the index in the haystack, or none for `NULL`. The outer option is none at a fault.
`tolower` is that of the locale.
-/
def strcasestr (tolower : UInt8 → UInt8) (haystack needle : CString) : Option (Option Nat) := do
  if (← needle.read 0) = 0 then some (some 0)
  else
    let needleLen ← needle.strlen
    let haystackLen ← haystack.strnlen 0 (needleLen + 256)
    if haystackLen < needleLen then some none
    else if needleLen < longNeedleThreshold then
      Prod.fst <$> twoWayShortNeedle tolower haystack needle (CString.strncaseEqual tolower) haystackLen
    else
      Prod.fst <$> twoWayLongNeedle tolower (CString.strncaseEqual tolower) haystack needle haystackLen

end Short

variable {canonElement : UInt8 → UInt8} {haystack needle : CString} {haystackLen j : Nat}

/-- The scan in the right half stops behind the first mismatch, or the haystack ends inside of the
window; by induction on what is left.
-/
theorem matchRightEol_eq (keeps : CString.KeepsNul canonElement) {i : Nat} (start : i ≤ needle.length)
    (inside : j + i ≤ haystack.length)
    : ∃ result, matchRightEol canonElement haystack needle i (j + i) = some result
      ∧ match result with
        | none => haystack.length < j + needle.length
        | some (i', phaystack) => i ≤ i' ∧ i' ≤ needle.length ∧ phaystack ≤ haystack.length
            ∧ phaystack = j + min (i' + 1) needle.length
            ∧ MatchesRight (needle.word canonElement) (haystack.word canonElement) i i' j
            ∧ (i' < needle.length
                → haystack.word canonElement (j + i') ≠ needle.word canonElement i') := by
  obtain ⟨left, length⟩ := Nat.exists_eq_add_of_le start
  induction left generalizing i with
  | zero =>
    unfold matchRightEol
    rw [if_neg (by omega)]
    refine ⟨_, rfl, le_rfl, start, inside, by omega, ?_, fun below => by omega⟩
    exact fun t from_ below => absurd below (Nat.not_lt.mpr from_)
  | succ left ih =>
    unfold matchRightEol
    rw [if_pos (by omega), CString.read_some (by omega), CString.read_some inside]
    simp only [Option.bind_eq_bind, Option.bind_some, Option.map_eq_map, Option.map_some]
    by_cases same : canonElement (needle.bytes.getD i 0) = canonElement (haystack.bytes.getD (j + i) 0)
    · rw [if_neg (not_not.mpr same)]
      have letter : ¬ haystack.length ≤ j + i := by
        rw [← CString.canonElement_eq_zero_iff keeps, ← same, CString.canonElement_eq_zero_iff keeps]
        omega
      obtain ⟨result, run, holds⟩ := ih (i := i + 1) (by omega) (by omega) (by omega)
      refine ⟨result, run, ?_⟩
      cases result with
      | none => exact holds
      | some result =>
        obtain ⟨from_, below, within, place, matched, differ⟩ := holds
        refine ⟨Nat.le_of_succ_le from_, below, within, place, ?_, differ⟩
        intro t after before
        rcases Nat.eq_or_lt_of_le after with rfl | later
        · exact (word_eq_iff.mpr same).symm
        · exact matched t later before
    · rw [if_pos same]
      by_cases zero : canonElement (haystack.bytes.getD (j + i) 0) = 0
      · rw [if_pos zero]
        have end_ := (CString.canonElement_eq_zero_iff keeps).mp zero
        exact ⟨none, rfl, by omega⟩
      · rw [if_neg zero]
        rw [CString.canonElement_eq_zero_iff keeps, Nat.not_le] at zero
        refine ⟨_, rfl, le_rfl, start, zero, by omega, ?_, ?_⟩
        · exact fun t from_ below => absurd below (Nat.not_lt.mpr from_)
        · exact fun _ equal => same (word_eq_iff.mp equal.symm)

/-- The scan in the left half meets no terminator, by induction on what is left. -/
theorem matchLeftEol_eq (keeps : CString.KeepsNul canonElement) {i : Nat} (inNeedle : i ≤ needle.length)
    (inside : j + i ≤ haystack.length)
    : matchLeftEol canonElement haystack needle j i
      = (matchLeft canonElement haystack needle 0 j i).map some := by
  induction i with
  | zero => rfl
  | succ i ih =>
    unfold matchLeftEol matchLeft
    rw [CString.read_some (by omega), CString.read_some (by omega)]
    simp only [Option.bind_eq_bind, Option.bind_some, Option.map_eq_map, Option.map_some]
    by_cases same : canonElement (needle.bytes.getD i 0) = canonElement (haystack.bytes.getD (i + j) 0)
    · rw [if_neg (not_not.mpr same), if_pos same]
      exact ih (by omega) (by omega)
    · have letter : ¬ canonElement (haystack.bytes.getD (i + j) 0) = 0 := by
        rw [CString.canonElement_eq_zero_iff keeps]
        omega
      rw [if_pos same, if_neg letter, if_neg same]
      rfl

variable {suffix p period shift : Nat} {st : TwoWay}

private theorem shortPeriodicTurn_progresses (keeps : CString.KeepsNul canonElement)
    (factorizes : Factorizes (needle.word canonElement) needle.length suffix p)
    (safe : SafeShift (needle.word canonElement) needle.length shift (needle.length - shift))
    : Progresses (shortPeriodicTurn canonElement haystack needle suffix shift)
        (TwoWay.Holds canonElement haystack needle suffix shift)
        (RightVerdict canonElement haystack needle) (TwoWay.left haystack) := by
  intro st holds
  have nonempty : 0 < needle.length := Nat.zero_lt_of_lt factorizes.inside
  obtain ⟨haystackLen, enough, known, grown⟩ := available_eq holds.known holds.near needle.length
  unfold shortPeriodicTurn
  simp only [enough, Option.bind_eq_bind, Option.bind_some]
  by_cases fits : st.j + needle.length ≤ haystack.length
  · rw [decide_eq_true fits]
    exact scanTurn_advances factorizes holds safe le_rfl (Nat.le_succ _)
      (fun t after before => absurd before (Nat.not_lt.mpr after)) known (grown fits)
  · rw [decide_eq_false fits]
    exact .inl ⟨_, rfl, holds.ends keeps nonempty fits known⟩

/-- The search goes on at the next place of the first character of the right half. -/
theorem noneBefore_firstChar {first : Nat} (cut : suffix < needle.length)
    (missed : NoneBefore (needle.word canonElement) (haystack.word canonElement) needle.length j)
    (next : ∀ q, suffix + j ≤ q → q < first
      → canonElement (haystack.bytes.getD q 0) ≠ canonElement (needle.bytes.getD suffix 0))
    : NoneBefore (needle.word canonElement) (haystack.word canonElement) needle.length (first - suffix) := by
  intro q before found
  rcases Nat.lt_or_ge q j with early | from_
  · exact missed q early found
  · have letter := word_eq_iff.mp (found suffix cut)
    exact next (q + suffix) (by omega) (by omega) letter

/-- At a place of the first character, the turn leaves with a verdict or goes on behind the place. -/
theorem shortDistinctTurn_progresses (keeps : CString.KeepsNul canonElement)
    (factorizes : Factorizes (needle.word canonElement) needle.length suffix p)
    (safe : SafeShift (needle.word canonElement) needle.length shift 0)
    : Progresses (shortDistinctTurn canonElement haystack needle suffix shift)
        (TwoWay.Holds canonElement haystack needle suffix shift)
        (RightVerdict canonElement haystack needle) (TwoWay.left haystack) := by
  intro st holds
  have cut := factorizes.inside
  have nonempty : 0 < needle.length := Nat.zero_lt_of_lt cut
  obtain ⟨haystackLen, enough, known, grown⟩ := available_eq holds.known holds.near needle.length
  unfold shortDistinctTurn
  rw [CString.read_some cut.le]
  simp only [enough, Option.bind_eq_bind, Option.bind_some, Option.map_eq_map, Option.map_some]
  by_cases fits : st.j + needle.length ≤ haystack.length
  case neg =>
    rw [decide_eq_false fits]
    exact .inl ⟨_, rfl, holds.ends keeps nonempty fits known⟩
  rw [decide_eq_true fits]
  obtain ⟨first, run, next⟩ := @CString.findChar_found _ haystack
    (canonElement (needle.bytes.getD suffix 0)) (suffix + st.j) keeps (by omega)
  rw [run]
  cases first with
  | none =>
    -- the haystack has no more such character
    refine .inl ⟨_, rfl, fun q found => ?_, known⟩
    have within := CString.inside_of_matchesAt keeps found nonempty
    rcases Nat.lt_or_ge q st.j with early | from_
    · exact holds.missed q early found
    · exact next (q + suffix) (by omega) (by omega) (word_eq_iff.mp (found suffix cut))
  | some first =>
  obtain ⟨from_, within, letter, others⟩ := next
  have later : TwoWay.Holds canonElement haystack needle suffix shift
      ⟨first - suffix, 0, max haystackLen first⟩ :=
    ⟨max_le known within, (Nat.sub_le _ _).trans (le_max_right _ _),
      noneBefore_firstChar cut holds.missed others, .inl rfl⟩
  have place : first - suffix + (suffix + 1) = first + 1 := by omega
  have inside : first < haystack.length := by
    rw [← Nat.not_le, ← CString.canonElement_eq_zero_iff keeps, letter, CString.canonElement_eq_zero_iff keeps]
    omega
  obtain ⟨result, runRight, scanned⟩ := @matchRightEol_eq _ haystack _ (first - suffix)
    keeps (suffix + 1) cut (by omega)
  rw [place] at runRight
  simp only [Option.bind_some]
  rw [runRight]
  cases result with
  | none =>
    -- the haystack ends inside of the window
    refine .inl ⟨_, rfl, fun q found => ?_, known⟩
    have fits' := CString.inside_of_matchesAt keeps found nonempty
    have before : q < first - suffix := by omega
    exact later.missed q before found
  | some result =>
  obtain ⟨i, phaystack⟩ := result
  obtain ⟨afterFirst, below, read, phaystack_eq, matched, differ⟩ := scanned
  have right : MatchesRight (needle.word canonElement) (haystack.word canonElement) suffix i
      (first - suffix) := by
    intro t after before
    rcases Nat.eq_or_lt_of_le after with rfl | behind
    · have start : first - suffix + suffix = first := by omega
      rw [start]
      exact word_eq_iff.mpr letter
    · exact matched t behind before
  -- `haystack_len` is raised to what was read
  have raised : ∃ raisedLen, (if phaystack > haystackLen then phaystack else haystackLen) = raisedLen
      ∧ raisedLen ≤ haystack.length ∧ phaystack ≤ raisedLen := by
    refine ⟨_, rfl, ?_⟩
    split
    · exact ⟨read, le_rfl⟩
    · exact ⟨known, Nat.not_lt.mp ‹_›⟩
  obtain ⟨raisedLen, raise, known', covers⟩ := raised
  simp only [Option.bind_some, raise]
  have left_lt : ∀ steps memory known, 0 < steps
      → TwoWay.left haystack ⟨first - suffix + steps, memory, known⟩ < st.left haystack := by
    intro steps memory known pos
    unfold TwoWay.left
    simp only
    omega
  by_cases whole : needle.length ≤ i
  · rw [if_pos whole]
    have all : i = needle.length := Nat.le_antisymm below whole
    rw [all] at right
    have inside' : first - suffix + suffix ≤ haystack.length := by omega
    obtain ⟨i', runLeft, leftLe, left, differLeft⟩ :=
      @matchLeft_eq canonElement haystack needle _ 0 _ cut.le inside'
    rw [matchLeftEol_eq keeps cut.le inside', runLeft]
    cases i' with
    | zero => exact .inl ⟨_, rfl, later.found factorizes right left Nat.one_pos known'⟩
    | succ i' =>
      exact .inr ⟨_, rfl, later.shifted factorizes safe right (by omega) (differLeft (Nat.succ_pos _))
        known' (by simp only; omega), left_lt _ _ _ safe.pos⟩
  · rw [if_neg whole]
    exact .inr ⟨_, rfl, later.mismatched factorizes right (by omega) (Nat.not_le.mp whole)
      (differ (Nat.not_le.mp whole)) known' (by simp only; omega), left_lt _ _ _ (Nat.succ_pos _)⟩

theorem shortTurn_progresses {cmpFunc : CString → CString → Nat → Nat → Nat → Option Bool}
    {periodic : Bool} (keeps : CString.KeepsNul canonElement) (compares : Compares canonElement cmpFunc)
    (factorizes : Factorizes (needle.word canonElement) needle.length suffix p)
    (test : cmpFunc needle needle 0 p suffix = some periodic)
    : ∃ shift, Progresses (shortTurn canonElement haystack needle periodic suffix p)
        (TwoWay.Holds canonElement haystack needle suffix shift)
        (RightVerdict canonElement haystack needle) (TwoWay.left haystack) := by
  rcases halves_compared compares factorizes with ⟨test', safe⟩ | ⟨test', safe⟩
  · rw [test] at test'
    obtain rfl := Option.some.inj test'
    exact ⟨p, shortPeriodicTurn_progresses keeps factorizes safe⟩
  · rw [test] at test'
    obtain rfl := Option.some.inj test'
    exact ⟨_, shortDistinctTurn_progresses keeps factorizes safe⟩

/-- The values of `haystack_len` in `two_way_short_needle`: at the start of a turn, and where the search
leaves.
-/
inductive ShortKnows (canonElement : UInt8 → UInt8)
    (cmpFunc : CString → CString → Nat → Nat → Nat → Option Bool) (haystack needle : CString)
    (haystackLen : Nat) : Nat → Prop
  | turn {suffix period : Nat} {periodic : Bool} {st : TwoWay}
      (cut : criticalFactorization (fun c => (canonElement c).toNat) needle.bytes = some (suffix, period))
      (test : cmpFunc needle needle 0 period suffix = some periodic)
      (reached : Reaches (shortTurn canonElement haystack needle periodic suffix period)
        ⟨0, 0, haystackLen⟩ st)
      : ShortKnows canonElement cmpFunc haystack needle haystackLen st.haystackLen
  | leaves {suffix period : Nat} {periodic : Bool} {st : TwoWay} {verdict : Verdict}
      (cut : criticalFactorization (fun c => (canonElement c).toNat) needle.bytes = some (suffix, period))
      (test : cmpFunc needle needle 0 period suffix = some periodic)
      (reached : Reaches (shortTurn canonElement haystack needle periodic suffix period)
        ⟨0, 0, haystackLen⟩ st)
      (left : shortTurn canonElement haystack needle periodic suffix period st = some (.inl verdict))
      : ShortKnows canonElement cmpFunc haystack needle haystackLen verdict.2

variable {cmpFunc : CString → CString → Nat → Nat → Nat → Option Bool}

/-- `two_way_short_needle` returns the first match and reads nothing behind the terminators. -/
theorem twoWayShortNeedle_verdict (keeps : CString.KeepsNul canonElement)
    (compares : Compares canonElement cmpFunc) (nonempty : 0 < needle.length)
    (known : haystackLen ≤ haystack.length)
    : ∃ verdict, twoWayShortNeedle canonElement haystack needle cmpFunc haystackLen = some verdict
      ∧ RightVerdict canonElement haystack needle verdict := by
  obtain ⟨suffix, period, run, factorizes⟩ := criticalFactorization_word canonElement nonempty
  have inside := factorizes.period_le
  obtain ⟨periodic, test, _⟩ := compares needle needle 0 period suffix (by omega) (by omega)
  obtain ⟨shift, progresses⟩ := @shortTurn_progresses _ haystack _ _ _ _ _ keeps compares factorizes test
  unfold twoWayShortNeedle
  simp only [run, test, Option.bind_eq_bind, Option.bind_some]
  exact progresses.iterate _ (TwoWay.start_holds known) (Nat.lt_succ_self (haystack.length + 1))

theorem ShortKnows.le {known' : Nat} (keeps : CString.KeepsNul canonElement)
    (compares : Compares canonElement cmpFunc) (nonempty : 0 < needle.length)
    (known : haystackLen ≤ haystack.length)
    (knows : ShortKnows canonElement cmpFunc haystack needle haystackLen known')
    : known' ≤ haystack.length := by
  obtain ⟨suffix, period, run, factorizes⟩ := criticalFactorization_word canonElement nonempty
  cases knows with
  | turn cut test reached =>
    obtain ⟨rfl, rfl⟩ := Prod.mk.inj (Option.some.inj (run.symm.trans cut))
    obtain ⟨shift, progresses⟩ :=
      @shortTurn_progresses _ haystack _ _ _ _ _ keeps compares factorizes test
    exact (progresses.reaches (TwoWay.start_holds known) reached).known
  | leaves cut test reached left =>
    obtain ⟨rfl, rfl⟩ := Prod.mk.inj (Option.some.inj (run.symm.trans cut))
    obtain ⟨shift, progresses⟩ :=
      @shortTurn_progresses _ haystack _ _ _ _ _ keeps compares factorizes test
    have holds := progresses.reaches (TwoWay.start_holds known) reached
    rcases progresses _ holds with ⟨verdict, leaves, right⟩ | ⟨next, goes, _⟩
    · rw [left] at leaves
      obtain rfl := Sum.inl.inj (Option.some.inj leaves)
      exact right.2
    · rw [left] at goes
      cases goes

/-- `strcasestr` returns the first place where the needle matches after `tolower` of both, or `NULL`; it
reads no byte behind a terminator, and the length that the search for short needles takes for known is
never more than the length of the haystack.
-/
theorem strcasestr_first {tolower : UInt8 → UInt8} (keeps : CString.KeepsNul tolower)
    (haystack needle : CString)
    : (∃ result, strcasestr tolower haystack needle = some result
        ∧ CString.FirstOccurrence tolower haystack needle result)
      ∧ (0 < needle.length → ∀ known,
          ShortKnows tolower (CString.strncaseEqual tolower) haystack needle
            (min (needle.length + 256) haystack.length) known
          → known ≤ haystack.length) := by
  have compares := compares_strncaseEqual tolower
  refine ⟨?_, fun nonempty known knows => knows.le keeps compares nonempty (min_le_right _ _)⟩
  unfold strcasestr
  rw [CString.read_some (Nat.zero_le _)]
  simp only [Option.bind_eq_bind, Option.bind_some]
  by_cases empty : needle.bytes.getD 0 0 = 0
  · rw [if_pos empty]
    exact ⟨_, rfl, CString.firstOccurrence_empty
      (Nat.le_zero.mp (CString.getD_eq_zero_iff.mp empty))⟩
  rw [if_neg empty, CString.strlen_eq]
  rw [CString.getD_eq_zero_iff, Nat.not_le] at empty
  simp only [Option.bind_some, CString.strnlen_eq (Nat.zero_le _), Nat.sub_zero]
  have known : min (needle.length + 256) haystack.length ≤ haystack.length := min_le_right _ _
  by_cases short : min (needle.length + 256) haystack.length < needle.length
  · rw [if_pos short]
    refine ⟨none, rfl, CString.firstOccurrence_of_firstMatch keeps empty ?_⟩
    intro q found
    have within := CString.inside_of_matchesAt keeps found empty
    omega
  rw [if_neg short]
  by_cases threshold : needle.length < longNeedleThreshold
  · rw [if_pos threshold]
    obtain ⟨verdict, run, right⟩ := twoWayShortNeedle_verdict keeps compares empty known
    rw [run]
    exact ⟨verdict.1, rfl, CString.firstOccurrence_of_firstMatch keeps empty right.1⟩
  · rw [if_neg threshold]
    obtain ⟨verdict, run, right⟩ := twoWayLongNeedle_verdict keeps compares empty known
    rw [run]
    exact ⟨verdict.1, rfl, CString.firstOccurrence_of_firstMatch keeps empty right.1⟩

/-- `tolower` of the C locale. -/
def asciiLower (c : UInt8) : UInt8 := if 65 ≤ c.toNat ∧ c.toNat ≤ 90 then c + 32 else c

private theorem asciiLower_keepsNul : CString.KeepsNul asciiLower := by
  intro c
  unfold asciiLower
  split
  case isTrue letter =>
    have shifted : (c + 32).toNat = c.toNat + 32 := by
      rw [UInt8.toNat_add]
      exact Nat.mod_eq_of_lt (by rw [show (32 : UInt8).toNat = 32 from rfl]; omega)
    constructor
    · intro zero
      rw [zero] at shifted
      simp at shifted
    · rintro rfl
      simp at letter
  case isFalse => exact Iff.rfl

def waterHaystack : CString := ⟨"Of wet WATER".toList.map Char.toUInt8, by decide, by decide⟩

def waterNeedle : CString := ⟨"wat".toList.map Char.toUInt8, by decide, by decide⟩

theorem strcasestr_first_water
    : (∃ result, strcasestr asciiLower waterHaystack waterNeedle = some result
        ∧ CString.FirstOccurrence asciiLower waterHaystack waterNeedle result)
      ∧ (0 < waterNeedle.length → ∀ known,
          ShortKnows asciiLower (CString.strncaseEqual asciiLower) waterHaystack waterNeedle
            (min (waterNeedle.length + 256) waterHaystack.length) known
          → known ≤ waterHaystack.length) :=
  strcasestr_first asciiLower_keepsNul waterHaystack waterNeedle

end Nglibc.Strings
