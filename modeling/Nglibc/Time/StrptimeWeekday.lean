import Mathlib.Data.List.FinRange
import Mathlib.Data.List.Infix

/-! The conversions `%a` and `%A` of `__strptime_internal` in the C locale. -/

namespace Nglibc.Strptime

open List

/-- `enum ptime_locale_status`. -/
inductive LocaleStatus where
  | not
  | loc
  | raw
deriving DecidableEq

def toLower (c : UInt8) : UInt8 := if 65 ≤ c ∧ c ≤ 90 then c + 32 else c

def weekdayName : Fin 7 → List UInt8
  | 0 => [83, 117, 110, 100, 97, 121]
  | 1 => [77, 111, 110, 100, 97, 121]
  | 2 => [84, 117, 101, 115, 100, 97, 121]
  | 3 => [87, 101, 100, 110, 101, 115, 100, 97, 121]
  | 4 => [84, 104, 117, 114, 115, 100, 97, 121]
  | 5 => [70, 114, 105, 100, 97, 121]
  | 6 => [83, 97, 116, 117, 114, 100, 97, 121]

def abWeekdayName : Fin 7 → List UInt8
  | 0 => [83, 117, 110]
  | 1 => [77, 111, 110]
  | 2 => [84, 117, 101]
  | 3 => [87, 101, 100]
  | 4 => [84, 104, 117]
  | 5 => [70, 114, 105]
  | 6 => [83, 97, 116]

/-- A name is at a place of the text, whatever the case of its letters. -/
def Starts (name text : List UInt8) (rp : Nat) : Prop :=
  name.map toLower <+: (text.drop rp).map toLower

instance (name text : List UInt8) (rp : Nat) : Decidable (Starts name text rp) :=
  inferInstanceAs (Decidable (_ <+: _))

/-- `match_string` for the text from `rp` on: the pointer behind the name. -/
def matchString (name text : List UInt8) (rp : Nat) : Option Nat :=
  if Starts name text rp then some (rp + name.length) else none

/-- The variables of the loop: `rp`, `rp_longest` and `cnt_longest`, none before there is a name,
and `decided_longest`.
-/
structure WeekdayScan where
  rp : Nat
  longest : Option Nat
  cnt : Option (Fin 7)
  decided : LocaleStatus

/-- `trp > rp_longest`. -/
def WeekdayScan.further (s : WeekdayScan) (trp : Nat) : Bool := s.longest.all fun p => p < trp

/-- A name of the locale, with the one of the C locale. -/
def WeekdayScan.localName (text : List UInt8) (decided : LocaleStatus) (name rawName : List UInt8)
    (cnt : Fin 7) (s : WeekdayScan)
    : WeekdayScan :=
  match matchString name text s.rp with
  | some trp =>
    if s.further trp then
      { s with
        longest := some trp
        cnt := some cnt
        decided := if decided = .not ∧ name ≠ rawName then .loc else s.decided }
    else s
  | none => s

/-- The names of the C locale. The match of the short one moves `rp` itself, and `trp` stays. -/
def WeekdayScan.rawNames (text : List UInt8) (cnt : Fin 7) (s : WeekdayScan) : WeekdayScan :=
  match (matchString (weekdayName cnt) text s.rp).filter s.further with
  | some trp => { s with longest := some trp, cnt := some cnt, decided := .raw }
  | none =>
    match matchString (abWeekdayName cnt) text s.rp with
    | some rp =>
      if s.further s.rp then { rp, longest := some s.rp, cnt := some cnt, decided := .raw }
      else { s with rp }
    | none => s

def WeekdayScan.step (text : List UInt8) (decided : LocaleStatus) (s : WeekdayScan) (cnt : Fin 7)
    : WeekdayScan :=
  let s :=
    if decided ≠ .raw then
      (s.localName text decided (weekdayName cnt) (weekdayName cnt) cnt).localName text decided
        (abWeekdayName cnt) (abWeekdayName cnt) cnt
    else s
  if decided ≠ .loc then s.rawNames text cnt else s

def scanWeekdays (decided : LocaleStatus) (text : List UInt8) : WeekdayScan :=
  (List.finRange 7).foldl (WeekdayScan.step text decided) ⟨0, none, none, decided⟩

/-- The pointer behind the name, `tm_wday` and the decision, none where the result is `NULL`. -/
def parseWeekday (decided : LocaleStatus) (text : List UInt8)
    : Option (Nat × Fin 7 × LocaleStatus) :=
  let s := scanWeekdays decided text
  s.longest.bind fun rp => s.cnt.map fun cnt => (rp, cnt, s.decided)

/-- The first `n` bytes are a full or a short name of the day. -/
def Named (text : List UInt8) (day : Fin 7) (n : Nat) : Prop :=
  ∃ name ∈ [weekdayName day, abWeekdayName day], name.length = n ∧ Starts name text 0

/-- The conversion takes the longest name, and fails only without a name. -/
def TakesLongest (decided : LocaleStatus) (text : List UInt8) : Prop :=
  (∀ rp day last, parseWeekday decided text = some (rp, day, last) →
      Named text day rp ∧ ∀ other n, Named text other n → n ≤ rp)
    ∧ (parseWeekday decided text = none → ∀ day n, ¬ Named text day n)

section

variable {text : List UInt8} {decided : LocaleStatus} {s : WeekdayScan} {i j day : Fin 7}
  {rp : Nat} {days : List (Fin 7)}

theorem matchString_some {name : List UInt8} (starts : Starts name text rp)
    : matchString name text rp = some (rp + name.length) := if_pos starts

theorem matchString_none {name : List UInt8} (none : ¬ Starts name text rp)
    : matchString name text rp = Option.none := if_neg none

theorem abWeekdayName_length : ∀ day : Fin 7, (abWeekdayName day).length = 3 := by decide

/-- A full name starts with the short one. -/
theorem Starts.short (full : Starts (weekdayName day) text rp)
    : Starts (abWeekdayName day) text rp := by
  have short : ∀ day, (abWeekdayName day).map toLower <+: (weekdayName day).map toLower := by decide
  exact (short day).trans full

theorem Starts.unique (first : Starts (abWeekdayName i) text rp)
    (second : Starts (abWeekdayName j) text rp)
    : i = j := by
  have distinct : ∀ i j, (abWeekdayName i).map toLower = (abWeekdayName j).map toLower → i = j := by
    decide
  have le := prefix_of_prefix_length_le first second
    (by simp only [length_map, abWeekdayName_length, Nat.le_refl])
  exact distinct i j (le.eq_of_length (by simp only [length_map, abWeekdayName_length]))

/-- Behind the first three letters of a full name no name starts. -/
theorem Starts.rest (full : Starts (weekdayName i) text rp)
    : ¬ Starts (abWeekdayName j) text (rp + 3) := by
  intro short
  have apart : ∀ i j, ¬ (abWeekdayName j).map toLower <+: ((weekdayName i).map toLower).drop 3 := by
    decide
  have long : ∀ i, 3 ≤ (((weekdayName i).map toLower).drop 3).length := by decide
  refine apart i j (prefix_of_prefix_length_le short ?_ ?_)
  · have dropped := List.IsPrefix.drop full 3
    rwa [← @map_drop _ _ _ (text.drop rp), drop_drop] at dropped
  · rw [length_map, abWeekdayName_length]
    exact long i

theorem step_other (none : ¬ Starts (abWeekdayName day) text s.rp)
    : s.step text decided day = s := by
  have full : ¬ Starts (weekdayName day) text s.rp := fun full => none full.short
  unfold WeekdayScan.step WeekdayScan.localName WeekdayScan.rawNames
  simp only [matchString_none none, matchString_none full, Option.filter_none, ite_self]

theorem foldl_other (none : ∀ day ∈ days, ¬ Starts (abWeekdayName day) text s.rp)
    : days.foldl (WeekdayScan.step text decided) s = s := by
  induction days with
  | nil => rfl
  | cons day days ih =>
    rw [foldl_cons, step_other (none day mem_cons_self)]
    exact ih fun other member => none other (mem_cons_of_mem _ member)

/-- A day keeps the longest name or takes one of its own. -/
theorem step_cnt
    : ((s.step text decided day).longest = s.longest ∧ (s.step text decided day).cnt = s.cnt)
      ∨ (s.step text decided day).cnt = some day := by
  unfold WeekdayScan.step WeekdayScan.localName WeekdayScan.rawNames
  grind

/-- The scan does not end with the name of the day `i` at the front. -/
def WeekdayScan.Lost (i : Fin 7) (s : WeekdayScan) : Prop := s.longest = some 0 ∨ s.cnt ≠ some i

theorem WeekdayScan.Lost.foldl (lost : s.Lost i) (others : ∀ day ∈ days, day ≠ i)
    : (days.foldl (WeekdayScan.step text decided) s).Lost i := by
  induction days generalizing s with
  | nil => exact lost
  | cons day days ih =>
    obtain ⟨here, rest⟩ := forall_mem_cons.mp others
    refine ih ?_ rest
    unfold WeekdayScan.Lost
    rcases @step_cnt text decided s day with ⟨longest, cnt⟩ | cnt
    · rw [longest, cnt]
      exact lost
    · rw [cnt]
      exact .inr fun same => here (Option.some.inj same)

/-- The scan up to the day whose name is there. -/
theorem scanWeekdays_eq (here : Starts (abWeekdayName i) text 0)
    : ∃ behind : List (Fin 7), (∀ day, day ∈ behind ↔ i < day) ∧ scanWeekdays decided text
        = behind.foldl (WeekdayScan.step text decided)
            (WeekdayScan.step text decided ⟨0, none, none, decided⟩ i) := by
  obtain ⟨before, behind, split⟩ := append_of_mem (mem_finRange i)
  have ordered := pairwise_lt_finRange 7
  rw [split, pairwise_append, pairwise_cons] at ordered
  obtain ⟨-, ⟨later, -⟩, earlier⟩ := ordered
  have first : ∀ day ∈ before, day < i := fun day member => earlier day member i mem_cons_self
  refine ⟨behind, fun day => ⟨later day, fun less => ?_⟩, ?_⟩
  · have member := mem_finRange day
    rw [split, mem_append, mem_cons] at member
    rcases member with member | rfl | member
    · exact absurd (first day member) (lt_asymm less)
    · exact absurd less (lt_irrefl day)
    · exact member
  · have skip := @foldl_other text decided ⟨0, none, none, decided⟩ before
      fun day member there => (first day member).ne (Starts.unique there here)
    rw [scanWeekdays, split, foldl_append, foldl_cons, skip]

/-- The longest of the names at the front. -/
theorem named_longest (here : Starts (abWeekdayName i) text 0) {n : Nat}
    (length : Starts (weekdayName i) text 0 ∧ n = (weekdayName i).length
      ∨ ¬ Starts (weekdayName i) text 0 ∧ n = 3)
    : Named text i n ∧ ∀ other m, Named text other m → m ≤ n := by
  have longer : ∀ day, 3 ≤ (weekdayName day).length := by decide
  refine ⟨?_, ?_⟩
  · rcases length with ⟨full, rfl⟩ | ⟨-, rfl⟩
    · exact ⟨_, mem_cons_self, rfl, full⟩
    · exact ⟨_, mem_cons_of_mem _ mem_cons_self, abWeekdayName_length i, here⟩
  · rintro other m ⟨name, member, rfl, there⟩
    rcases mem_pair.mp member with rfl | rfl
    · obtain rfl := there.short.unique here
      rcases length with ⟨-, rfl⟩ | ⟨short, -⟩
      · exact le_rfl
      · exact absurd there short
    · rw [abWeekdayName_length]
      have long := longer i
      omega

theorem Named.starts {n : Nat} (named : Named text day n) : Starts (abWeekdayName day) text 0 := by
  obtain ⟨name, member, -, there⟩ := named
  rcases mem_pair.mp member with rfl | rfl
  · exact there.short
  · exact there

/-- What the first name at the front does. -/
theorem step_here (here : Starts (abWeekdayName i) text 0)
    : WeekdayScan.step text decided ⟨0, none, none, decided⟩ i
      = if Starts (weekdayName i) text 0 then
          ⟨if decided = .not then 3 else 0, some (weekdayName i).length, some i, decided⟩
        else if decided = .raw then ⟨3, some 0, some i, .raw⟩
        else ⟨if decided = .not then 3 else 0, some 3, some i, decided⟩ := by
  have short := matchString_some here
  rw [abWeekdayName_length] at short
  have longer : ∀ day, 3 < (weekdayName day).length := by decide
  have long := longer i
  unfold WeekdayScan.step WeekdayScan.localName WeekdayScan.rawNames WeekdayScan.further
  by_cases full : Starts (weekdayName i) text 0
  · have whole := matchString_some full
    rw [Nat.zero_add] at whole
    cases decided <;> simp [short, whole, full, Option.filter_some, Nat.not_lt.mpr long.le]
  · have none := matchString_none full
    cases decided <;> simp [short, none, full]

/-- A later day whose short name is behind the first one is taken for the longest. -/
theorem step_later (there : Starts (abWeekdayName day) text 3)
    : (WeekdayScan.step text .not ⟨3, some 3, some i, .not⟩ day).cnt = some day := by
  have short := matchString_some there
  rw [abWeekdayName_length] at short
  unfold WeekdayScan.step WeekdayScan.localName WeekdayScan.rawNames WeekdayScan.further
  by_cases full : Starts (weekdayName day) text 3
  · have longer : ∀ day, 3 < (weekdayName day).length := by decide
    have late : ¬ 3 + (weekdayName day).length < 6 :=
      Nat.not_lt.mpr (Nat.add_le_add_left (longer day).le 3)
    simp [matchString_some full, short, late, Option.filter_some, Nat.zero_lt_of_lt (longer day),
      Nat.not_lt.mpr (Nat.le_add_right 3 _)]
  · simp [matchString_none full, short]

private theorem foldl_later (others : ∀ day ∈ days, day ≠ i)
    (later : ∃ day ∈ days, Starts (abWeekdayName day) text 3)
    : (days.foldl (WeekdayScan.step text .not) ⟨3, some 3, some i, .not⟩).Lost i := by
  induction days with
  | nil =>
    obtain ⟨day, member, -⟩ := later
    cases member
  | cons day days ih =>
    obtain ⟨here, rest⟩ := forall_mem_cons.mp others
    rw [foldl_cons]
    by_cases there : Starts (abWeekdayName day) text 3
    · refine WeekdayScan.Lost.foldl (.inr ?_) rest
      rw [step_later there]
      exact fun same => here (Option.some.inj same)
    · rw [step_other there]
      refine ih rest ?_
      obtain ⟨other, member, starts⟩ := later
      rcases mem_cons.mp member with rfl | member
      · exact absurd starts there
      · exact ⟨other, member, starts⟩

/-- The scan is right if it ends with the longest name at the front. -/
theorem takesLongest_of (here : Starts (abWeekdayName i) text 0) {rp n : Nat}
    (scan : scanWeekdays decided text = ⟨rp, some n, some i, decided⟩)
    (length : Starts (weekdayName i) text 0 ∧ n = (weekdayName i).length
      ∨ ¬ Starts (weekdayName i) text 0 ∧ n = 3)
    : TakesLongest decided text := by
  have result : parseWeekday decided text = some (n, i, decided) := by rw [parseWeekday, scan]; rfl
  refine ⟨fun rp day last found => ?_, fun none => ?_⟩
  · cases result.symm.trans found
    exact named_longest here length
  · cases result.symm.trans none

private theorem not_takesLongest (here : Starts (abWeekdayName i) text 0) {s : WeekdayScan}
    (scan : scanWeekdays decided text = s) (lost : s.Lost i)
    : ¬ TakesLongest decided text := by
  have short : Named text i 3 :=
    ⟨_, mem_cons_of_mem _ mem_cons_self, abWeekdayName_length i, here⟩
  rintro ⟨right, fails⟩
  cases result : parseWeekday decided text with
  | none => exact fails result i 3 short
  | some found =>
    obtain ⟨rp, day, last⟩ := found
    obtain ⟨named, most⟩ := right rp day last result
    obtain rfl := named.starts.unique here
    rw [parseWeekday, scan] at result
    obtain ⟨n, longest, found⟩ := Option.bind_eq_some_iff.mp result
    obtain ⟨other, cnt, same⟩ := Option.map_eq_some_iff.mp found
    cases same
    rcases lost with zero | other
    · have more := most day 3 short
      rw [longest] at zero
      cases zero
      omega
    · exact other cnt

/-- The conversion takes the longest name whenever the locale has been decided on. With the names of
the C locale it does so exactly if a short name is the beginning of a full one, and without a
decision exactly if no short name is followed by the one of a later day.
-/
theorem takesLongest_iff (decided : LocaleStatus) (text : List UInt8)
    : TakesLongest decided text ↔ match decided with
        | .not => ∀ day later, day < later → Starts (abWeekdayName day) text 0 →
            ¬ Starts (abWeekdayName later) text 3
        | .loc => True
        | .raw => ∀ day, Starts (abWeekdayName day) text 0 → Starts (weekdayName day) text 0 := by
  by_cases named : ∃ i, Starts (abWeekdayName i) text 0
  · obtain ⟨i, here⟩ := named
    obtain ⟨behind, later, scan⟩ := @scanWeekdays_eq text decided i here
    have others : ∀ day ∈ behind, day ≠ i := fun day member => ((later day).mp member).ne'
    have stay : ∀ s, (∀ day ∈ behind, ¬ Starts (abWeekdayName day) text s.rp) →
        behind.foldl (WeekdayScan.step text decided) s = s := fun s => foldl_other
    have skip : ∀ n d, behind.foldl (WeekdayScan.step text decided) ⟨0, n, some i, d⟩
        = ⟨0, n, some i, d⟩ :=
      fun n d => stay _ fun day member there => others day member (Starts.unique there here)
    rw [step_here here] at scan
    by_cases full : Starts (weekdayName i) text 0
    · rw [if_pos full] at scan
      have right : TakesLongest decided text := by
        by_cases undecided : decided = .not
        · rw [if_pos undecided, stay _ fun day _ => full.rest] at scan
          exact takesLongest_of here scan (.inl ⟨full, rfl⟩)
        · rw [if_neg undecided, skip] at scan
          exact takesLongest_of here scan (.inl ⟨full, rfl⟩)
      refine iff_of_true right ?_
      cases decided with
      | not =>
        intro day other _ first
        obtain rfl := first.unique here
        exact full.rest
      | loc => trivial
      | raw =>
        intro day first
        obtain rfl := first.unique here
        exact full
    · rw [if_neg full] at scan
      cases decided with
      | not =>
        rw [if_pos rfl] at scan
        by_cases more : ∃ day ∈ behind, Starts (abWeekdayName day) text 3
        · refine iff_of_false (not_takesLongest here scan (foldl_later others more)) ?_
          intro none
          obtain ⟨day, member, there⟩ := more
          exact none i day ((later day).mp member) here there
        · rw [stay _ fun day member there => more ⟨day, member, there⟩] at scan
          refine iff_of_true (takesLongest_of here scan (.inr ⟨full, rfl⟩)) ?_
          intro day other less first there
          obtain rfl := first.unique here
          exact more ⟨other, (later other).mpr less, there⟩
      | loc =>
        rw [if_neg (by decide), if_neg (by decide), skip] at scan
        exact iff_of_true (takesLongest_of here scan (.inr ⟨full, rfl⟩)) trivial
      | raw =>
        rw [if_pos rfl] at scan
        have lost : WeekdayScan.Lost i ⟨3, some 0, some i, .raw⟩ := .inl rfl
        exact iff_of_false (not_takesLongest here scan (lost.foldl others)) fun all =>
          full (all i here)
  · have none : ∀ i, ¬ Starts (abWeekdayName i) text 0 := fun i there => named ⟨i, there⟩
    refine iff_of_true ?_ ?_
    · have result : parseWeekday decided text = Option.none := by
        rw [parseWeekday, scanWeekdays, foldl_other fun day _ => none day]
        rfl
      refine ⟨fun rp day last found => ?_, fun _ day n there => none day there.starts⟩
      cases result.symm.trans found
    · cases decided with
      | not => exact fun day _ _ there => absurd there (none day)
      | loc => trivial
      | raw => exact fun day there => absurd there (none day)

/-- "MonTue" is taken for Tuesday, and "Mon" is not read with the names of the C locale. -/
theorem not_takesLongest_short
    : ¬ TakesLongest .not [77, 111, 110, 84, 117, 101] ∧ ¬ TakesLongest .raw [77, 111, 110] := by
  refine ⟨fun right => ?_, fun right => ?_⟩
  · obtain ⟨name, member, length, -⟩ := (right.1 6 2 .not (by decide +kernel)).1
    rcases mem_pair.mp member with rfl | rfl <;> cases length
  · have short : Named [77, 111, 110] 1 3 := ⟨_, mem_cons_of_mem _ mem_cons_self, rfl, by decide⟩
    exact absurd ((right.1 0 1 .raw (by decide +kernel)).2 1 3 short) (by decide)

end

end Nglibc.Strptime
