import Nglibc.Time.TzsetParse

/-! The days of the rules in the Gregorian calendar, which `compute_change` finds by Zeller's
congruence.
-/

namespace Nglibc.Time

open Nglibc.Gregorian

/-- The day of the week, from 0 for Sunday. January 1st, 1970 was a Thursday. -/
def weekday (day : Int) : Int := (4 + day) % 7

/-- The day of a rule in a year. The fifth week stands for the last one of the month. -/
def ruleDay (rule : TzRule) (year : Int) : Int :=
  match rule.type with
  | .J1 => newYear year + rule.d - 1 + if rule.d ≥ 60 ∧ IsLeap year then 1 else 0
  | .J0 => newYear year + rule.d
  | .M =>
    let leap := decide (IsLeap year)
    let first := newYear year + monthStart leap (rule.m - 1)
    let length := monthStart leap rule.m - monthStart leap (rule.m - 1)
    let d := (rule.d - weekday first) % 7
    first + d + 7 * min (rule.n - 1 : Int) ((length - 1 - d) / 7)

def ruleTime (rule : TzRule) (year : Int) : Int :=
  86400 * ruleDay rule year - rule.offset + rule.secs

structure TzRule.Dated (rule : TzRule) : Prop where
  julian : rule.type = .J1 → 1 ≤ rule.d
  day : rule.type ≠ .M → rule.d ≤ 365
  month : rule.type = .M → 1 ≤ rule.m ∧ rule.m ≤ 12
  week : rule.type = .M → 1 ≤ rule.n ∧ rule.n ≤ 5
  weekday : rule.type = .M → rule.d ≤ 6

theorem TzRule.Dated.monthly {rule : TzRule} (monthly : rule.type = .M)
    (month : 1 ≤ rule.m ∧ rule.m ≤ 12) (week : 1 ≤ rule.n ∧ rule.n ≤ 5) (weekday : rule.d ≤ 6)
    : rule.Dated :=
  ⟨fun julian => absurd (monthly.symm.trans julian) (by decide),
    fun other => absurd monthly other, fun _ => month, fun _ => week, fun _ => weekday⟩

/-- A rule of the syntax, with the change of the year that it was computed for. -/
structure TzRule.WellFormed (around : Int → UInt16) (rule : TzRule) : Prop where
  sized : rule.Sized
  dated : rule.Dated
  cached : rule.computedFor = -1 ∨ changeTime around rule rule.computedFor = some rule.change

theorem isleap_eq (year : Int) : isleap year = decide (IsLeap year) := by
  rw [Bool.eq_iff_iff, isleap_iff, decide_eq_true_iff]

variable {m : Nat}

/-- The days before a month of the year that Zeller's congruence counts from March on. -/
theorem firstDay_eq (year : Int) (month : 1 ≤ m ∧ m ≤ 12)
    : newYear year + monthStart (decide (IsLeap year)) (m - 1)
      = if m ≤ 2 then newYear year + monthStart false (m - 1)
        else newYear (year + 1) - 365 + monthStart false (m - 1) := by
  have ends := newYear_succ year
  unfold yearLength at ends
  obtain ⟨low, high⟩ := month
  by_cases leap : IsLeap year
  · rw [if_pos leap] at ends
    rw [decide_eq_true leap]
    interval_cases m <;> simp [monthStart] <;> omega
  · rw [decide_eq_false leap, ends]
    split_ifs <;> omega

theorem centuryDays_mod (y : Int)
    : (365 * y + leapsThrough y) % 7
      = (y % 100 + y % 100 / 4 + y / 100 / 4 - 2 * (y / 100)) % 7 := by
  have fourth : y / 4 = 25 * (y / 100) + y % 100 / 4 := by omega
  have fourCenturies : y / 400 = y / 100 / 4 := by omega
  unfold leapsThrough
  omega

theorem weekday_year (year c : Int)
    : weekday (newYear (year + 1) + c)
      = (year % 100 + year % 100 / 4 + year / 100 / 4 - 2 * (year / 100) + c + 1) % 7 := by
  have days := centuryDays_mod year
  unfold weekday newYear
  rw [show year + 1 - 1 = year by omega]
  omega

variable {year : Int} {rule rule' : TzRule} {tz rest : List UInt8}

/-- Zeller's congruence holds for years after Christ. -/
theorem zeller_eq (month : 1 ≤ m ∧ m ≤ 12) (range : 1 ≤ year ∧ year ≤ 2147483647)
    : zeller year m
      = some (weekday (newYear year + monthStart (decide (IsLeap year)) (m - 1))) := by
  rw [firstDay_eq year month]
  unfold zeller
  simp only [Option.bind_eq_bind]
  rw [int32_some (by split_ifs <;> omega) (by split_ifs <;> omega), Option.bind_some]
  generalize same : (if m ≤ 2 then year - 1 else year) = yy0
  have nonneg : 0 ≤ yy0 := by split_ifs at same <;> omega
  rw [Int.tdiv_eq_ediv_of_nonneg nonneg, Int.tmod_eq_emod_of_nonneg nonneg,
    Int.tdiv_eq_ediv_of_nonneg (by omega),
    Int.tdiv_eq_ediv_of_nonneg (by omega),
    Int.tdiv_eq_ediv_of_nonneg (by omega),
    int32_some (by omega) (by omega), Option.bind_some, int32_some (by omega) (by omega)]
  have day : (if m ≤ 2 then newYear year + monthStart false (m - 1)
      else newYear (year + 1) - 365 + monthStart false (m - 1))
      = newYear (yy0 + 1) + ((if m ≤ 2 then 0 else -365) + monthStart false (m - 1)) := by
    split_ifs at same ⊢
    · rw [← same, sub_add_cancel, zero_add]
    · rw [← same]
      ring
  rw [day, weekday_year]
  have months : ((26 * (((m : Int) + 9) % 12 + 1) - 2) / 10 + 1) % 7
      = ((if m ≤ 2 then 0 else -365) + monthStart false (m - 1) + 1) % 7 := by
    obtain ⟨low, high⟩ := month
    interval_cases m <;> decide
  refine congrArg some ?_
  generalize (26 * (((m : Int) + 9) % 12 + 1) - 2) / 10 = days at months
  generalize ((if m ≤ 2 then 0 else -365) + monthStart false (m - 1) : Int) = shift at months
  have week := tdiv_tmod (days + 1 + yy0 % 100 + yy0 % 100 / 4 + yy0 / 100 / 4
    - 2 * (yy0 / 100)) (show (0 : Int) < 7 by norm_num)
  split_ifs <;> omega

theorem weekLoop_eq {length d : Int} (inside : d < length) (weeks : Nat)
    : weekLoop length weeks d = d + 7 * min (weeks : Int) ((length - 1 - d) / 7) := by
  induction weeks generalizing d with
  | zero =>
    rw [weekLoop]
    omega
  | succ weeks ih =>
    rw [weekLoop]
    split_ifs with last
    · omega
    · rw [ih (by omega)]
      omega

theorem monYdayAt_eq (around : Int → UInt16) (leap : Bool) {month : Nat} (known : month ≤ 12)
    : monYdayAt around leap month = monthStart leap month := by
  unfold monYdayAt monYday
  cases leap with
  | false =>
    simp only [Bool.false_eq_true, if_false, add_zero]
    rw [if_pos (by omega), Int.toNat_natCast]
  | true =>
    simp only [if_true]
    rw [if_neg (by omega), if_pos (by omega), add_sub_cancel_right, Int.toNat_natCast]

/-- A month has at least four weeks and at most 31 days. -/
theorem monthLength_bounds (leap : Bool) (month : 1 ≤ m ∧ m ≤ 12)
    : 28 ≤ monthStart leap m - monthStart leap (m - 1)
      ∧ monthStart leap m - monthStart leap (m - 1) ≤ 31 := by
  obtain ⟨low, high⟩ := month
  cases leap <;> interval_cases m <;> decide

theorem monthStart_bounds (leap : Bool) (known : m ≤ 12)
    : 0 ≤ monthStart leap m ∧ monthStart leap m ≤ 366 := by
  cases leap <;> interval_cases m <;> decide

theorem monthStart_close (leap leap' : Bool) (known : m ≤ 12)
    : monthStart leap m ≤ monthStart leap' m + 1 := by
  cases leap <;> cases leap' <;> interval_cases m <;> decide

section

variable {around : Int → UInt16} {rule : TzRule}

theorem ruleDay_bounds (dated : rule.Dated) (year : Int)
    : newYear year ≤ ruleDay rule year ∧ ruleDay rule year ≤ newYear year + 366 := by
  have julian := dated.julian
  have day := dated.day
  have month := dated.month
  have week := dated.week
  unfold ruleDay
  cases type : rule.type with
  | J0 =>
    have := day (by simp [type])
    dsimp only
    omega
  | J1 =>
    have := day (by simp [type])
    have := julian type
    dsimp only
    split_ifs <;> omega
  | M =>
    have length := monthLength_bounds (decide (IsLeap year)) (month type)
    have first := monthStart_bounds (decide (IsLeap year)) (month type).2
    have start := monthStart_bounds (decide (IsLeap year))
      (show rule.m - 1 ≤ 12 from (Nat.sub_le _ _).trans (month type).2)
    have weeks := week type
    dsimp only
    omega

/-- A rule with a month denotes a day of the week in that month: the first one to the fourth one,
or the last one.
-/
def TzRule.OnWeekday (rule : TzRule) (year : Int) : Prop := weekday (ruleDay rule year) = rule.d
  ∧ ∃ day, ruleDay rule year = newYear year + monthStart (decide (IsLeap year)) (rule.m - 1) + day
    ∧ 0 ≤ day ∧ day < monthStart (decide (IsLeap year)) rule.m
      - monthStart (decide (IsLeap year)) (rule.m - 1)
    ∧ (day / 7 = rule.n - 1 ∨ (day / 7 < rule.n - 1 ∧ monthStart (decide (IsLeap year)) rule.m
        - monthStart (decide (IsLeap year)) (rule.m - 1) ≤ day + 7))

theorem ruleDay_monthly (dated : rule.Dated) (type : rule.type = .M) (year : Int)
    : rule.OnWeekday year := by
  have length := monthLength_bounds (decide (IsLeap year)) (dated.month type)
  have week := dated.week type
  have day := dated.weekday type
  unfold TzRule.OnWeekday ruleDay weekday
  rw [type]
  dsimp only
  refine ⟨by omega, _, by rw [add_assoc], by omega, by omega, by omega⟩

/-- The day of the year of a change, by the calendar, for each form of a rule. -/
theorem ruleDays_eq (dated : rule.Dated) (range : 1 ≤ year ∧ year ≤ 2147483647)
    : ruleDays around rule year = some (ruleDay rule year - newYear year) := by
  unfold ruleDays ruleDay
  cases type : rule.type with
  | J0 =>
    refine congrArg some ?_
    dsimp only
    omega
  | J1 =>
    refine congrArg some ?_
    simp only [isleap_iff]
    omega
  | M =>
    have month := dated.month type
    have week := dated.week type
    have day := dated.weekday type
    have length := monthLength_bounds (decide (IsLeap year)) month
    dsimp only
    rw [zeller_eq month range, Option.bind_eq_bind, isleap_eq,
      show ((rule.m : Int) - 1) = ((rule.m - 1 : Nat) : Int) by omega,
      monYdayAt_eq around _ month.2, monYdayAt_eq around _ (by omega)]
    refine congrArg some ?_
    generalize newYear year = start
    generalize monthStart (decide (IsLeap year)) (rule.m - 1) = first at length
    have bounds : 0 ≤ weekday (start + first) ∧ weekday (start + first) < 7 := by
      unfold weekday
      omega
    generalize weekday (start + first) = dow at bounds
    have found : (if (rule.d : Int) - dow < 0 then (rule.d : Int) - dow + 7
        else (rule.d : Int) - dow) = (rule.d - dow) % 7 := by
      split_ifs <;> omega
    rw [weekLoop_eq (by omega)]
    omega

theorem changeTime_eq (around : Int → UInt16) (sized : rule.Sized) (dated : rule.Dated)
    (later : 1970 < year) (early : year ≤ lastRuleYear)
    : changeTime around rule year = some (ruleTime rule year) := by
  have last : lastRuleYear = 5881459 := rfl
  obtain ⟨days, found, -, -, change⟩ := changeTime_some around sized (by omega) early
  rw [ruleDays_eq dated (by omega)] at found
  rw [change, if_pos (by omega), ← Option.some.inj found]
  refine congrArg some ?_
  unfold ruleTime
  ring

theorem computeChange_rule (formed : rule.WellFormed around) (range : 1970 < year ∧ year ≤ lastRuleYear)
    : computeChange around rule year
      = some { rule with change := ruleTime rule year, computedFor := year } := by
  have time := changeTime_eq around formed.sized formed.dated range.1 range.2
  unfold computeChange
  split_ifs with cached
  · obtain ⟨-, rfl⟩ := cached
    have change := formed.cached.resolve_left (by omega)
    rw [time] at change
    rw [Option.some.inj change]
  · rw [time, Option.map_some]

theorem computeChange_eq (formed : rule.WellFormed around) (range : 1971 ≤ year ∧ year ≤ 9999)
    : computeChange around rule year
      = some { rule with change := ruleTime rule year, computedFor := year } :=
  have last : lastRuleYear = 5881459 := rfl
  computeChange_rule formed (by omega)

/-- `compute_change` finds the time of a rule in each year whose days it can count with numbers of
type `int`, and in no other year. A cached time is one that was computed before.
-/
theorem computeChange_exact_iff (around : Int → UInt16) (sized : rule.Sized) (dated : rule.Dated)
    {tmYear : Int} (later : 1970 < 1900 + tmYear) (int : tmYear ≤ 2147483647)
    (cached : rule.computedFor = 1900 + tmYear →
      changeTime around rule (1900 + tmYear) = some rule.change)
    : ((int32 (1900 + tmYear)).bind (computeChange around rule) = some { rule with
            change := 86400 * ruleDay rule (1900 + tmYear) - rule.offset + rule.secs
            computedFor := 1900 + tmYear })
      ↔ 1900 + tmYear ≤ lastRuleYear := by
  have last : lastRuleYear = 5881459 := rfl
  constructor
  · intro stored
    by_contra late
    by_cases wide : 1900 + tmYear ≤ 2147483647
    · have none : changeTime around rule (1900 + tmYear) = none := by
        unfold changeTime
        rw [yearStart_none (by omega) wide]
        rfl
      rw [int32_some (by omega) wide, Option.bind_some, computeChange] at stored
      split_ifs at stored with same
      · rw [cached same.2] at none
        cases none
      · rw [none] at stored
        cases stored
    · rw [int32_none (by omega)] at stored
      cases stored
  · intro early
    have time := changeTime_eq around sized dated later early
    rw [int32_some (by omega) (by omega), Option.bind_some, computeChange]
    split_ifs with same
    · have change := cached same.2
      rw [time] at change
      have stored : rule.change = 86400 * ruleDay rule (1900 + tmYear) - rule.offset + rule.secs :=
        (Option.some.inj change).symm
      rw [← stored, ← same.2]
    · rw [time]
      rfl

/-- The start of daylight saving time in New York, in the year 2024. -/
theorem computeChange_exact_newYork
    : (int32 (1900 + 124)).bind (computeChange (fun _ => 0)
        ⟨[69, 83, 84], .M, 3, 2, 0, 7200, -18000, 0, -1⟩)
      = some ⟨[69, 83, 84], .M, 3, 2, 0, 7200, -18000, 1710054000, 2024⟩ := by
  have exact := (@computeChange_exact_iff ⟨[69, 83, 84], .M, 3, 2, 0, 7200, -18000, 0, -1⟩
    (fun _ => 0) ⟨by norm_num, by norm_num, by norm_num, by norm_num, by norm_num⟩
    (.monthly rfl (by norm_num) (by norm_num) (by norm_num)) 124 (by norm_num) (by norm_num)
    (by norm_num)).mpr (by decide)
  exact exact

/-- The days up to the year 6000000 do not fit in an `int`. -/
theorem not_computeChange_exact
    : ¬ ∀ (around : Int → UInt16) (rule : TzRule), rule.Sized → rule.Dated → ∀ tmYear : Int,
      1970 < 1900 + tmYear → tmYear ≤ 2147483647 → rule.computedFor = -1 →
      (int32 (1900 + tmYear)).bind (computeChange around rule) = some { rule with
            change := 86400 * ruleDay rule (1900 + tmYear) - rule.offset + rule.secs
            computedFor := 1900 + tmYear } := by
  intro exact
  have stored := exact (fun _ => 0) ⟨[69, 83, 84], .M, 3, 2, 0, 7200, -18000, 0, -1⟩
    ⟨by norm_num, by norm_num, by norm_num, by norm_num, by norm_num⟩
    (.monthly rfl (by norm_num) (by norm_num) (by norm_num)) 5998100 (by norm_num) (by norm_num) rfl
  cases stored

theorem TzRule.WellFormed.computeChange (formed : rule.WellFormed around) {rule' : TzRule}
    (run : Time.computeChange around rule year = some rule')
    : rule'.WellFormed around := by
  unfold Time.computeChange at run
  split_ifs at run
  · cases run
    exact formed
  · obtain ⟨change, found, rfl⟩ := Option.map_eq_some_iff.mp run
    obtain ⟨⟨hm, hn, hd, hsecs, hoffset⟩, ⟨julian, day, month, week, weekday⟩, -⟩ := formed
    exact ⟨⟨hm, hn, hd, hsecs, hoffset⟩, ⟨julian, day, month, week, weekday⟩, .inr found⟩

end

theorem parseJulian_dated (julian : rule.type ≠ .M) (parsed : parseJulian rule tz = (rule', some rest))
    : rule'.Dated := by
  unfold parseJulian at parsed
  dsimp only at parsed
  split_ifs at parsed with _ large zero
  · cases parsed
  · cases parsed
  · cases parsed
  · cases parsed
    exact ⟨fun type => Nat.pos_of_ne_zero fun none => zero ⟨type, none⟩, fun _ => not_lt.mp large,
      fun type => absurd type julian, fun type => absurd type julian,
      fun type => absurd type julian⟩

private theorem parseMonth_dated (month : rule.type = .M) (parsed : parseMonth rule tz = (rule', some rest))
    : rule'.Dated := by
  unfold parseMonth at parsed
  split at parsed
  · cases parsed
  · split at parsed
    · cases parsed
    · split at parsed
      · cases parsed
      · split_ifs at parsed with wrong
        · cases parsed
        · cases parsed
          push Not at wrong
          obtain ⟨low, high, first, last, day⟩ := wrong
          exact .monthly month ⟨low, high⟩ ⟨first, last⟩ day

private theorem parseDate_dated {isStd : Bool} (parsed : parseDate rule isStd tz = (rule', some rest))
    : rule'.Dated := by
  unfold parseDate at parsed
  cases tz with
  | nil =>
    split_ifs at parsed
    · cases parsed
      exact .monthly rfl (by norm_num) (by norm_num) (by norm_num)
    · cases parsed
      exact .monthly rfl (by norm_num) (by norm_num) (by norm_num)
  | cons c tz =>
    dsimp only at parsed
    split_ifs at parsed
    · exact parseJulian_dated (by simp) parsed
    · exact parseJulian_dated (by simp) parsed
    · exact parseMonth_dated rfl parsed
    · cases parsed

/-- What `parse_rule` accepts is well formed. -/
theorem parseRule_wellFormed (around : Int → UInt16) (fresh : rule.Fresh) {isStd : Bool}
    (parsed : parseRule rule isStd tz = (rule', some rest))
    : rule'.WellFormed around := by
  have sized : rule'.Sized := by
    have same := (fresh.parseRule isStd tz).sized
    rwa [parsed] at same
  unfold parseRule at parsed
  dsimp only at parsed
  generalize (if tz.head? = some 44 then tz.tail else tz) = text at parsed
  cases date : parseDate rule isStd text with
  | mk found ends =>
    rw [date] at parsed
    cases ends with
    | none => cases parsed
    | some more =>
      obtain ⟨julian, day, month, week, weekday⟩ := parseDate_dated date
      have dated : ∀ secs, TzRule.Dated { found with secs := secs, computedFor := -1 } :=
        fun _ => ⟨julian, day, month, week, weekday⟩
      cases more with
      | nil =>
        cases parsed
        exact ⟨sized, dated _, .inl rfl⟩
      | cons c more =>
        dsimp only at parsed
        split_ifs at parsed
        · cases parsed
        · cases parsed
          exact ⟨sized, dated _, .inl rfl⟩
        · cases parsed
          exact ⟨sized, dated _, .inl rfl⟩
        · cases parsed

/-- A rule keeps its meaning, whatever the years that it is computed for. -/
theorem changes_rule {around : Int → UInt16} {rule : TzRule} (formed : rule.WellFormed around)
    {years : List Int} (range : ∀ y ∈ year :: years, 1970 < y ∧ y ≤ lastRuleYear)
    : (years ++ [year]).foldlM (computeChange around) rule
      = some { rule with change := ruleTime rule year, computedFor := year } := by
  obtain ⟨last, before⟩ := List.forall_mem_cons.mp range
  induction years generalizing rule with
  | nil => exact (bind_pure _).trans (computeChange_rule formed last)
  | cons y years ih =>
    obtain ⟨first, later⟩ := List.forall_mem_cons.mp before
    have run := computeChange_rule formed first
    rw [List.cons_append, List.foldlM_cons, run]
    exact ih (formed.computeChange run) (List.forall_mem_cons.mpr ⟨last, later⟩) later

/-- An accepted rule has one time in a year, whatever years come before, on its day of the week. -/
theorem parseRule_changes (around : Int → UInt16) {rule rule' : TzRule} (fresh : rule.Fresh)
    {isStd : Bool} {tz rest : List UInt8} (parsed : parseRule rule isStd tz = (rule', some rest))
    {years : List Int} {year : Int} (range : ∀ y ∈ year :: years, 1970 < y ∧ y ≤ lastRuleYear)
    : (years ++ [year]).foldlM (computeChange around) rule' = some { rule' with
            change := 86400 * ruleDay rule' year - rule'.offset + rule'.secs
            computedFor := year }
      ∧ (rule'.type = .M → rule'.OnWeekday year) := by
  have formed := parseRule_wellFormed around fresh parsed
  exact ⟨changes_rule formed range, fun monthly => ruleDay_monthly formed.dated monthly year⟩

/-- The second Sunday of March, in the years 2025 and 2024. -/
theorem parseRule_changes_march
    : ([2025] ++ [2024]).foldlM (computeChange fun _ => 0)
        (parseRule clearedRule true [44, 77, 51, 46, 50, 46, 48]).1
      = some ⟨[], .M, 3, 2, 0, 7200, 0, 1710036000, 2024⟩ :=
  (@parseRule_changes (fun _ => 0) clearedRule _ clearedRule_fresh true [44, 77, 51, 46, 50, 46, 48]
    [] rfl [2025] 2024 (by decide)).1

end Nglibc.Time
