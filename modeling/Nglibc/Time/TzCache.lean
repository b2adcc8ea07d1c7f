import Nglibc.Time.Timegm
import Nglibc.Time.TzsetParse

/-! Conversions to local time after other conversions. The cached changes are seen in the year 0
only, where a rule that was not parsed counts as computed.
-/

namespace Nglibc.Time

open Nglibc.Gregorian

/-- A call of `__tz_convert`. -/
structure Call where
  timer : Int
  useLocaltime : Bool
  tp : Tm

def runCalls (around : Int → UInt16) (calls : List Call) (rules : TzRules) : Option TzRules :=
  calls.foldlM (fun rules call =>
    (tzConvert around rules call.timer call.useLocaltime call.tp).map fun result => result.1) rules

/-- After all histories, the conversion gives the same result. -/
def CacheInvisible (around : Int → UInt16) (tz : List UInt8) (t : Int) (tp : Tm) : Prop :=
  ∃ result, ∀ calls rules, runCalls around calls (tzsetParseTz tz) = some rules →
    ∃ rules', tzConvert around rules t true tp = some (rules', result)

def InYearZero (t : Int) : Prop := 86400 * newYear 0 ≤ t ∧ t < 86400 * newYear 1

/-- The change of a rule in the year 0, as `compute_change` computes it. -/
def zeroChange (around : Int → UInt16) (rule : TzRule) : Int :=
  (ruleDays around rule 0).getD 0 * 86400 - rule.offset + rule.secs

/-- The change that is used in the year 0 if no other year came before. -/
def firstChange (around : Int → UInt16) (rule : TzRule) : Int :=
  if rule.computedFor = 0 then 0 else zeroChange around rule

/-! One rule -/

section

variable (around : Int → UInt16)

def computedRule (fresh : TzRule) (year : Int) : Option TzRule :=
  (changeTime around fresh year).map fun change =>
    { fresh with change := change, computedFor := year }

/-- The rule that is used in the year 0 if no other year came before. -/
def firstRule (fresh : TzRule) : Option TzRule :=
  if fresh.computedFor = 0 then some fresh else computedRule around fresh 0

/-- A rule that was not computed for any year but 0. -/
def Stale (fresh rule : TzRule) : Prop := rule = fresh ∨ firstRule around fresh = some rule

def Valid (fresh rule : TzRule) : Prop := ∃ year, computedRule around fresh year = some rule

variable {around} {fresh rule : TzRule} {year : Int}

theorem computeChange_fresh (other : year ≠ 0 ∨ fresh.computedFor ≠ 0) (known : fresh.Fresh)
    : computeChange around fresh year = computedRule around fresh year := by
  unfold computeChange computedRule
  have start := known.computedFor
  rw [if_neg (by omega)]

theorem computeChange_computed {other : Int} (computed : computedRule around fresh other = some rule)
    : computeChange around rule year = computedRule around fresh year := by
  obtain ⟨change, found, rfl⟩ := Option.map_eq_some_iff.mp computed
  unfold computeChange computedRule
  split_ifs with cached
  · obtain ⟨-, rfl⟩ := cached
    rw [found, Option.map_some]
  · rfl

theorem computeChange_valid (valid : Valid around fresh rule)
    : computeChange around rule year = computedRule around fresh year := by
  obtain ⟨other, computed⟩ := valid
  exact computeChange_computed computed

theorem computeChange_stale (stale : Stale around fresh rule) (known : fresh.Fresh)
    : computeChange around rule year
      = if year = 0 then firstRule around fresh else computedRule around fresh year := by
  unfold Stale firstRule at *
  by_cases zero : fresh.computedFor = 0
  · rw [if_pos zero] at stale ⊢
    obtain rfl : rule = fresh := stale.elim id fun same => (Option.some.inj same).symm
    split_ifs with here
    · rw [here, computeChange, if_pos ⟨by decide, zero⟩]
    · exact computeChange_fresh (.inl here) known
  · rw [if_neg zero] at stale ⊢
    have same : computeChange around rule year = computedRule around fresh year := by
      rcases stale with rfl | computed
      · exact computeChange_fresh (.inr zero) known
      · exact computeChange_computed computed
    split_ifs with here
    · rw [same, here]
    · exact same

theorem changeTime_zero (known : fresh.Fresh)
    : changeTime around fresh 0 = some (zeroChange around fresh)
      ∧ -2 ^ 35 ≤ zeroChange around fresh := by
  obtain ⟨days, found, low, -, change⟩ :=
    changeTime_some around known.sized (show -2147483648 < (0 : Int) by norm_num) (by decide)
  have secs := known.sized.secs
  have offset := known.sized.offset
  unfold zeroChange
  rw [found, Option.getD_some]
  refine ⟨?_, by omega⟩
  rw [change, if_neg (by norm_num), zero_add]

theorem firstRule_eq (known : fresh.Fresh)
    : ∃ year, firstRule around fresh
      = some { fresh with change := firstChange around fresh, computedFor := year } := by
  unfold firstRule firstChange computedRule
  split_ifs with zero
  · refine ⟨0, congrArg some ?_⟩
    have change := known.change
    obtain ⟨name, type, m, n, d, secs, offset, cached, year⟩ := fresh
    dsimp only at zero change ⊢
    rw [zero, change]
  · exact ⟨0, by rw [(changeTime_zero known).1, Option.map_some]⟩

end

/-! Histories -/

section

variable {around : Int → UInt16} {fresh rules rules' : TzRules}

/-- What histories leave: rules that were computed for no year but 0, or for other years too. -/
def Reached (around : Int → UInt16) (fresh rules : TzRules) : Prop :=
  Stale around fresh.std rules.std ∧ Stale around fresh.dst rules.dst
    ∨ Valid around fresh.std rules.std ∧ Valid around fresh.dst rules.dst

theorem tzCompute_inv {t : Int} {tm tm' : Tm} {useLocaltime : Bool}
    (run : tzCompute around rules t tm useLocaltime = some (rules', tm'))
    : ∃ year, computeChange around rules.std year = some rules'.std
      ∧ computeChange around rules.dst year = some rules'.dst := by
  obtain ⟨year, -, run⟩ := Option.bind_eq_some_iff.mp run
  obtain ⟨std, changeStd, run⟩ := Option.bind_eq_some_iff.mp run
  obtain ⟨dst, changeDst, run⟩ := Option.bind_eq_some_iff.mp run
  cases run
  exact ⟨year, changeStd, changeDst⟩

section

variable (reached : Reached around fresh rules)
include reached

theorem Reached.compute (freshStd : fresh.std.Fresh) (freshDst : fresh.dst.Fresh) {year : Int}
    (std : computeChange around rules.std year = some rules'.std)
    (dst : computeChange around rules.dst year = some rules'.dst)
    : Reached around fresh rules' := by
  rcases reached with ⟨staleStd, staleDst⟩ | ⟨validStd, validDst⟩
  · rw [computeChange_stale staleStd freshStd] at std
    rw [computeChange_stale staleDst freshDst] at dst
    split_ifs at std dst
    · exact .inl ⟨.inr std, .inr dst⟩
    · exact .inr ⟨⟨year, std⟩, ⟨year, dst⟩⟩
  · rw [computeChange_valid validStd] at std
    rw [computeChange_valid validDst] at dst
    exact .inr ⟨⟨year, std⟩, ⟨year, dst⟩⟩

theorem Reached.convert (freshStd : fresh.std.Fresh) (freshDst : fresh.dst.Fresh) {call : Call}
    {result : Option Tm}
    (run : tzConvert around rules call.timer call.useLocaltime call.tp = some (rules', result))
    : Reached around fresh rules' := by
  obtain ⟨form, -, run⟩ := Option.bind_eq_some_iff.mp run
  cases form with
  | none =>
    cases run
    exact reached
  | some tm =>
    obtain ⟨⟨computed, tm'⟩, compute, run⟩ := Option.bind_eq_some_iff.mp run
    obtain ⟨form', -, run⟩ := Option.bind_eq_some_iff.mp run
    cases run
    obtain ⟨year, std, dst⟩ := tzCompute_inv compute
    exact reached.compute freshStd freshDst std dst

theorem Reached.calls (freshStd : fresh.std.Fresh) (freshDst : fresh.dst.Fresh) (calls : List Call)
    (run : runCalls around calls rules = some rules')
    : Reached around fresh rules' := by
  induction calls generalizing rules with
  | nil =>
    cases run
    exact reached
  | cons call calls ih =>
    obtain ⟨next, first, more⟩ := Option.bind_eq_some_iff.mp run
    obtain ⟨⟨next, result⟩, convert, rfl⟩ := Option.map_eq_some_iff.mp first
    exact ih (reached.convert freshStd freshDst convert) more

end

end

/-! The result of a call -/

/-- A conversion in a year that does not overflow, in terms of the rules for this year. -/
theorem tzConvert_local (around : Int → UInt16) {t : Int} (tp : Tm) (rep : Representable t)
    : ∃ tm, BrokenDown t tm
      ∧ ∀ rules std dst, computeChange around rules.std (1900 + tm.year) = some std →
        computeChange around rules.dst (1900 + tm.year) = some dst →
        1900 + tm.year ≤ lastRuleYear →
        tzConvert around rules t true tp
          = (offtime t (localForm ⟨std, dst⟩ t tm).gmtoff (localForm ⟨std, dst⟩ t tm)).map fun form =>
            (⟨std, dst⟩, form) := by
  have bounds := (representable_iff t).mp rep
  obtain ⟨tm, first, down, -⟩ := (offtime_zero tp (by omega)).1 rep
  refine ⟨tm, down, fun rules std dst changeStd changeDst early => ?_⟩
  have last : lastRuleYear = 5881459 := rfl
  have year := down.year
  unfold tzConvert tzCompute
  simp only [Option.bind_eq_bind]
  rw [first, Option.bind_some]
  dsimp only
  rw [int32_some (by omega) (by omega), Option.bind_some, changeStd, changeDst]
  rw [Option.map_eq_bind]
  rfl

theorem BrokenDown.inYearZero {t : Int} {tm : Tm} (down : BrokenDown t tm)
    : 1900 + tm.year = 0 ↔ InYearZero t := by
  have before := down.year_lt 0
  have after := down.year_lt 1
  unfold InYearZero
  omega

/-- Before both changes, it is daylight saving time on the southern hemisphere. -/
theorem isDst_before {rules : TzRules} {t : Int} (std : t < rules.std.change)
    (dst : t < rules.dst.change)
    : isDst rules t = decide (rules.std.change > rules.dst.change) := by
  unfold isDst
  split_ifs with south
  · rw [decide_eq_true south]
    exact decide_eq_true (.inl dst)
  · rw [decide_eq_false south]
    exact decide_eq_false fun between => absurd between.1 (not_le.mpr std)

def formWith (fresh : TzRules) (southern : Bool) (tm : Tm) : Tm :=
  if southern then { tm with isdst := 1, zone := fresh.dst.name, gmtoff := fresh.dst.offset }
  else { tm with isdst := 0, zone := fresh.std.name, gmtoff := fresh.std.offset }

theorem localForm_zero (fresh : TzRules) {t c₀ c₁ : Int} (zero : InYearZero t) (std : -2 ^ 35 ≤ c₀)
    (dst : -2 ^ 35 ≤ c₁) (y₀ y₁ : Int) (tm : Tm)
    : localForm ⟨{ fresh.std with change := c₀, computedFor := y₀ },
        { fresh.dst with change := c₁, computedFor := y₁ }⟩ t tm
      = formWith fresh (decide (c₀ > c₁)) tm := by
  have early : t < -62135596800 := zero.2
  unfold localForm formWith
  rw [isDst_before (by dsimp only; omega) (by dsimp only; omega)]

/-- The result that belongs to an order of the changes. -/
def resultWith (fresh : TzRules) (southern : Bool) (t : Int) (tm : Tm) : Option (Option Tm) :=
  offtime t (formWith fresh southern tm).gmtoff (formWith fresh southern tm)

section

variable {around : Int → UInt16} {fresh : TzRules} (freshStd : fresh.std.Fresh)
  (freshDst : fresh.dst.Fresh)

include freshStd freshDst

theorem resultWith_some {t : Int} (near : -2 ^ 62 ≤ t ∧ t ≤ 2 ^ 62) (southern : Bool) (tm : Tm)
    : ∃ result, resultWith fresh southern t tm = some result
      ∧ (-2 ^ 53 ≤ t ∧ t ≤ 2 ^ 53 → ∃ form, result = some form
        ∧ form.isdst = if southern then 1 else 0) := by
  have offset : -2 ^ 31 ≤ (formWith fresh southern tm).gmtoff
      ∧ (formWith fresh southern tm).gmtoff ≤ 2 ^ 31 := by
    have std := freshStd.sized.offset
    have dst := freshDst.sized.offset
    unfold formWith
    split_ifs
    · dsimp only
      omega
    · dsimp only
      omega
  have isdst : (formWith fresh southern tm).isdst = if southern then 1 else 0 := by
    cases southern <;> rfl
  obtain ⟨inside, outside⟩ := offtime_eq (formWith fresh southern tm)
    (show -2 ^ 63 ≤ t ∧ t < 2 ^ 63 by omega)
    (show -2 ^ 40 ≤ (formWith fresh southern tm).gmtoff
      ∧ (formWith fresh southern tm).gmtoff ≤ 2 ^ 40 by omega)
  by_cases here : Representable (t + (formWith fresh southern tm).gmtoff)
  · obtain ⟨form, run, -, same, -⟩ := inside here
    exact ⟨some form, run, fun _ => ⟨form, rfl, by rw [same, isdst]⟩⟩
  · refine ⟨none, outside here, fun close => absurd ?_ here⟩
    rw [representable_iff]
    omega

/-- The two results that are possible in the year 0. -/
theorem tzConvert_zero {t : Int} (tp : Tm) (zero : InYearZero t)
    : ∃ tm, (∀ rules, Stale around fresh.std rules.std → Stale around fresh.dst rules.dst →
        ∃ rules', tzConvert around rules t true tp
          = (resultWith fresh (decide (firstChange around fresh.std > firstChange around fresh.dst))
            t tm).map fun form => (rules', form))
      ∧ ∀ rules, Valid around fresh.std rules.std → Valid around fresh.dst rules.dst →
        ∃ rules', tzConvert around rules t true tp
          = (resultWith fresh (decide (zeroChange around fresh.std > zeroChange around fresh.dst))
            t tm).map fun form => (rules', form) := by
  have low : -62167219200 ≤ t := zero.1
  have high : t < -62135596800 := zero.2
  obtain ⟨tm, down, convert⟩ := tzConvert_local around tp ((representable_iff t).mpr (by omega))
  have year := down.inYearZero.mpr zero
  rw [year] at convert
  have lastYear : (0 : Int) ≤ lastRuleYear := by decide
  obtain ⟨changeStd, lowStd⟩ := @changeTime_zero around fresh.std freshStd
  obtain ⟨changeDst, lowDst⟩ := @changeTime_zero around fresh.dst freshDst
  have first : ∀ rule, -2 ^ 35 ≤ zeroChange around rule → -2 ^ 35 ≤ firstChange around rule := by
    intro rule above
    unfold firstChange
    split_ifs <;> omega
  obtain ⟨yearStd, firstStd⟩ := @firstRule_eq around fresh.std freshStd
  obtain ⟨yearDst, firstDst⟩ := @firstRule_eq around fresh.dst freshDst
  refine ⟨tm, ?_, ?_⟩
  · intro rules staleStd staleDst
    have std := @computeChange_stale around fresh.std rules.std 0 staleStd freshStd
    have dst := @computeChange_stale around fresh.dst rules.dst 0 staleDst freshDst
    rw [firstStd] at std
    rw [firstDst] at dst
    rw [convert rules _ _ std dst lastYear,
      localForm_zero fresh zero (first _ lowStd) (first _ lowDst)]
    exact ⟨_, rfl⟩
  · intro rules validStd validDst
    have std := @computeChange_valid around fresh.std rules.std 0 validStd
    have dst := @computeChange_valid around fresh.dst rules.dst 0 validDst
    rw [computedRule, changeStd] at std
    rw [computedRule, changeDst] at dst
    rw [convert rules _ _ std dst lastYear, localForm_zero fresh zero lowStd lowDst]
    exact ⟨_, rfl⟩

theorem Reached.computeChange_other {rules : TzRules} (reached : Reached around fresh rules)
    {year : Int} (other : year ≠ 0)
    : computeChange around rules.std year = computedRule around fresh.std year
      ∧ computeChange around rules.dst year = computedRule around fresh.dst year := by
  rcases reached with ⟨staleStd, staleDst⟩ | ⟨validStd, validDst⟩
  · rw [computeChange_stale staleStd freshStd, computeChange_stale staleDst freshDst, if_neg other,
      if_neg other]
    exact ⟨rfl, rfl⟩
  · exact ⟨computeChange_valid validStd, computeChange_valid validDst⟩

/-- Outside of the year 0 the result does not depend on the calls before. -/
private theorem tzConvert_other {t : Int} (tp : Tm) (rep : Representable t) (before : t < ruleEnd)
    (other : ¬ InYearZero t)
    : ∃ result rules', Valid around fresh.std rules'.std ∧ Valid around fresh.dst rules'.dst
      ∧ ∀ rules, Reached around fresh rules →
        tzConvert around rules t true tp = some (rules', result) := by
  have bounds := (representable_iff t).mp rep
  obtain ⟨tm, down, convert⟩ := tzConvert_local around tp rep
  have early := down.year_le.mpr before
  have int := down.year
  have year : 1900 + tm.year ≠ 0 := fun zero => other (down.inYearZero.mp zero)
  obtain ⟨daysStd, -, -, -, changeStd⟩ := changeTime_some around freshStd.sized (by omega) early
  obtain ⟨daysDst, -, -, -, changeDst⟩ := changeTime_some around freshDst.sized (by omega) early
  have std := congrArg (Option.map fun change =>
    { fresh.std with change := change, computedFor := 1900 + tm.year }) changeStd
  have dst := congrArg (Option.map fun change =>
    { fresh.dst with change := change, computedFor := 1900 + tm.year }) changeDst
  generalize (if 1900 + tm.year > 1970 then 86400 * newYear (1900 + tm.year) else 0)
    + daysStd * 86400 - fresh.std.offset + fresh.std.secs = cStd at std
  generalize (if 1900 + tm.year > 1970 then 86400 * newYear (1900 + tm.year) else 0)
    + daysDst * 86400 - fresh.dst.offset + fresh.dst.secs = cDst at dst
  let rules' : TzRules := ⟨{ fresh.std with change := cStd, computedFor := 1900 + tm.year },
    { fresh.dst with change := cDst, computedFor := 1900 + tm.year }⟩
  obtain ⟨result, run, -⟩ := resultWith_some freshStd freshDst
    (show -2 ^ 62 ≤ t ∧ t ≤ 2 ^ 62 by omega) (isDst rules' t) tm
  refine ⟨result, rules', ⟨_, std⟩, ⟨_, dst⟩, fun rules reached => ?_⟩
  obtain ⟨sameStd, sameDst⟩ := reached.computeChange_other freshStd freshDst year
  rw [convert rules _ _ (sameStd.trans std) (sameDst.trans dst) early]
  exact congrArg (Option.map fun form => (rules', form)) run

end

/-- The cache is invisible exactly for times that do not overflow and, in the year 0, for rules
whose changes have the same order when those that were not parsed are taken for 0.
-/
theorem cacheInvisible_iff (around : Int → UInt16) (tz : List UInt8) (t : Int)
    (long : -2 ^ 63 ≤ t ∧ t < 2 ^ 63) (tp : Tm)
    : CacheInvisible around tz t tp ↔ (Representable t → t < ruleEnd) ∧ (InYearZero t →
          (firstChange around (tzsetParseTz tz).std > firstChange around (tzsetParseTz tz).dst
            ↔ zeroChange around (tzsetParseTz tz).std > zeroChange around (tzsetParseTz tz).dst)) := by
  obtain ⟨freshStd, freshDst⟩ := tzsetParseTz_fresh tz
  unfold CacheInvisible
  generalize tzsetParseTz tz = fresh at freshStd freshDst ⊢
  have start : Stale around fresh.std fresh.std ∧ Stale around fresh.dst fresh.dst :=
    ⟨.inl rfl, .inl rfl⟩
  constructor
  · rintro ⟨result, same⟩
    refine ⟨fun rep => ?_, fun zero => ?_⟩
    · by_contra late
      obtain ⟨tm, first, down, -⟩ := (offtime_zero tp long).1 rep
      obtain ⟨rules', run⟩ := same [] fresh rfl
      have computed : fresh.Computed := by
        have last : lastRuleYear = 5881459 := rfl
        have std := freshStd.computedFor
        have dst := freshDst.computedFor
        exact ⟨⟨freshStd.sized, by omega⟩, ⟨freshDst.sized, by omega⟩⟩
      unfold tzConvert at run
      simp only [Option.bind_eq_bind, first, Option.bind_some,
        tzCompute_late around computed down (not_lt.mp late) true] at run
      cases run
    · have near : -62167219200 ≤ t := zero.1
      have near' : t < -62135596800 := zero.2
      obtain ⟨tm, stale, valid⟩ := @tzConvert_zero around fresh freshStd freshDst t tp zero
      have epoch : ¬ InYearZero 0 := by
        unfold InYearZero
        decide
      obtain ⟨other, rules, validStd, validDst, runOther⟩ :=
        @tzConvert_other around fresh freshStd freshDst 0 tp ((representable_iff 0).mpr (by norm_num))
          (by decide) epoch
      have history : runCalls around [⟨0, true, tp⟩] fresh = some rules := by
        unfold runCalls
        rw [List.foldlM_cons, runOther fresh (.inl start)]
        rfl
      obtain ⟨rulesA, convertA⟩ := stale fresh start.1 start.2
      obtain ⟨rulesB, convertB⟩ := valid rules validStd validDst
      obtain ⟨rulesA', runA⟩ := same [] fresh rfl
      obtain ⟨rulesB', runB⟩ := same _ rules history
      obtain ⟨resultA, someA, formA⟩ := resultWith_some freshStd freshDst
        (show -2 ^ 62 ≤ t ∧ t ≤ 2 ^ 62 by omega)
        (decide (firstChange around fresh.std > firstChange around fresh.dst)) tm
      obtain ⟨resultB, someB, formB⟩ := resultWith_some freshStd freshDst
        (show -2 ^ 62 ≤ t ∧ t ≤ 2 ^ 62 by omega)
        (decide (zeroChange around fresh.std > zeroChange around fresh.dst)) tm
      rw [convertA, someA] at runA
      rw [convertB, someB] at runB
      cases runA
      cases runB
      obtain ⟨form, rfl, isdstA⟩ := formA (by omega)
      obtain ⟨form', sameForm, isdstB⟩ := formB (by omega)
      cases sameForm
      rw [isdstA] at isdstB
      by_contra differ
      rw [not_iff] at differ
      by_cases order : zeroChange around fresh.std > zeroChange around fresh.dst
      · simp [order, differ.mpr order] at isdstB
      · have first : firstChange around fresh.std > firstChange around fresh.dst := by
          by_contra neither
          exact order (differ.mp neither)
        simp [order, first] at isdstB
  · rintro ⟨early, order⟩
    by_cases rep : Representable t
    · by_cases zero : InYearZero t
      · obtain ⟨tm, stale, valid⟩ := @tzConvert_zero around fresh freshStd freshDst t tp zero
        obtain ⟨result, some, -⟩ := resultWith_some freshStd freshDst
          (show -2 ^ 62 ≤ t ∧ t ≤ 2 ^ 62 by have := (representable_iff t).mp rep; omega)
          (decide (firstChange around fresh.std > firstChange around fresh.dst)) tm
        refine ⟨result, fun calls rules run => ?_⟩
        rcases Reached.calls (.inl start) freshStd freshDst calls run with
          ⟨staleStd, staleDst⟩ | ⟨validStd, validDst⟩
        · obtain ⟨rules', convert⟩ := stale rules staleStd staleDst
          exact ⟨rules', by rw [convert, some, Option.map_some]⟩
        · obtain ⟨rules', convert⟩ := valid rules validStd validDst
          simp only [← order zero] at convert
          exact ⟨rules', by rw [convert, some, Option.map_some]⟩
      · obtain ⟨result, rules', -, -, convert⟩ :=
          @tzConvert_other around fresh freshStd freshDst t tp rep (early rep) zero
        exact ⟨result, fun calls rules run =>
          ⟨rules', convert rules (Reached.calls (.inl start) freshStd freshDst calls run)⟩⟩
    · refine ⟨none, fun calls rules _ => ⟨rules, ?_⟩⟩
      rw [tzConvert, (offtime_zero tp long).2 rep]
      rfl

def eastern : List UInt8 :=
  [69, 83, 84, 53, 69, 68, 84, 44, 77, 51, 46, 50, 46, 48, 44, 77, 49, 49, 46, 49, 46, 48]

theorem cacheInvisible_eastern
    : (-2 ^ 63 ≤ (1700000000 : Int) ∧ (1700000000 : Int) < 2 ^ 63)
      ∧ CacheInvisible (fun _ => 0) eastern 1700000000 blank := by
  refine ⟨by norm_num, (cacheInvisible_iff (fun _ => 0) eastern 1700000000 (by norm_num) blank).mpr
    ⟨fun _ => by decide, fun zero => ?_⟩⟩
  have high : (1700000000 : Int) < -62135596800 := zero.2
  norm_num at high

/-- The string "EST5EDT,x", whose rules are not well formed. -/
def malformed : List UInt8 := [69, 83, 84, 53, 69, 68, 84, 44, 120]

/-- At first, a time in the year 0 is in standard time. After a conversion of the epoch, it is in
daylight saving time.
-/
theorem not_cacheInvisible : ¬ CacheInvisible (fun _ => 0) malformed (-62150000000) blank := by
  rintro ⟨result, same⟩
  have first : (tzConvert (fun _ => 0) (tzsetParseTz malformed) (-62150000000) true blank).map
      (fun result => result.2.map Tm.isdst) = some (some 0) := by
    decide +kernel
  have later : ((runCalls (fun _ => 0) [⟨0, true, blank⟩] (tzsetParseTz malformed)).bind fun rules =>
      (tzConvert (fun _ => 0) rules (-62150000000) true blank).map fun result =>
        result.2.map Tm.isdst) = some (some 1) := by
    decide +kernel
  obtain ⟨rules, history, convert⟩ := Option.bind_eq_some_iff.mp later
  obtain ⟨rulesA, runA⟩ := same [] _ rfl
  obtain ⟨rulesB, runB⟩ := same _ rules history
  rw [runA, Option.map_some] at first
  rw [runB, Option.map_some] at convert
  rw [Option.some.inj first] at convert
  cases convert

end Nglibc.Time
