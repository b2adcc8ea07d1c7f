import Nglibc.Time.Mktime
import Nglibc.Time.Tzset

/-! `timegm` gives the exact time for every `struct tm`, as long as the conversion to universal
time does not have to compute the changes of a time zone after the year 5881459.
-/

namespace Nglibc.Time

open Nglibc.Gregorian

/-- The contents of a local `struct tm`; every conversion sets all fields. -/
def blank : Tm := ⟨0, 0, 0, 0, 0, 0, 0, 0, 0, 0, []⟩

/-- `__gmtime64_r`, with a zone file that has no leap seconds or with rules that have been
parsed.
-/
def gmtimeR (around : Int → UInt16) : Convert (Option TzRules)
  | none, t => (offtime t 0 { blank with zone := gmt }).map fun tm => (none, tm)
  | some rules, t =>
    (tzConvert around rules t false blank).map fun (rules, tm) => (some rules, tm)

/-- `__timegm64`. -/
def timegm (around : Int → UInt16) (zone : Option TzRules) (tp : Tm) (offset : Int)
    : Option (Option TzRules × MktimeResult) :=
  mktimeInternal (gmtimeR around) zone { tp with isdst := 0 } offset

structure UtcForm (t : Int) (tm : Tm) : Prop where
  brokenDown : BrokenDown t tm
  isdst : tm.isdst = 0
  gmtoff : tm.gmtoff = 0
  zone : tm.zone = gmt

/-- A conversion that breaks down all times of a set, in all states of a set. -/
structure ConvertsUtc {σ : Type} (convert : Convert σ) (Good : σ → Prop) (safe : Int → Prop)
    : Prop where
  inside : ∀ z t, Good z → safe t → Representable t →
    ∃ z' tm, Good z' ∧ convert z t = some (z', some tm) ∧ UtcForm t tm
  outside : ∀ z t, Good z → safe t → -2 ^ 63 ≤ t ∧ t < 2 ^ 63 → ¬ Representable t →
    ∃ z', Good z' ∧ convert z t = some (z', none)
  zero : safe 0
  down : ∀ x t, x ≤ t → safe t → safe x

/-- The bounds of the times that can be represented. -/
theorem representable_iff (t : Int)
    : Representable t ↔ -67768040609740800 ≤ t ∧ t ≤ 67768036191676799 := by
  unfold Representable newYear leapsThrough
  omega

variable {t : Int}

theorem offtime_zero (tp : Tm) (long : -2 ^ 63 ≤ t ∧ t < 2 ^ 63)
    : (Representable t → ∃ tm, offtime t 0 tp = some (some tm) ∧ BrokenDown t tm
        ∧ tm.isdst = tp.isdst ∧ tm.gmtoff = tp.gmtoff ∧ tm.zone = tp.zone)
      ∧ (¬ Representable t → offtime t 0 tp = some none) := by
  have zero := offtime_eq tp long (show -2 ^ 40 ≤ (0 : Int) ∧ (0 : Int) ≤ 2 ^ 40 by norm_num)
  rw [add_zero] at zero
  exact zero

theorem gmtimeR_file (around : Int → UInt16)
    : ConvertsUtc (gmtimeR around) (fun zone => zone = none) fun _ => True := by
  refine ⟨?_, ?_, trivial, fun _ _ _ _ => trivial⟩
  · rintro z t rfl - inside
    have bounds := (representable_iff t).mp inside
    obtain ⟨tm, run, down, isdst, gmtoff, zone⟩ :=
      (offtime_zero { blank with zone := gmt } (by omega)).1 inside
    exact ⟨none, tm, rfl, by rw [gmtimeR, run]; rfl, down, isdst, gmtoff, zone⟩
  · rintro z t rfl - long outside
    have run := (offtime_zero { blank with zone := gmt } long).2 outside
    exact ⟨none, rfl, by rw [gmtimeR, run]; rfl⟩

/-- Rules whose caches were filled without an overflow. -/
structure TzRules.Computed (rules : TzRules) : Prop where
  std : rules.std.Sized ∧ rules.std.computedFor ≤ lastRuleYear
  dst : rules.dst.Sized ∧ rules.dst.computedFor ≤ lastRuleYear

def ruleEnd : Int := 86400 * newYear (lastRuleYear + 1)

theorem ruleEnd_eq : ruleEnd = 185538783686400 := by
  decide

variable {req : Requested} {tm : Tm}

theorem BrokenDown.year_le (down : BrokenDown t tm)
    : 1900 + tm.year ≤ lastRuleYear ↔ t < ruleEnd := by
  rw [← Int.lt_add_one_iff]
  exact down.year_lt (lastRuleYear + 1)

section

variable (around : Int → UInt16)
include around

private theorem tzCompute_utc {rules : TzRules} (computed : rules.Computed) (down : BrokenDown t tm)
    (before : t < ruleEnd)
    : ∃ rules', rules'.Computed ∧ tzCompute around rules t tm false = some (rules', tm) := by
  have early := down.year_le.mpr before
  have last : lastRuleYear = 5881459 := rfl
  have year := down.year
  obtain ⟨std, runStd, sizedStd, forStd⟩ := computeChange_some around computed.std.1
    (by omega) early
  obtain ⟨dst, runDst, sizedDst, forDst⟩ := computeChange_some around computed.dst.1
    (by omega) early
  refine ⟨⟨std, dst⟩, ⟨⟨sizedStd, forStd ▸ early⟩, ⟨sizedDst, forDst ▸ early⟩⟩, ?_⟩
  unfold tzCompute
  simp only [Option.bind_eq_bind]
  rw [int32_some (by omega) (by omega), Option.bind_some, runStd, runDst]
  rfl

theorem tzCompute_late {rules : TzRules} (computed : rules.Computed) (down : BrokenDown t tm)
    (after : ruleEnd ≤ t) (useLocaltime : Bool)
    : tzCompute around rules t tm useLocaltime = none := by
  have late : lastRuleYear < 1900 + tm.year := by
    by_contra early
    exact absurd (down.year_le.mp (not_lt.mp early)) (not_lt.mpr after)
  have last : lastRuleYear = 5881459 := rfl
  unfold tzCompute
  rcases le_or_gt (1900 + tm.year) 2147483647 with int | large
  · rw [int32_some (by omega) int, Option.bind_eq_bind, Option.bind_some,
      computeChange_none around computed.std.2 late int]
    rfl
  · rw [int32_none (.inr large)]
    rfl

theorem gmtimeR_rules
    : ConvertsUtc (gmtimeR around) (fun zone => ∃ rules, zone = some rules ∧ rules.Computed)
      fun t => t < ruleEnd := by
  refine ⟨?_, ?_, by decide, fun x t le less => lt_of_le_of_lt le less⟩
  · rintro z t ⟨rules, rfl, computed⟩ before inside
    have bounds := (representable_iff t).mp inside
    have long : -2 ^ 63 ≤ t ∧ t < 2 ^ 63 := by omega
    obtain ⟨tm, first, down, -⟩ := (offtime_zero blank long).1 inside
    obtain ⟨rules', computed', changes⟩ := tzCompute_utc around computed down before
    obtain ⟨tm', second, down', isdst, gmtoff, zone⟩ :=
      (offtime_zero { tm with isdst := 0, zone := gmt, gmtoff := 0 } long).1 inside
    refine ⟨some rules', tm', ⟨rules', rfl, computed'⟩, ?_, down', isdst, gmtoff, zone⟩
    rw [gmtimeR, tzConvert]
    simp only [Option.bind_eq_bind, first, Option.bind_some, changes, if_neg Bool.false_ne_true,
      second]
    rfl
  · rintro z t ⟨rules, rfl, computed⟩ - long outside
    refine ⟨some rules, ⟨rules, rfl, computed⟩, ?_⟩
    rw [gmtimeR, tzConvert, (offtime_zero blank long).2 outside]
    rfl

theorem gmtimeR_late {rules : TzRules} (computed : rules.Computed) (after : ruleEnd ≤ t)
    (inside : Representable t)
    : gmtimeR around (some rules) t = none := by
  have bounds := (representable_iff t).mp inside
  obtain ⟨tm, first, down, -⟩ := (offtime_zero blank (by omega)).1 inside
  rw [gmtimeR, tzConvert]
  simp only [Option.bind_eq_bind, first, Option.bind_some,
    tzCompute_late around computed down after false]
  rfl

end

/-- The fields that `timegm` reads are of type `int`. -/
structure Tm.Ints (tp : Tm) : Prop where
  sec : -2 ^ 31 ≤ tp.sec ∧ tp.sec < 2 ^ 31
  min : -2 ^ 31 ≤ tp.min ∧ tp.min < 2 ^ 31
  hour : -2 ^ 31 ≤ tp.hour ∧ tp.hour < 2 ^ 31
  mday : -2 ^ 31 ≤ tp.mday ∧ tp.mday < 2 ^ 31
  mon : -2 ^ 31 ≤ tp.mon ∧ tp.mon < 2 ^ 31
  year : -2 ^ 31 ≤ tp.year ∧ tp.year < 2 ^ 31

/-- The seconds from the epoch to a date of the proleptic Gregorian calendar, where months carry to
the year and other fields need not be in their ranges.
-/
def exactTime (tp : Tm) (sec : Int) : Int := seconds (tp.year + tp.mon / 12)
    (monthStart (isleap (tp.year + tp.mon / 12 + 1900)) (tp.mon % 12).toNat + tp.mday - 1)
    tp.hour tp.min sec

def clampSec (sec : Int) : Int := if sec < 0 then 0 else if 59 < sec then 59 else sec

theorem leapyear_eq (year : Int) : leapyear year = isleap (year + 1900) := by
  have truncated := tdiv_tmod year (show (0 : Int) < 100 by norm_num)
  rw [Bool.eq_iff_iff, isleap_iff]
  unfold leapyear IsLeap
  simp only [Bool.and_eq_true, Bool.or_eq_true, beq_iff_eq, bne_iff_ne, ne_eq, tmod_eq_zero]
  by_cases century : year % 100 = 0
  · omega
  · omega

/-- The time that the fields requested amount to. -/
def Requested.time (req : Requested) : Int := seconds req.year req.yday req.hour req.min req.sec

theorem clampSec_range (sec : Int) : 0 ≤ clampSec sec ∧ clampSec sec < 60 := by
  unfold clampSec
  split_ifs <;> omega

variable {tp : Tm}

theorem requested_eq (ints : tp.Ints)
    : ∃ req, requested { tp with isdst := 0 } = some req
      ∧ Fields req.year req.yday req.hour req.min req.sec
      ∧ req.time = exactTime tp (clampSec tp.sec) ∧ req.sec = clampSec tp.sec ∧ req.isdst = 0 := by
  obtain ⟨sec, min, hour, mday, mon, year⟩ := ints
  have years := ediv_eq_tdiv tp.mon (show (0 : Int) < 12 by norm_num)
  have truncated := tdiv_tmod tp.mon (show (0 : Int) < 12 by norm_num)
  have months : tp.mon.tmod 12 + 12 * (if tp.mon.tmod 12 < 0 then 1 else 0) = tp.mon % 12 := by
    split_ifs at years ⊢ <;> omega
  unfold requested
  simp only [Option.bind_eq_bind]
  rw [← years, int32_some (by omega) (by omega), Option.bind_some,
    int64_some (by omega) (by omega), Option.bind_some, months]
  have month := monYday_bounds (leapyear (tp.year + tp.mon / 12)) (tp.mon % 12).toNat
  rw [int64_some (by omega) (by omega)]
  refine ⟨_, rfl, ⟨by dsimp only; omega, by dsimp only; omega, hour, min, ?_⟩, ?_, rfl, rfl⟩
  · dsimp only
    split_ifs <;> omega
  · unfold Requested.time exactTime
    dsimp only
    rw [leapyear_eq]
    unfold monYday seconds clampSec
    omega

theorem longIntAvg_eq (a b : Int) : longIntAvg a b = (a + b + 1) / 2 := by
  unfold longIntAvg
  split_ifs <;> omega

/-- The difference to a time that was converted. -/
theorem tmDiff_utc (fields : Fields req.year req.yday req.hour req.min req.sec) {c : Int}
    (form : UtcForm c tm)
    : tmDiff req tm = some (req.time - c) := by
  have down := form.brokenDown
  have length := yearLength_bounds (tm.year + 1900)
  have year := down.year
  have yday := down.yday
  have hour := down.hour
  have min := down.min
  have sec := down.sec
  unfold tmDiff
  rw [ydhmsDiff_eq fields ⟨by omega, by omega, by omega, by omega, by omega⟩, down.time]
  rfl

theorem oscillating_utc (isdst : req.isdst = 0) {c t t1 t2 : Int} {dst2 : Bool} (form : UtcForm c tm)
    : oscillating req t t1 t2 dst2 tm = false := by
  unfold oscillating
  rw [form.isdst, isdst]
  simp

section

variable {σ : Type} {convert : Convert σ} {Good : σ → Prop} {safe : Int → Prop}
  (utc : ConvertsUtc convert Good safe)

include utc

/-- The binary search ends with a time that can be represented. -/
theorem searchLoop_utc (fuel : Nat) (z : σ) (bad ok : Int) (tm : Tm) (good : Good z)
    (fuelled : (bad - ok).natAbs ≤ fuel) (distinct : bad ≠ ok) (safeBad : safe bad)
    (safeOk : safe ok) (long : -2 ^ 62 ≤ bad ∧ bad ≤ 2 ^ 62) (inside : Representable ok)
    (form : UtcForm ok tm)
    : ∃ z' c tm', Good z' ∧ searchLoop convert fuel z bad ok (some tm) = some (z', some (c, tm'))
      ∧ safe c ∧ Representable c ∧ UtcForm c tm' := by
  induction fuel generalizing z bad ok tm with
  | zero => omega
  | succ fuel ih =>
    rw [searchLoop, longIntAvg_eq]
    have bounds := (representable_iff ok).mp inside
    by_cases ends : (ok + bad + 1) / 2 = ok ∨ (ok + bad + 1) / 2 = bad
    · rw [if_pos ends]
      refine ⟨z, ok, tm, good, ?_, safeOk, inside, form⟩
      rw [Option.filter_some, if_pos (decide_eq_true form.brokenDown.sec.1)]
      rfl
    · rw [if_neg ends]
      have safeMid : safe ((ok + bad + 1) / 2) := by
        rcases le_total ok bad with le | le
        · exact utc.down _ bad (by omega) safeBad
        · exact utc.down _ ok (by omega) safeOk
      by_cases rep : Representable ((ok + bad + 1) / 2)
      · obtain ⟨z', tm', good', run, form'⟩ := utc.inside z _ good safeMid rep
        rw [run]
        exact ih z' bad _ tm' good' (by omega) (by omega) safeBad safeMid long rep form'
      · obtain ⟨z', good', run⟩ := utc.outside z _ good safeMid (by omega) rep
        rw [run]
        exact ih z' _ ok tm good' (by omega) (by omega) safeMid safeOk (by omega) inside form

/-- A conversion of any time gives one that can be represented, the time itself if it can be. -/
theorem rangedConvert_utc (z : σ) (t : Int) (good : Good z) (safeT : safe t)
    (near : -10 ^ 17 ≤ t ∧ t ≤ 10 ^ 17)
    : ∃ z' c tm, Good z' ∧ rangedConvert convert z t = some (z', some (c, tm))
      ∧ safe c ∧ Representable c ∧ UtcForm c tm ∧ (Representable t → c = t) := by
  unfold rangedConvert
  by_cases rep : Representable t
  · obtain ⟨z', tm, good', run, form⟩ := utc.inside z t good safeT rep
    rw [run]
    exact ⟨z', t, tm, good', rfl, safeT, rep, form, fun _ => rfl⟩
  · obtain ⟨z', good', run⟩ := utc.outside z t good safeT (by omega) rep
    rw [run]
    have far : ¬ (-67768040609740800 ≤ t ∧ t ≤ 67768036191676799) :=
      fun bounds => rep ((representable_iff t).mpr bounds)
    have half : Representable ((0 + t + 1) / 2) := (representable_iff _).mpr (by omega)
    have safeHalf : safe ((0 + t + 1) / 2) := by
      rcases le_total 0 t with le | le
      · exact utc.down _ t (by omega) safeT
      · exact utc.down _ 0 (by omega) utc.zero
    obtain ⟨z'', tm, good'', first, form⟩ := utc.inside z' _ good' safeHalf half
    obtain ⟨z₃, c, tm', good₃, search, safeC, repC, formC⟩ := searchLoop_utc utc (t.natAbs) z'' t
      ((0 + t + 1) / 2) tm good'' (by omega) (by omega) safeT safeHalf (by omega) half form
    refine ⟨z₃, c, tm', good₃, ?_, safeC, repC, formC, fun yes => absurd yes rep⟩
    rw [Option.bind_eq_bind, Option.bind_some]
    dsimp only
    rw [searchLoop, longIntAvg_eq, if_neg (by omega), first]
    exact search

variable {req : Requested} (fields : Fields req.year req.yday req.hour req.min req.sec)
  (isdst : req.isdst = 0)

include fields isdst

/-- A round of the loop over probes: a match, the end, or a probe at the time requested. -/
theorem probeLoop_step (remaining : Nat) (z : σ) (t t1 t2 : Int) (dst2 : Bool) (good : Good z)
    (safeT : safe t) (near : -10 ^ 17 ≤ t ∧ t ≤ 10 ^ 17)
    (close : -10 ^ 17 ≤ req.time ∧ req.time ≤ 10 ^ 17)
    : ∃ z' c tm, Good z' ∧ safe c ∧ Representable c ∧ UtcForm c tm ∧ (Representable t → c = t)
      ∧ probeLoop convert req (remaining + 1) z t t1 t2 dst2
        = if req.time = c then some (z', .matched c tm)
          else if remaining = 0 then some (z', .failed)
          else probeLoop convert req remaining z' req.time t2 c false := by
  obtain ⟨z', c, tm, good', run, safeC, rep, form, same⟩ :=
    rangedConvert_utc utc z t good safeT near
  refine ⟨z', c, tm, good', safeC, rep, form, same, ?_⟩
  rw [probeLoop]
  simp only [Option.bind_eq_bind]
  rw [run, Option.bind_some]
  dsimp only
  rw [tmDiff_utc fields form, Option.bind_some, oscillating_utc isdst form]
  generalize req.time = T at close ⊢
  by_cases hit : T = c
  · rw [if_pos (by omega), if_pos hit]
    rfl
  · rw [if_neg (by omega), if_neg Bool.false_ne_true]
    split_ifs with last
    · rfl
    · rw [int64_some (by omega) (by omega), form.isdst,
        show c + (T - c) = T by omega]
      rfl

/-- A time that cannot be represented is not matched. -/
theorem probeLoop_fails (remaining : Nat) (z : σ) (t t1 t2 : Int) (dst2 : Bool) (good : Good z)
    (safeT : safe t) (near : -10 ^ 17 ≤ t ∧ t ≤ 10 ^ 17)
    (close : -10 ^ 17 ≤ req.time ∧ req.time ≤ 10 ^ 17)
    (safeReq : safe req.time)
    (outside : ¬ Representable req.time)
    : ∃ z', Good z' ∧ probeLoop convert req remaining z t t1 t2 dst2 = some (z', .failed) := by
  induction remaining generalizing z t t1 t2 dst2 with
  | zero => exact ⟨z, good, rfl⟩
  | succ remaining ih =>
    obtain ⟨z', c, tm, good', -, rep, -, -, step⟩ :=
      probeLoop_step utc fields isdst remaining z t t1 t2 dst2 good safeT near close
    have miss : req.time ≠ c := by
      intro hit
      rw [hit] at outside
      exact outside rep
    rw [step, if_neg miss]
    split_ifs
    · exact ⟨z', good', rfl⟩
    · exact ih z' _ t2 c false good' safeReq close

/-- A time that can be represented is matched at the second probe, if not at the first. -/
theorem probeLoop_matches (remaining : Nat) (z : σ) (t t1 t2 : Int) (dst2 : Bool) (good : Good z)
    (safeT : safe t) (near : -10 ^ 17 ≤ t ∧ t ≤ 10 ^ 17)
    (safeReq : safe req.time)
    (inside : Representable req.time)
    : ∃ z' tm, Good z' ∧ UtcForm req.time tm
      ∧ probeLoop convert req (remaining + 2) z t t1 t2 dst2 = some (z', .matched req.time tm) := by
  have bounds := (representable_iff _).mp inside
  have close : -10 ^ 17 ≤ req.time ∧ req.time ≤ 10 ^ 17 := by omega
  obtain ⟨z', c, tm, good', -, rep, form, -, step⟩ :=
    probeLoop_step utc fields isdst (remaining + 1) z t t1 t2 dst2 good safeT near close
  by_cases hit : req.time = c
  · rw [step, if_pos hit, hit]
    exact ⟨z', tm, good', form, rfl⟩
  · obtain ⟨z'', c', tm', good'', -, -, form', same, step'⟩ :=
      probeLoop_step utc fields isdst remaining z' _ t2 c false good' safeReq close close
    rw [step, if_neg hit, step', if_pos (same inside).symm, ← same inside]
    exact ⟨z'', tm', good'', form', rfl⟩

end

/-- The exact time is returned and stored if it and the time with its seconds between 0 and 59 can
be represented. If not, the call fails with `EOVERFLOW` and stores nothing but `tm_isdst`. In
both cases no operation overflows.
-/
structure ExactResult {σ : Type} (run : Option (σ × MktimeResult)) (tp : Tm) : Prop where
  inside : Representable (exactTime tp tp.sec) → Representable (exactTime tp (clampSec tp.sec)) →
    ∃ z result, run = some (z, result) ∧ result.value = exactTime tp tp.sec
      ∧ result.overflow = false ∧ UtcForm (exactTime tp tp.sec) result.tm
  outside : ¬ (Representable (exactTime tp tp.sec)
      ∧ Representable (exactTime tp (clampSec tp.sec))) →
    ∃ z result, run = some (z, result) ∧ result.value = -1 ∧ result.overflow = true
      ∧ result.tm = { tp with isdst := 0 }

theorem exactTime_bounds (ints : tp.Ints) {sec : Int} (int : -2 ^ 31 ≤ sec ∧ sec < 2 ^ 31)
    : -10 ^ 17 + 2 ^ 33 ≤ exactTime tp sec ∧ exactTime tp sec ≤ 10 ^ 17 - 2 ^ 33 := by
  obtain ⟨-, min, hour, mday, mon, year⟩ := ints
  have month : 0 ≤ monthStart (isleap (tp.year + tp.mon / 12 + 1900)) (tp.mon % 12).toNat
      ∧ monthStart (isleap (tp.year + tp.mon / 12 + 1900)) (tp.mon % 12).toNat < 2 ^ 16 :=
    monYday_bounds _ _
  unfold exactTime seconds newYear leapsThrough
  omega

theorem exactTime_sec (tp : Tm) (sec sec' : Int)
    : exactTime tp sec - exactTime tp sec' = sec - sec' := by
  unfold exactTime seconds
  omega

theorem UtcForm.sec_eq {sec : Int} (form : UtcForm (exactTime tp sec) tm) (range : 0 ≤ sec ∧ sec < 60)
    : tm.sec = sec := by
  have time := form.brokenDown.time
  have second := form.brokenDown.sec
  unfold exactTime seconds at time
  omega

theorem firstProbe (fields : Fields req.year req.yday req.hour req.min req.sec) (offset : Int)
    : ydhmsDiff req.year req.yday req.hour req.min req.sec 70 0 0 0 (wrap 32 (-offset))
      = some (req.time - wrap 32 (-offset)) := by
  have guess := wrap32_bounds (-offset)
  rw [ydhmsDiff_eq fields ⟨by omega, by omega, by omega, by omega, by omega⟩]
  have epoch : newYear (70 + 1900) = 0 := newYear_1970
  unfold Requested.time seconds
  refine congrArg some ?_
  omega

section

variable {σ : Type} {convert : Convert σ} {Good : σ → Prop} {safe : Int → Prop}
  (utc : ConvertsUtc convert Good safe)

include utc

/-- After a match, the seconds requested are put back. -/
theorem offsetFound_utc (ints : tp.Ints) (clamped : req.sec = clampSec tp.sec) (t0 guess : Int) (z : σ)
    (good : Good z) (safeExact : safe (exactTime tp tp.sec))
    (rep : Representable (exactTime tp (clampSec tp.sec)))
    (form : UtcForm (exactTime tp (clampSec tp.sec)) tm)
    : ExactResult (offsetFound convert { tp with isdst := 0 } req t0 guess z
      (exactTime tp (clampSec tp.sec)) tm) tp := by
  have sec := ints.sec
  have range := clampSec_range tp.sec
  have second := form.sec_eq range
  have shift := exactTime_sec tp tp.sec (clampSec tp.sec)
  have bounds := (representable_iff _).mp rep
  unfold offsetFound
  dsimp only
  by_cases same : tp.sec = tm.sec
  · rw [if_neg (not_not.mpr same)]
    have equal : tp.sec = clampSec tp.sec := by omega
    refine ⟨fun _ _ => ⟨z, _, rfl, ?_, rfl, ?_⟩, fun not => absurd ⟨?_, rep⟩ not⟩
    · dsimp only
      omega
    · rw [← equal] at form
      exact form
    · rw [← equal] at rep
      exact rep
  · rw [if_pos same, if_neg (fun leap => by omega),
      show exactTime tp (clampSec tp.sec) + (0 - req.sec + tp.sec) = exactTime tp tp.sec by omega,
      int64_some (by omega) (by omega)]
    dsimp only
    by_cases inside : Representable (exactTime tp tp.sec)
    · obtain ⟨z', tm', -, run, form'⟩ := utc.inside z _ good safeExact inside
      rw [run]
      exact ⟨fun _ _ => ⟨z', _, rfl, rfl, rfl, form'⟩, fun not => absurd ⟨inside, rep⟩ not⟩
    · obtain ⟨z', -, run⟩ := utc.outside z _ good safeExact (by omega) inside
      rw [run]
      exact ⟨fun yes => absurd yes inside, fun _ => ⟨z', _, rfl, rfl, rfl, rfl⟩⟩

/-- With a conversion to universal time, the result is exact. -/
theorem mktimeInternal_utc (ints : tp.Ints) (offset : Int) (z : σ) (good : Good z)
    (safeFirst : safe (exactTime tp (clampSec tp.sec) - wrap 32 (-offset)))
    (safeClamped : safe (exactTime tp (clampSec tp.sec))) (safeExact : safe (exactTime tp tp.sec))
    : ExactResult (mktimeInternal convert z { tp with isdst := 0 } offset) tp := by
  obtain ⟨req, run, fields, target, clamped, isdst⟩ := requested_eq ints
  have guess := wrap32_bounds (-offset)
  have bounds := exactTime_bounds ints (show -2 ^ 31 ≤ clampSec tp.sec ∧ clampSec tp.sec < 2 ^ 31 by
    have := clampSec_range tp.sec
    omega)
  unfold mktimeInternal
  simp only [Option.bind_eq_bind]
  rw [run, Option.bind_some, firstProbe fields, Option.bind_some, target]
  by_cases rep : Representable (exactTime tp (clampSec tp.sec))
  · obtain ⟨z', tm, good', form, probes⟩ := probeLoop_matches utc fields isdst 4 z
      (exactTime tp (clampSec tp.sec) - wrap 32 (-offset)) _ _ false good safeFirst (by omega)
      (target ▸ safeClamped) (target ▸ rep)
    rw [target] at form probes
    rw [probes, Option.bind_some]
    dsimp only
    have agree : isdstDiffer req.isdst tm.isdst = false := by
      rw [isdst, form.isdst]
      rfl
    rw [agree]
    exact offsetFound_utc utc ints clamped _ _ z' good' safeExact rep form
  · obtain ⟨z', good', probes⟩ := probeLoop_fails utc fields isdst 6 z
      (exactTime tp (clampSec tp.sec) - wrap 32 (-offset)) _ _ false good safeFirst (by omega)
      (by omega) (target ▸ safeClamped) (target ▸ rep)
    rw [probes]
    exact ⟨fun _ yes => absurd yes rep, fun _ => ⟨z', _, rfl, rfl, rfl, rfl⟩⟩

end

section

variable (around : Int → UInt16) {rules : TzRules} (computed : rules.Computed)

include computed

/-- A late time overflows, or one on the way of the binary search. -/
theorem rangedConvert_late (late : ruleEnd ≤ t) (near : t ≤ 10 ^ 17)
    : rangedConvert (gmtimeR around) (some rules) t = none := by
  rw [ruleEnd_eq] at late
  have far : ∀ x, 185538783686400 ≤ x → ruleEnd ≤ x := fun x le => by
    exact le
  unfold rangedConvert
  by_cases rep : Representable t
  · rw [gmtimeR_late around computed (far t late) rep]
    rfl
  · have outside : ¬ (-67768040609740800 ≤ t ∧ t ≤ 67768036191676799) :=
      fun bounds => rep ((representable_iff t).mpr bounds)
    have first : gmtimeR around (some rules) t = some (some rules, none) := by
      rw [gmtimeR, tzConvert, (offtime_zero blank (by omega)).2 rep]
      rfl
    have half : Representable ((0 + t + 1) / 2) := (representable_iff _).mpr (by omega)
    rw [first, Option.bind_eq_bind, Option.bind_some]
    dsimp only
    rw [searchLoop, longIntAvg_eq, if_neg (by omega),
      gmtimeR_late around computed (far _ (by omega)) half]
    rfl

private theorem probeLoop_late (fields : Fields req.year req.yday req.hour req.min req.sec)
    (isdst : req.isdst = 0) (remaining : Nat) (t t1 t2 : Int) (dst2 : Bool)
    (near : -10 ^ 17 ≤ t ∧ t ≤ 10 ^ 17) (close : -10 ^ 17 ≤ req.time ∧ req.time ≤ 10 ^ 17)
    (late : ruleEnd ≤ t ∨ ruleEnd ≤ req.time)
    : probeLoop (gmtimeR around) req (remaining + 2) (some rules) t t1 t2 dst2 = none := by
  rcases le_or_gt ruleEnd t with first | before
  · rw [probeLoop, rangedConvert_late around computed first near.2]
    rfl
  · have second := late.resolve_left (not_le.mpr before)
    obtain ⟨z', c, tm, ⟨rules', rfl, computed'⟩, safeC, -, -, -, step⟩ :=
      probeLoop_step (gmtimeR_rules around) fields isdst (remaining + 1) (some rules) t t1 t2 dst2
        ⟨rules, rfl, computed⟩ before near close
    have miss : req.time ≠ c := by
      intro hit
      rw [hit] at second
      exact absurd safeC (not_lt.mpr second)
    rw [step, if_neg miss, probeLoop, rangedConvert_late around computed' second close.2]
    rfl

/-- If one of the times is late, a computation on the way overflows. -/
theorem timegm_late (ints : tp.Ints) (offset : Int)
    (late : ruleEnd ≤ exactTime tp (clampSec tp.sec) - wrap 32 (-offset)
      ∨ ruleEnd ≤ exactTime tp (clampSec tp.sec) ∨ ruleEnd ≤ exactTime tp tp.sec)
    : timegm around (some rules) tp offset = none := by
  obtain ⟨req, run, fields, target, clamped, isdst⟩ := requested_eq ints
  have guess := wrap32_bounds (-offset)
  have sec := ints.sec
  have range := clampSec_range tp.sec
  have bounds := exactTime_bounds ints (show -2 ^ 31 ≤ clampSec tp.sec ∧ clampSec tp.sec < 2 ^ 31 by
    omega)
  unfold timegm mktimeInternal
  simp only [Option.bind_eq_bind]
  rw [run, Option.bind_some, firstProbe fields, Option.bind_some, target]
  by_cases probes : ruleEnd ≤ exactTime tp (clampSec tp.sec) - wrap 32 (-offset)
      ∨ ruleEnd ≤ exactTime tp (clampSec tp.sec)
  · rw [probeLoop_late around computed fields isdst 4 _ _ _ false (by omega) (by omega)
      (target ▸ probes)]
    rfl
  · have last := late.elim (fun first => absurd (.inl first) probes)
      fun more => more.elim (fun second => absurd (.inr second) probes) id
    rw [not_or, not_le, not_le] at probes
    have shift := exactTime_sec tp tp.sec (clampSec tp.sec)
    have rep : Representable (exactTime tp (clampSec tp.sec)) := by
      rw [representable_iff]
      rw [ruleEnd_eq] at last probes
      omega
    have repExact : Representable (exactTime tp tp.sec) := by
      rw [representable_iff]
      rw [ruleEnd_eq] at last probes
      omega
    obtain ⟨z', tm, ⟨rules', rfl, computed'⟩, form, match'⟩ := probeLoop_matches
      (gmtimeR_rules around) fields isdst 4 (some rules)
      (exactTime tp (clampSec tp.sec) - wrap 32 (-offset)) _ _ false ⟨rules, rfl, computed⟩
      probes.1 (by omega) (target ▸ probes.2) (target ▸ rep)
    rw [target] at form match'
    have second := form.sec_eq range
    rw [match', Option.bind_some]
    dsimp only
    have agree : isdstDiffer req.isdst tm.isdst = false := by
      rw [isdst, form.isdst]
      rfl
    rw [agree, if_neg Bool.false_ne_true]
    unfold offsetFound
    dsimp only
    rw [if_pos (by omega), if_neg (fun leap => by omega),
      show exactTime tp (clampSec tp.sec) + (0 - req.sec + tp.sec) = exactTime tp tp.sec by
        have same : req.sec = clampSec tp.sec := clamped
        omega,
      int64_some (by have := (representable_iff _).mp repExact; omega)
        (by have := (representable_iff _).mp repExact; omega)]
    dsimp only
    rw [gmtimeR_late around computed' last repExact]
    rfl

end

/-- `timegm` is exact if and only if a zone file is in use, or the time requested and the first
guess are before the year 5881460.
-/
theorem timegm_exact_iff (around : Int → UInt16) (zone : Option TzRules)
    (computed : ∀ rules, zone = some rules → rules.Computed) (tp : Tm) (ints : tp.Ints)
    (offset : Int)
    : ExactResult (timegm around zone tp offset) tp
      ↔ zone = none ∨ exactTime tp tp.sec < ruleEnd ∧ exactTime tp (clampSec tp.sec) < ruleEnd
        ∧ exactTime tp (clampSec tp.sec) - wrap 32 (-offset) < ruleEnd := by
  cases zone with
  | none =>
    refine ⟨fun _ => .inl rfl, fun _ => ?_⟩
    exact mktimeInternal_utc (gmtimeR_file around) ints offset none rfl trivial trivial trivial
  | some rules =>
    have good := computed rules rfl
    constructor
    · intro exact
      right
      by_contra late
      have fails := timegm_late around good ints offset (by omega)
      rw [fails] at exact
      by_cases both : Representable (exactTime tp tp.sec)
          ∧ Representable (exactTime tp (clampSec tp.sec))
      · obtain ⟨z, result, run, -⟩ := exact.inside both.1 both.2
        cases run
      · obtain ⟨z, result, run, -⟩ := exact.outside both
        cases run
    · rintro (no | ⟨last, clamped, first⟩)
      · cases no
      · exact mktimeInternal_utc (gmtimeR_rules around) ints offset (some rules)
          ⟨rules, rfl, good⟩ first clamped last

def utcRules : TzRules :=
  ⟨⟨[85, 84, 67], .J0, 0, 0, 0, 0, 0, 0, 0⟩, ⟨[85, 84, 67], .J0, 0, 0, 0, 0, 0, 0, 0⟩⟩

theorem utcRules_computed : utcRules.Computed := by
  refine ⟨⟨⟨?_, ?_, ?_, ?_, ?_⟩, ?_⟩, ⟨⟨?_, ?_, ?_, ?_, ?_⟩, ?_⟩⟩ <;> decide

/-- One second after 23:59:60 on the 31st day of the 14th month of 1999. -/
def unnormalized : Tm := ⟨61, 59, 23, 31, 13, 99, 0, 0, 1, 0, []⟩

theorem timegm_exact_unnormalized
    : unnormalized.Ints ∧ utcRules.Computed ∧ exactTime unnormalized 61 = 952041601
      ∧ ExactResult (timegm (fun _ => 0) (some utcRules) unnormalized 0) unnormalized := by
  have ints : unnormalized.Ints := by
    refine ⟨?_, ?_, ?_, ?_, ?_, ?_⟩ <;> decide
  refine ⟨ints, utcRules_computed, by decide, ?_⟩
  refine (timegm_exact_iff _ (some utcRules) ?_ unnormalized ints 0).mpr (.inr (by decide))
  rintro rules same
  cases same
  exact utcRules_computed

def farFuture : Tm := ⟨0, 0, 0, 1, 0, 5998100, 0, 0, 0, 0, []⟩

/-- With rules, the number of days up to that year is not of type `int`. -/
theorem not_timegm_exact
    : Representable (exactTime farFuture 0)
      ∧ ¬ ExactResult (timegm (fun _ => 0) (some utcRules) farFuture 0) farFuture := by
  have inside : Representable (exactTime farFuture 0) := by
    unfold Representable
    decide
  refine ⟨inside, fun exact => ?_⟩
  obtain ⟨z, result, run, -⟩ := exact.inside inside inside
  cases run

/-- A time that was broken down is put together again, from the same fields. -/
theorem timegm_gmtimeR (around : Int → UInt16) {zone : Option TzRules}
    (computed : ∀ rules, zone = some rules → rules.Computed) (rep : Representable t) (offset : Int)
    (early : zone = none ∨ t < ruleEnd ∧ t - wrap 32 (-offset) < ruleEnd)
    : ∃ zone' tm zone'' offset', gmtimeR around zone t = some (zone', some tm)
      ∧ timegm around zone' tm offset = some (zone'', ⟨t, false, tm, offset'⟩) := by
  obtain ⟨Good, safe, utc, good, safeT, safeFirst⟩ : ∃ Good safe,
      ConvertsUtc (gmtimeR around) Good safe ∧ Good zone ∧ safe t ∧ safe (t - wrap 32 (-offset)) := by
    cases zone with
    | none => exact ⟨_, _, gmtimeR_file around, rfl, trivial, trivial⟩
    | some rules =>
      exact ⟨_, _, gmtimeR_rules around, ⟨rules, rfl, computed rules rfl⟩, early.resolve_left nofun⟩
  obtain ⟨zone', tm, good', run, form⟩ := utc.inside zone t good safeT rep
  obtain ⟨time, sec, min, hour, -, mon, mday, last, -, year⟩ := form.brokenDown
  have same : exactTime tm tm.sec = t := by
    rw [exactTime, Int.ediv_eq_zero_of_lt mon.1 mon.2, Int.emod_eq_of_lt mon.1 mon.2, add_zero,
      ← mday.2, time]
  have clamped : clampSec tm.sec = tm.sec := by
    rw [clampSec, if_neg (by omega), if_neg (by omega)]
  have begun := monYday_bounds (isleap (tm.year + 1900)) tm.mon.toNat
  have ends := monYday_bounds (isleap (tm.year + 1900)) (tm.mon.toNat + 1)
  rw [monYday] at begun ends
  have ints : tm.Ints := by constructor <;> omega
  obtain ⟨zone'', ⟨_, _, tm', offset'⟩, again, rfl, rfl, form'⟩ :=
    (mktimeInternal_utc utc ints offset zone' good' (by rwa [clamped, same]) (by rwa [clamped, same])
      (by rwa [same])).inside (by rwa [same]) (by rwa [clamped, same])
  rw [same] at again form'
  have fields := form.brokenDown.unique form'.brokenDown
  rw [form'.isdst.trans form.isdst.symm, form'.gmtoff.trans form.gmtoff.symm,
    form'.zone.trans form.zone.symm] at fields
  obtain rfl : tm' = tm := fields
  exact ⟨zone', tm', zone'', offset', run, again⟩

/-- The leap day of the year 2000, with rules. -/
theorem timegm_gmtimeR_leap
    : ∃ zone tm zone' offset, gmtimeR (fun _ => 0) (some utcRules) 951782400 = some (zone, some tm)
      ∧ timegm (fun _ => 0) zone tm 0 = some (zone', ⟨951782400, false, tm, offset⟩) := by
  refine timegm_gmtimeR _ (fun rules same => ?_) ((representable_iff _).mpr (by decide)) 0
    (.inr (by decide))
  cases same
  exact utcRules_computed

end Nglibc.Time
