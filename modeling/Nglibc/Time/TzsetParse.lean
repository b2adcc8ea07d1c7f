import Nglibc.Time.Tzset

/-! `__tzset_parse_tz` of `time/tzset.c`. Strings are lists of bytes without the terminator. There is
memory for the names.
-/

namespace Nglibc.Time

def isdigit (c : UInt8) : Bool := decide (48 ≤ c ∧ c ≤ 57)

def isalpha (c : UInt8) : Bool := decide (97 ≤ c ∧ c ≤ 122) || decide (65 ≤ c ∧ c ≤ 90)

def isspace (c : UInt8) : Bool := c == 32 || decide (9 ≤ c ∧ c ≤ 13)

def digitsValue (digits : List UInt8) : Nat :=
  digits.foldl (fun value c => min (value * 10 + (c.toNat - 48)) (2 ^ 64)) 0

/-- The conversion `%hu` of `sscanf`: the value and the rest. -/
def scanHu (s : List UInt8) : Option (Nat × List UInt8) :=
  let s := s.dropWhile isspace
  let negative := s.head? == some 45
  let s := if s.head? == some 45 || s.head? == some 43 then s.tail else s
  let value := digitsValue (s.takeWhile isdigit)
  let long := if value ≥ 2 ^ 64 then 2 ^ 64 - 1 else if negative then 2 ^ 64 - value else value
  if (s.takeWhile isdigit).isEmpty then none
  else some (long % 2 ^ 16, s.dropWhile isdigit)

/-- A byte of the format followed by `%hu`. -/
def scanSeparated (separator : UInt8) (s : List UInt8) : Option (Nat × List UInt8) :=
  if s.head? = some separator then scanHu s.tail else none

/-- `sscanf (tz, "%hu%n:%hu%n:%hu%n", …)`: the numbers that were found, and the rest. -/
def scanTime (s : List UInt8) : List Nat × List UInt8 :=
  match scanHu s with
  | none => ([], s)
  | some (hh, s) =>
    match scanSeparated 58 s with
    | none => ([hh], s)
    | some (mm, s) =>
      match scanSeparated 58 s with
      | none => ([hh, mm], s)
      | some (ss, s) => ([hh, mm, ss], s)

def computeOffset (ss mm hh : Nat) : Nat := min ss 59 + min mm 59 * 60 + min hh 24 * 60 * 60

/-- `parse_tzname`: the name and the rest. -/
def parseTzname (tz : List UInt8) : Option (List UInt8 × List UInt8) :=
  let plain := tz.takeWhile isalpha
  if plain.length ≥ 3 then some (plain, tz.dropWhile isalpha)
  else if tz.head? = some 60 then
    let quoted (c : UInt8) : Bool := isalpha c || isdigit c || c == 43 || c == 45
    let name := tz.tail.takeWhile quoted
    let rest := tz.tail.dropWhile quoted
    if rest.head? = some 62 ∧ name.length ≥ 3 then some (name, rest.tail) else none
  else none

def parseSign (tz : List UInt8) : Int × List UInt8 :=
  if tz.head? = some 45 then (1, tz.tail)
  else if tz.head? = some 43 then (-1, tz.tail)
  else (-1, tz)

/-- `parse_offset` for standard time; a failure leaves the offset 0. -/
def parseOffset (tz : List UInt8) : Option (Int × List UInt8) :=
  if tz.head?.any (fun c => c == 43 || c == 45 || isdigit c) then
    let (sign, tz) := parseSign tz
    match scanTime tz with
    | ([], _) => none
    | (hh :: more, tz) => some (sign * computeOffset (more.getD 1 0) (more.getD 0 0) hh, tz)
  else none

/-- `parse_offset` for daylight saving time, one hour later than standard time by default. -/
def parseDstOffset (std : Int) (tz : List UInt8) : Int × List UInt8 :=
  let (sign, tz) := parseSign tz
  match scanTime tz with
  | ([], _) => (std + 3600, tz)
  | (hh :: more, tz) => (sign * computeOffset (more.getD 1 0) (more.getD 0 0) hh, tz)

/-- The day of a rule of type `J0` or `J1`. -/
def parseJulian (rule : TzRule) (tz : List UInt8) : TzRule × Option (List UInt8) :=
  let d := digitsValue (tz.takeWhile isdigit)
  if (tz.takeWhile isdigit).isEmpty then (rule, none)
  else if d > 365 then (rule, none)
  else if rule.type = .J1 ∧ d = 0 then (rule, none)
  else ({ rule with d := d }, some (tz.dropWhile isdigit))

/-- The numbers behind the `M` of a rule, each of which is stored when it is found. -/
def parseMonth (rule : TzRule) (tz : List UInt8) : TzRule × Option (List UInt8) :=
  match scanHu tz with
  | none => (rule, none)
  | some (m, tz) =>
    match scanSeparated 46 tz with
    | none => ({ rule with m := m }, none)
    | some (n, tz) =>
      match scanSeparated 46 tz with
      | none => ({ rule with m := m, n := n }, none)
      | some (d, tz) =>
        ({ rule with m := m, n := n, d := d },
          if m < 1 ∨ m > 12 ∨ n < 1 ∨ n > 5 ∨ d > 6 then none else some tz)

def parseDate (rule : TzRule) (isStd : Bool) (tz : List UInt8) : TzRule × Option (List UInt8) :=
  match tz with
  | [] =>
    if isStd then ({ rule with type := .M, m := 3, n := 2, d := 0 }, some [])
    else ({ rule with type := .M, m := 11, n := 1, d := 0 }, some [])
  | c :: rest =>
    if c = 74 then parseJulian { rule with type := .J1 } rest
    else if isdigit c then parseJulian { rule with type := .J0 } (c :: rest)
    else if c = 77 then parseMonth { rule with type := .M } rest
    else (rule, none)

def parseTime (tz : List UInt8) : Int × List UInt8 :=
  let (sign, tz) : Int × List UInt8 := if tz.head? = some 45 then (-1, tz.tail) else (1, tz)
  let (numbers, tz) := scanTime tz
  (sign * (numbers.getD 0 2 * 60 * 60 + numbers.getD 1 0 * 60 + numbers.getD 2 0), tz)

/-- `parse_rule`: the rule, and the rest if it was successful. -/
def parseRule (rule : TzRule) (isStd : Bool) (tz : List UInt8) : TzRule × Option (List UInt8) :=
  let tz := if tz.head? = some 44 then tz.tail else tz
  match parseDate rule isStd tz with
  | (rule, none) => (rule, none)
  | (rule, some []) => ({ rule with secs := 7200, computedFor := -1 }, some [])
  | (rule, some (c :: rest)) =>
    if c = 47 then
      if rest.isEmpty then (rule, none)
      else
        let (secs, rest) := parseTime rest
        ({ rule with secs := secs, computedFor := -1 }, some rest)
    else if c = 44 then ({ rule with secs := 7200, computedFor := -1 }, some (c :: rest))
    else (rule, none)

/-- A rule after `memset`. -/
def clearedRule : TzRule := ⟨[], .J0, 0, 0, 0, 0, 0, 0, 0⟩

/-- The rules for the changes to standard time and from it. -/
def parseRules (std dst : TzRule) (tz : List UInt8) : TzRules :=
  match parseRule std true tz with
  | (std, none) => ⟨std, dst⟩
  | (std, some tz) => ⟨std, (parseRule dst false tz).1⟩

/-- What stands behind the offset of standard time. -/
def parseDst (std : TzRule) (tz : List UInt8) : TzRules :=
  match parseTzname tz with
  | none => parseRules std clearedRule tz
  | some (name, tz) =>
    let (offset, tz) := parseDstOffset std.offset tz
    parseRules std { clearedRule with name := name, offset := offset } tz

/-- `__tzset_parse_tz`, where `__tzfile_default` finds no rules file and frees no string. -/
def tzsetParseTz (tz : List UInt8) : TzRules :=
  match parseTzname tz with
  | none => ⟨clearedRule, clearedRule⟩
  | some (name, tz) =>
    let std := { clearedRule with name := name }
    match parseOffset tz with
    | none => ⟨std, clearedRule⟩
    | some (offset, tz) =>
      let std := { std with offset := offset }
      if tz.isEmpty then ⟨std, std⟩ else parseDst std tz

/-- The rules at the call of `__tzfile_default`, for a string that names daylight saving time but has no
rule.
-/
def tzsetNoRule (tz : List UInt8) : Option TzRules := do
  let (std, tz) ← parseTzname tz
  let (stdOffset, tz) ← parseOffset tz
  let (dst, tz) ← parseTzname tz
  let (dstOffset, tz) := parseDstOffset stdOffset tz
  if tz = [] ∨ tz = [44] then
    return ⟨{ clearedRule with name := std, offset := stdOffset },
      { clearedRule with name := dst, offset := dstOffset }⟩
  else none

/-! Rules that have been parsed -/

/-- A rule for which no change has been computed. It was parsed if the year is -1. -/
structure TzRule.Fresh (rule : TzRule) : Prop where
  sized : rule.Sized
  change : rule.change = 0
  computedFor : rule.computedFor = 0 ∨ rule.computedFor = -1

theorem scanHu_lt {s rest : List UInt8} {value : Nat} (scan : scanHu s = some (value, rest))
    : value < 2 ^ 16 := by
  unfold scanHu at scan
  simp only [Option.ite_none_left_eq_some, Option.some.injEq, Prod.mk.injEq] at scan
  obtain ⟨-, rfl, -⟩ := scan
  exact Nat.mod_lt _ (by norm_num)

theorem scanSeparated_lt {separator : UInt8} {s rest : List UInt8} {value : Nat}
    (scan : scanSeparated separator s = some (value, rest))
    : value < 2 ^ 16 := by
  unfold scanSeparated at scan
  split_ifs at scan
  exact scanHu_lt scan

theorem TzRule.Fresh.set {rule : TzRule} (fresh : rule.Fresh) (name : List UInt8) (type : RuleType)
    {m n d : Nat} {secs offset : Int} (hm : m < 2 ^ 16) (hn : n < 2 ^ 16) (hd : d < 2 ^ 16)
    (hsecs : -2 ^ 31 ≤ secs ∧ secs < 2 ^ 31) (hoffset : -2 ^ 31 ≤ offset ∧ offset < 2 ^ 31)
    {computedFor : Int} (known : computedFor = 0 ∨ computedFor = -1)
    : TzRule.Fresh ⟨name, type, m, n, d, secs, offset, rule.change, computedFor⟩ :=
  ⟨⟨hm, hn, hd, hsecs, hoffset⟩, fresh.change, known⟩

theorem clearedRule_fresh : clearedRule.Fresh := by
  refine ⟨⟨?_, ?_, ?_, ?_, ?_⟩, rfl, .inl rfl⟩ <;> decide

section

variable {rule : TzRule} (fresh : rule.Fresh) (tz : List UInt8)

include fresh

theorem TzRule.Fresh.parseJulian : (Time.parseJulian rule tz).1.Fresh := by
  obtain ⟨⟨hm, hn, hd, hsecs, hoffset⟩, -, known⟩ := id fresh
  unfold Time.parseJulian
  dsimp only
  split_ifs
  · exact fresh
  · exact fresh
  · exact fresh
  · exact fresh.set _ _ hm hn (by omega) hsecs hoffset known

theorem TzRule.Fresh.parseMonth : (Time.parseMonth rule tz).1.Fresh := by
  obtain ⟨⟨hm, hn, hd, hsecs, hoffset⟩, -, known⟩ := id fresh
  unfold Time.parseMonth
  split
  · exact fresh
  · rename_i m rest scanM
    split
    · exact fresh.set _ _ (scanHu_lt scanM) hn hd hsecs hoffset known
    · rename_i n rest scanN
      split
      · exact fresh.set _ _ (scanHu_lt scanM) (scanSeparated_lt scanN) hd hsecs hoffset known
      · rename_i d rest scanD
        exact fresh.set _ _ (scanHu_lt scanM) (scanSeparated_lt scanN) (scanSeparated_lt scanD)
          hsecs hoffset known

theorem TzRule.Fresh.parseDate (isStd : Bool) : (Time.parseDate rule isStd tz).1.Fresh := by
  obtain ⟨⟨hm, hn, hd, hsecs, hoffset⟩, -, known⟩ := id fresh
  have typed : ∀ type, TzRule.Fresh { rule with type := type } :=
    fun type => fresh.set _ type hm hn hd hsecs hoffset known
  unfold Time.parseDate
  cases tz with
  | nil =>
    split_ifs
    · exact fresh.set _ _ (by norm_num) (by norm_num) (by norm_num) hsecs hoffset known
    · exact fresh.set _ _ (by norm_num) (by norm_num) (by norm_num) hsecs hoffset known
  | cons c rest =>
    dsimp only
    split_ifs
    · exact (typed .J1).parseJulian rest
    · exact (typed .J0).parseJulian (c :: rest)
    · exact (typed .M).parseMonth rest
    · exact fresh

end

theorem scanTime_lt (tz : List UInt8) : ∀ value ∈ (scanTime tz).1, value < 2 ^ 16 := by
  unfold scanTime
  split
  · exact List.forall_mem_nil _
  · rename_i hh rest scanH
    split
    · exact List.forall_mem_singleton.mpr (scanHu_lt scanH)
    · rename_i mm rest scanM
      split
      · exact List.forall_mem_cons.mpr
          ⟨scanHu_lt scanH, List.forall_mem_singleton.mpr (scanSeparated_lt scanM)⟩
      · rename_i ss rest scanS
        exact List.forall_mem_cons.mpr ⟨scanHu_lt scanH, List.forall_mem_cons.mpr
          ⟨scanSeparated_lt scanM, List.forall_mem_singleton.mpr (scanSeparated_lt scanS)⟩⟩

theorem getD_lt {numbers : List Nat} (small : ∀ value ∈ numbers, value < 2 ^ 16) (i : Nat)
    {default : Nat} (less : default < 2 ^ 16)
    : numbers.getD i default < 2 ^ 16 := by
  rw [List.getD_eq_getElem?_getD]
  cases found : numbers[i]? with
  | none => exact less
  | some value => exact small value (List.mem_of_getElem? found)

private theorem parseTime_bounds (tz : List UInt8)
    : -2 ^ 31 ≤ (parseTime tz).1 ∧ (parseTime tz).1 < 2 ^ 31 := by
  unfold parseTime
  have bound : ∀ numbers : List Nat, (∀ value ∈ numbers, value < 2 ^ 16) →
      numbers.getD 0 2 * 60 * 60 + numbers.getD 1 0 * 60 + numbers.getD 2 0 < 2 ^ 31 := by
    intro numbers small
    have hh := getD_lt small 0 (show 2 < 2 ^ 16 by norm_num)
    have mm := getD_lt small 1 (show 0 < 2 ^ 16 by norm_num)
    have ss := getD_lt small 2 (show 0 < 2 ^ 16 by norm_num)
    omega
  split_ifs
  · have less := bound _ (scanTime_lt tz.tail)
    push_cast at less ⊢
    omega
  · have less := bound _ (scanTime_lt tz)
    push_cast at less ⊢
    omega

theorem TzRule.Fresh.parseRule {rule : TzRule} (fresh : rule.Fresh) (isStd : Bool)
    (tz : List UInt8)
    : (Time.parseRule rule isStd tz).1.Fresh := by
  unfold Time.parseRule
  generalize (if tz.head? = some 44 then tz.tail else tz) = text
  have date := fresh.parseDate text isStd
  dsimp only
  generalize Time.parseDate rule isStd text = result at date
  obtain ⟨parsed, ends⟩ := result
  obtain ⟨⟨hm, hn, hd, hsecs, hoffset⟩, -, known⟩ := id date
  have default : -2 ^ 31 ≤ (7200 : Int) ∧ (7200 : Int) < 2 ^ 31 := by norm_num
  cases ends with
  | none => exact date
  | some rest =>
    cases rest with
    | nil => exact date.set _ _ hm hn hd default hoffset (.inr rfl)
    | cons c rest =>
      dsimp only
      split_ifs
      · exact date
      · exact date.set _ _ hm hn hd (parseTime_bounds rest) hoffset (.inr rfl)
      · exact date.set _ _ hm hn hd default hoffset (.inr rfl)
      · exact date

theorem computeOffset_lt (ss mm hh : Nat) : computeOffset ss mm hh < 2 ^ 17 := by
  unfold computeOffset
  omega

theorem parseSign_cases (tz : List UInt8) : (parseSign tz).1 = 1 ∨ (parseSign tz).1 = -1 := by
  unfold parseSign
  split_ifs
  · exact .inl rfl
  · exact .inr rfl
  · exact .inr rfl

theorem signed_bounds {sign : Int} (unit : sign = 1 ∨ sign = -1) (ss mm hh : Nat)
    : -2 ^ 17 < sign * computeOffset ss mm hh ∧ sign * computeOffset ss mm hh < 2 ^ 17 := by
  have less := computeOffset_lt ss mm hh
  rcases unit with rfl | rfl <;> omega

theorem parseOffset_bounds {tz rest : List UInt8} {offset : Int}
    (parsed : parseOffset tz = some (offset, rest))
    : -2 ^ 17 < offset ∧ offset < 2 ^ 17 := by
  unfold parseOffset at parsed
  split_ifs at parsed
  dsimp only at parsed
  split at parsed
  · cases parsed
  · cases parsed
    exact signed_bounds (parseSign_cases tz) _ _ _

theorem parseDstOffset_bounds {std : Int} (near : -2 ^ 17 < std ∧ std < 2 ^ 17) (tz : List UInt8)
    : -2 ^ 18 < (parseDstOffset std tz).1 ∧ (parseDstOffset std tz).1 < 2 ^ 18 := by
  unfold parseDstOffset
  dsimp only
  split
  · omega
  · have bounds := fun ss mm hh => signed_bounds (parseSign_cases tz) ss mm hh
    rename_i hh more rest scan
    have here := bounds (more.getD 1 0) (more.getD 0 0) hh
    omega

theorem clearedRule_named (name : List UInt8) {offset : Int}
    (bounds : -2 ^ 18 < offset ∧ offset < 2 ^ 18)
    : TzRule.Fresh { clearedRule with name := name, offset := offset } := by
  have zero : -2 ^ 31 ≤ (0 : Int) ∧ (0 : Int) < 2 ^ 31 := by norm_num
  have small : 0 < 2 ^ 16 := by norm_num
  exact clearedRule_fresh.set name .J0 small small small zero (by omega) (.inl rfl)

theorem parseRules_fresh {std dst : TzRule} (freshStd : std.Fresh) (freshDst : dst.Fresh)
    (tz : List UInt8)
    : (parseRules std dst tz).std.Fresh ∧ (parseRules std dst tz).dst.Fresh := by
  have first := freshStd.parseRule true tz
  unfold parseRules
  generalize parseRule std true tz = result at first
  obtain ⟨std', ends⟩ := result
  cases ends with
  | none => exact ⟨first, freshDst⟩
  | some rest => exact ⟨first, freshDst.parseRule false rest⟩

theorem parseDst_fresh {std : TzRule} (fresh : std.Fresh)
    (near : -2 ^ 17 < std.offset ∧ std.offset < 2 ^ 17) (tz : List UInt8)
    : (parseDst std tz).std.Fresh ∧ (parseDst std tz).dst.Fresh := by
  unfold parseDst
  cases parseTzname tz with
  | none => exact parseRules_fresh fresh clearedRule_fresh tz
  | some found =>
    have bounds := parseDstOffset_bounds near found.2
    exact parseRules_fresh fresh (clearedRule_named found.1 bounds) _

/-- After parsing, no change has been computed, whatever the string was. -/
theorem tzsetParseTz_fresh (tz : List UInt8)
    : (tzsetParseTz tz).std.Fresh ∧ (tzsetParseTz tz).dst.Fresh := by
  have cleared := clearedRule_fresh
  unfold tzsetParseTz
  cases parseTzname tz with
  | none => exact ⟨cleared, cleared⟩
  | some found =>
    dsimp only
    cases parsed : parseOffset found.2 with
    | none =>
      have zero : -2 ^ 18 < clearedRule.offset ∧ clearedRule.offset < 2 ^ 18 := by decide
      exact ⟨clearedRule_named found.1 zero, cleared⟩
    | some offset =>
      have bounds := parseOffset_bounds parsed
      have std := clearedRule_named found.1 (show -2 ^ 18 < offset.1 ∧ offset.1 < 2 ^ 18 by omega)
      dsimp only
      split_ifs
      · exact ⟨std, std⟩
      · exact parseDst_fresh std bounds offset.2

end Nglibc.Time
