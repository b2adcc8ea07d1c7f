import Nglibc.Time.TzFileSafe

/-! What `__tzfile_default` makes of the transitions of the rules file. -/

namespace Nglibc.Time

open List

/-! Wall-clock times -/

/-- A transition is moved so that its time is read as before: by the clock that was in force before
it, by the clock of standard time, or in GMT.
-/
def KeepsReading (file user : ZoneOffsets) (isdst : Bool) (type : TtInfo) (t moved : Int) : Prop :=
  if type.isgmt then moved = t
  else if isdst ∧ ¬ type.isstd then moved + user.dst = t + file.dst
  else moved + user.std = t + file.std

def KeepsReadings (file user : ZoneOffsets) : Bool → List (Int × TtInfo) → List Int → Prop
  | _, [], moved => moved = []
  | _, _ :: _, [] => False
  | isdst, (t, type) :: rest, t' :: moved =>
    KeepsReading file user isdst type t t' ∧ KeepsReadings file user type.isdst rest moved

/-- When the code reads a transition as before: its offset of standard time must be the one of the
file, because the correction has the wrong sign; with the offset of daylight saving time the static
variable counts as well.
-/
def Correctable (file user rule : ZoneOffsets) (isdst : Bool) (type : TtInfo) (t : Int) : Prop :=
  if type.isgmt then True
  else if isdst ∧ ¬ type.isstd then
    2 * user.dst = file.dst + rule.dst ∧ (int64 (t + (user.dst - rule.dst))).isSome
  else user.std = file.std

def AllCorrectable (file user rule : ZoneOffsets) : Bool → List (Int × TtInfo) → Prop
  | _, [] => True
  | isdst, (t, type) :: rest =>
    Correctable file user rule isdst type t ∧ AllCorrectable file user rule type.isdst rest

theorem fits_eq_some {w : Nat} {x y : Int} (run : fits w x = some y) : y = x := by
  unfold fits at run
  split_ifs at run
  exact (Option.some.inj run).symm

section

variable {file user rule : ZoneOffsets}

private theorem correction_iff (same : rule.std = file.std) (isdst : Bool) (type : TtInfo) {t : Int}
    (long : -9223372036854775808 ≤ t ∧ t ≤ 9223372036854775807)
    : (∃ moved, int64 (t + correction user rule isdst type) = some moved
        ∧ KeepsReading file user isdst type t moved)
      ↔ Correctable file user rule isdst type t := by
  unfold correction KeepsReading Correctable
  split_ifs with gmt wall
  · rw [int64_some (by omega) (by omega)]
    simp
  · constructor
    · rintro ⟨moved, run, kept⟩
      have := fits_eq_some run
      exact ⟨by omega, by rw [run]; rfl⟩
    · rintro ⟨double, fits⟩
      obtain ⟨moved, run⟩ := Option.isSome_iff_exists.mp fits
      have := fits_eq_some run
      exact ⟨moved, run, by omega⟩
  · constructor
    · rintro ⟨moved, run, kept⟩
      have := fits_eq_some run
      omega
    · intro equal
      rw [int64_some (by omega) (by omega)]
      exact ⟨_, rfl, by omega⟩

/-- The loop keeps all readings exactly if each correction does. -/
theorem moveTransitions_iff (same : rule.std = file.std) (isdst : Bool)
    {used : List (Int × TtInfo)}
    (long : ∀ t ∈ used.map Prod.fst, -9223372036854775808 ≤ t ∧ t ≤ 9223372036854775807)
    : (∃ moved, moveTransitions user rule isdst used = some moved
        ∧ KeepsReadings file user isdst used moved)
      ↔ AllCorrectable file user rule isdst used := by
  induction used generalizing isdst with
  | nil =>
    unfold moveTransitions AllCorrectable
    exact iff_of_true ⟨[], rfl, rfl⟩ trivial
  | cons first rest ih =>
    obtain ⟨t, type⟩ := first
    rw [map_cons, forall_mem_cons] at long
    rw [moveTransitions, AllCorrectable, ← correction_iff same isdst type long.1,
      ← ih type.isdst long.2]
    simp only [Option.bind_eq_bind]
    constructor
    · rintro ⟨moved, run, kept⟩
      obtain ⟨t', fits, run⟩ := Option.bind_eq_some_iff.mp run
      obtain ⟨moved', rest', run⟩ := Option.bind_eq_some_iff.mp run
      cases run
      exact ⟨⟨t', fits, kept.1⟩, moved', rest', kept.2⟩
    · rintro ⟨⟨t', fits, kept⟩, moved, rest', keeps⟩
      exact ⟨t' :: moved, by rw [fits, rest']; rfl, kept, keeps⟩

end

/-! The rules file -/

/-- The types have one offset of standard time and one of daylight saving time. -/
def TzFile.HasOffsets (file : TzFile) (zone : ZoneOffsets) : Prop :=
  ∀ type ∈ file.types, type.offset = if type.isdst then zone.dst else zone.std

private theorem standardOffset_eq {zone : ZoneOffsets} {types : List TtInfo}
    (offsets : ∀ type ∈ types, type.offset = if type.isdst then zone.dst else zone.std)
    (standard : ∃ type ∈ types, type.isdst = false)
    : (standardOffset types).1 = zone.std := by
  induction types with
  | nil =>
    obtain ⟨type, inside, -⟩ := standard
    cases inside
  | cons type types ih =>
    rw [forall_mem_cons] at offsets
    unfold standardOffset
    split_ifs with isdst
    · refine ih offsets.2 ?_
      obtain ⟨other, inside, plain⟩ := standard
      rcases mem_cons.mp inside with rfl | inside
      · rw [plain] at isdst
        cases isdst
      · exact ⟨other, inside, plain⟩
    · rw [offsets.1, if_neg isdst]

theorem decodeTime_bounds (width : Nat) (bytes : List UInt8)
    : -9223372036854775808 ≤ decodeTime width bytes
      ∧ decodeTime width bytes ≤ 9223372036854775807 := by
  unfold decodeTime decode decode64 wrap
  split_ifs <;> norm_num <;> omega

private theorem tzfileRead_offsets {env : Surroundings} {bytes : List UInt8} {extra : UInt64} {file : TzFile}
    (accepted : tzfileRead env bytes extra = some file)
    : (∀ t ∈ file.transitions, -9223372036854775808 ≤ t ∧ t ≤ 9223372036854775807)
      ∧ (file.transitions ≠ [] → file.ruleStdoff = (standardOffset
          (file.typeIdxs.map fun idx => file.types.getD idx env.noType).reverse).1) := by
  unfold tzfileRead at accepted
  simp only [Option.bind_eq_bind, Option.bind_eq_some_iff, Option.ite_none_left_eq_some] at accepted
  obtain ⟨heads, -, len, -, addresses, -, times, -, idxs, -, -, types, -, zoneNames, -, leaps, -,
    isstd, -, isgmt, -, -, accepted⟩ := accepted
  obtain rfl := Option.some.inj accepted
  refine ⟨fun t inside => ?_, fun some => ?_⟩
  · obtain ⟨i, -, rfl⟩ := mem_map.mp inside
    exact decodeTime_bounds _ _
  · rw [if_neg]
    intro none
    rw [none] at some
    exact some rfl

theorem TzFile.used_types {env : Surroundings} {bytes : List UInt8} {extra : UInt64} {file : TzFile}
    (accepted : tzfileRead env bytes extra = some file)
    : (file.used env.noType).map Prod.fst = file.transitions ∧ (file.used env.noType).map Prod.snd
        = file.typeIdxs.map (fun idx => file.types.getD idx env.noType)
      ∧ ∀ idx ∈ file.typeIdxs, file.types.getD idx env.noType ∈ file.types := by
  obtain ⟨heads, len, facts⟩ := tzfileRead_some accepted
  have same := facts.typeIdxs.trans facts.transitions.symm
  unfold TzFile.used
  refine ⟨map_fst_zip (by rw [length_map, same]),
    map_snd_zip (by rw [length_map, same]), fun idx inside => ?_⟩
  have less : idx < file.types.length := facts.types ▸ facts.typed idx inside
  rw [getD_eq_getElem _ _ less]
  exact getElem_mem less

/-- The transitions of a file with one offset of each kind keep their readings exactly if all of them
can be corrected.
-/
theorem tzfileDefault_keeps_iff {env : Surroundings} {bytes std dst : List UInt8} {file : TzFile}
    {zone : ZoneOffsets}
    (accepted : tzfileRead env bytes (.ofNat (std ++ 0 :: dst ++ [0]).length) = some file)
    (offsets : file.HasOffsets zone)
    (kinds : ∀ isdst, ∃ transition ∈ file.used env.noType, transition.2.isdst = isdst)
    (ruleDstoff : Int) (user : ZoneOffsets) (cp : UInt64)
    : (∃ moved, tzfileDefault env bytes ruleDstoff std dst user cp = some (some moved)
        ∧ KeepsReadings zone user false (file.used env.noType) moved.transitions)
      ↔ AllCorrectable zone user ⟨zone.std, ruleDstoff⟩ false (file.used env.noType) := by
  obtain ⟨long, standard⟩ := tzfileRead_offsets accepted
  obtain ⟨times, types, inside⟩ := TzFile.used_types accepted
  have typed : ∀ transition ∈ file.used env.noType, transition.2 ∈ file.types := by
    intro transition member
    have member := mem_map_of_mem (f := Prod.snd) member
    rw [types] at member
    obtain ⟨idx, member, same⟩ := mem_map.mp member
    exact same ▸ inside idx member
  obtain ⟨plain, plainUsed, plainKind⟩ := kinds false
  obtain ⟨summer, summerUsed, summerKind⟩ := kinds true
  have some_ : file.transitions ≠ [] := by
    rw [← times]
    exact ne_nil_of_mem (mem_map_of_mem plainUsed)
  have rule : file.ruleOffsets ruleDstoff = ⟨zone.std, ruleDstoff⟩ := by
    unfold TzFile.ruleOffsets
    rw [standard some_, ← types, standardOffset_eq, if_neg (by simpa using some_)]
    · intro type member
      obtain ⟨transition, used, rfl⟩ := mem_map.mp (mem_reverse.mp member)
      exact offsets _ (typed transition used)
    · exact ⟨plain.2, mem_reverse.mpr (mem_map_of_mem plainUsed), plainKind⟩
  have several : ¬ file.types.length < 2 := by
    intro few
    have first := typed plain plainUsed
    have second := typed summer summerUsed
    match file.types, few, first, second with
    | [], _, first, _ => cases first
    | [type], _, first, second =>
      rw [mem_singleton.mp first, ← mem_singleton.mp second, summerKind] at plainKind
      cases plainKind
  unfold tzfileDefault
  dsimp only
  rw [accepted]
  dsimp only
  rw [if_neg several, rule, ← @moveTransitions_iff zone user ⟨zone.std, ruleDstoff⟩ rfl false _
    (by rwa [times])]
  constructor
  · rintro ⟨moved, run, kept⟩
    obtain ⟨transitions, found, same⟩ := Option.bind_eq_some_iff.mp run
    cases same
    exact ⟨transitions, found, kept⟩
  · rintro ⟨transitions, run, kept⟩
    exact ⟨_, by rw [run]; rfl, kept⟩

/-- Two transitions, to daylight saving time and back. -/
def easternFile : List UInt8 :=
  [84, 90, 105, 102] ++ List.replicate 28 0 ++ [0, 0, 0, 2, 0, 0, 0, 2, 0, 0, 0, 8]
    ++ [0, 0, 3, 232, 0, 0, 7, 208] ++ [1, 0]
    ++ [255, 255, 185, 176, 0, 0, 255, 255, 199, 192, 1, 4] ++ [69, 83, 84, 0, 69, 68, 84, 0]

def easternOffsets : ZoneOffsets := ⟨-18000, -14400⟩

theorem easternFile_read
    : ∃ file, tzfileRead utcSurroundings easternFile
        (.ofNat ([69, 83, 84] ++ 0 :: [69, 68, 84] ++ [0]).length) = some file
      ∧ file.types = [⟨-18000, false, 0, false, false⟩, ⟨-14400, true, 4, false, false⟩]
      ∧ file.used utcSurroundings.noType
        = [(1000, ⟨-14400, true, 4, false, false⟩), (2000, ⟨-18000, false, 0, false, false⟩)] := by
  have tables : (tzfileRead utcSurroundings easternFile
      (.ofNat ([69, 83, 84] ++ 0 :: [69, 68, 84] ++ [0]).length)).map (fun file =>
        (file.types, file.used utcSurroundings.noType))
      = some ([⟨-18000, false, 0, false, false⟩, ⟨-14400, true, 4, false, false⟩],
        [(1000, ⟨-14400, true, 4, false, false⟩), (2000, ⟨-18000, false, 0, false, false⟩)]) := by
    decide +kernel
  obtain ⟨file, read, same⟩ := Option.map_eq_some_iff.mp tables
  exact ⟨file, read, Prod.mk.inj same⟩

/-- The transitions of the file stay where they are if the static variable has its offset. -/
theorem tzfileDefault_keeps_eastern
    : ∃ file moved : TzFile, tzfileDefault utcSurroundings easternFile (-14400) [69, 83, 84] [69, 68, 84]
          easternOffsets 0 = some (some moved)
        ∧ KeepsReadings easternOffsets easternOffsets false (file.used utcSurroundings.noType)
          moved.transitions := by
  obtain ⟨file, accepted, types, used⟩ := easternFile_read
  refine ⟨file, (@tzfileDefault_keeps_iff utcSurroundings easternFile [69, 83, 84] [69, 68, 84] file
    easternOffsets accepted ?_ ?_ (-14400) easternOffsets 0).mpr ?_⟩
  · unfold TzFile.HasOffsets
    rw [types]
    decide
  · rw [used]
    decide
  · rw [used]
    exact ⟨rfl, ⟨rfl, rfl⟩, trivial⟩

/-- The static variable is 0 at first: the second transition moves by four hours. -/
theorem not_tzfileDefault_keeps
    : ∃ file moved, tzfileRead utcSurroundings easternFile 8 = some file
      ∧ file.HasOffsets easternOffsets
      ∧ tzfileDefault utcSurroundings easternFile 0 [69, 83, 84] [69, 68, 84] easternOffsets 0
        = some (some moved)
      ∧ file.used utcSurroundings.noType
        = [(1000, ⟨-14400, true, 4, false, false⟩), (2000, ⟨-18000, false, 0, false, false⟩)]
      ∧ moved.transitions = [1000, -12400]
      ∧ ¬ KeepsReadings easternOffsets easternOffsets false (file.used utcSurroundings.noType)
          moved.transitions := by
  obtain ⟨file, accepted, types, used⟩ := easternFile_read
  have run : (tzfileDefault utcSurroundings easternFile 0 [69, 83, 84] [69, 68, 84]
      easternOffsets 0).map (Option.map TzFile.transitions) = some (some [1000, -12400]) := by
    decide +kernel
  obtain ⟨_ | moved, found, same⟩ := Option.map_eq_some_iff.mp run
  · cases same
  · have transitions := Option.some.inj same
    refine ⟨file, moved, accepted, ?_, found, used, transitions, ?_⟩
    · unfold TzFile.HasOffsets
      rw [types]
      decide
    · rw [used, transitions]
      intro keeps
      have second : (-12400 : Int) + -14400 = 2000 + -14400 := keeps.2.1
      cases second

end Nglibc.Time
