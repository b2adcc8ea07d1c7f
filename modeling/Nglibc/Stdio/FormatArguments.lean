import Nglibc.Stdio.FormatReading

/-! The second pass reads a conversion with the values of its width, its precision and its
argument as the format has them.
-/

namespace Nglibc.Stdio

variable {F : Type} {reading : TypeReading} {refs : List (Option Nat × ArgType)}
  {core : Core F} {ap ap' : List (Va F)}

/-- How the state of the second pass stands to the arguments of the format: those without
numbers are popped one after the other, those with numbers were popped before under the types
of `reading`.
-/
def Core.Holds (reading : TypeReading) (refs : List (Option Nat × ArgType)) (core : Core F)
    (ap : List (Va F))
    : Prop :=
  ((∀ r ∈ refs, r.1 = none) ∧ core.l10n = false ∧ core.ap = ap)
    ∨ ∀ r ∈ refs, ∃ k, r.1 = some k ∧ OneDigit k
      ∧ core.nlArg k = (popArg (reading k r.2) (ap.drop (k - 1))).map Prod.fst

variable {c : Conversion} {type : ArgType}

section

variable (holds : core.Holds reading refs ap)
include holds

theorem Core.Holds.unnumbered (member : (none, type) ∈ refs)
    : core.l10n = false ∧ core.ap = ap := by
  rcases holds with ⟨-, same⟩ | numbered
  · exact same
  · obtain ⟨k, impossible, -⟩ := numbered _ member
    cases impossible

theorem Core.Holds.number {k : Nat} (member : (some k, type) ∈ refs)
    : OneDigit k ∧ core.nlArg k = (popArg (reading k type) (ap.drop (k - 1))).map Prod.fst := by
  rcases holds with ⟨none, -⟩ | numbered
  · cases none _ member
  · obtain ⟨k', same, rest⟩ := numbered _ member
    cases same
    exact rest

/-- Popping the next argument of a format without numbers. -/
theorem Core.Holds.pop (member : (none, type) ∈ refs)
    : Core.Holds reading refs { core with ap := ap' } ap' := by
  rcases holds with ⟨none, unnumbered, -⟩ | numbered
  · exact .inl ⟨none, unnumbered, rfl⟩
  · obtain ⟨k, impossible, -⟩ := numbered _ member
    cases impossible

theorem Core.Holds.mono {part : List (Option Nat × ArgType)} (sub : ∀ r ∈ part, r ∈ refs)
    : core.Holds reading part ap := by
  rcases holds with ⟨none, rest⟩ | numbered
  · exact .inl ⟨fun r member => none r (sub r member), rest⟩
  · exact .inr (fun r member => numbered r (sub r member))

/-- Noting that arguments have numbers. -/
theorem Core.Holds.noted {k : Nat} (member : (some k, type) ∈ refs)
    : Core.Holds reading refs { core with l10n := true } ap := by
  rcases holds with ⟨none, -⟩ | numbered
  · cases none _ member
  · exact .inr numbered

end

theorem negateWidth_small {fl : Flags} {w : Int} (small : (w.natAbs : Int) ≤ intMax)
    : negateWidth fl w = .ok ({ fl with left := fl.left || decide (w < 0) }, w.natAbs) := by
  unfold negateWidth
  by_cases negative : w < 0
  · rw [if_pos negative, if_neg (by omega)]
    have same : -w = (w.natAbs : Int) := by omega
    simp [negative, same]
  · rw [if_neg negative]
    have same : w = (w.natAbs : Int) := by omega
    simp only [negative, decide_false, Bool.or_false]
    rw [← same]

theorem negateWidth_large {fl : Flags} {w : Int} (small : w ≤ intMax)
    (large : intMax < (w.natAbs : Int))
    : negateWidth fl w = .error .undefined := by
  unfold negateWidth
  rw [if_pos (by unfold intMax at *; omega), if_pos (by omega)]

theorem toInt_le_intMax (n : BitVec 32) : n.toInt ≤ intMax := by
  have bound := BitVec.toInt_lt (x := n)
  unfold intMax
  omega

/-- The next argument as a width or a precision. -/
theorem Core.Holds.star (holds : core.Holds reading refs ap)
    (part : ∀ r ∈ Amount.next.references, r ∈ refs) {v : Option Int}
    (value : Amount.next.value reading ap = some (v, ap'))
    : ∃ n : BitVec 32, v = some n.toInt ∧ core.l10n = false
      ∧ core.star true = .ok (n.toInt, { core with ap := ap' })
      ∧ Core.Holds reading refs { core with ap := ap' } ap' := by
  have member := part _ List.mem_cons_self
  obtain ⟨unnumbered, same⟩ := holds.unnumbered member
  match ap, value with
  | .int n :: left, value =>
    obtain ⟨rfl, rfl⟩ : some n.toInt = v ∧ left = ap' := by simpa [Amount.value] using value
    refine ⟨n, rfl, unnumbered, ?_, holds.pop member⟩
    unfold Core.star
    rw [if_pos rfl, same]

/-- An argument with a number as a width or a precision. -/
theorem Core.Holds.starAt (holds : core.Holds reading refs ap) {k : Nat}
    (part : ∀ r ∈ (Amount.numbered k).references, r ∈ refs) {v : Option Int}
    (value : (Amount.numbered k).value reading ap = some (v, ap'))
    : ∃ n : BitVec 32, v = some n.toInt ∧ ap' = ap ∧ OneDigit k
      ∧ Core.Holds reading refs { core with l10n := true } ap
      ∧ core.starAt true k = .ok (n.toInt, core) := by
  have member := part _ List.mem_cons_self
  obtain ⟨one, arg⟩ := holds.number member
  rw [Amount.value] at value
  match popped : popArg (reading k .int) (ap.drop (k - 1)), value with
  | some (.i n, left), value =>
    rw [popped] at arg
    obtain ⟨rfl, rfl⟩ : some (n.setWidth 32).toInt = v ∧ ap = ap' := by simpa using value
    refine ⟨n.setWidth 32, rfl, rfl, one, holds.noted member, ?_⟩
    unfold Core.starAt
    rw [arg]
    rfl

def Amount.tooLarge : Amount → Fault
  | .digits _ => .errno .eoverflow
  | _ => .undefined

/-- The width of a conversion. -/
theorem readWidth_value (isWidth : c.width.IsWidth) (holds : core.Holds reading refs ap)
    (part : ∀ r ∈ c.width.references, r ∈ refs) {w : Option Int}
    (value : c.width.value reading ap = some (w, ap')) (fl : Flags) (rest : List Nat)
    : ∃ core' : Core F, core'.Holds reading refs ap' ∧ (((w.getD 0).natAbs : Int) ≤ intMax →
        readWidth true fl (c.widthOn rest) core
          = .ok ({ fl with left := fl.left || decide (w.getD 0 < 0) }, (w.getD 0).natAbs,
            c.precisionOn rest, core'))
      ∧ (intMax < ((w.getD 0).natAbs : Int) →
        readWidth true fl (c.widthOn rest) core = .error c.width.tooLarge) := by
  cases width : c.width with
  | none =>
    rw [width] at value
    obtain ⟨rfl, rfl⟩ : none = w ∧ ap = ap' := by simpa [Amount.value] using value
    refine ⟨core, holds, ?_, ?_⟩
    · intro small
      rw [readWidth_none width]
      simp
    · intro large
      exact absurd large (by decide)
  | digits ds =>
    rw [width] at value
    obtain ⟨rfl, rfl⟩ : some (ofDigits ds : Int) = w ∧ ap = ap' := by
      simpa [Amount.value] using value
    rw [Option.getD_some, Int.natAbs_natCast]
    refine ⟨core, holds, ?_, ?_⟩
    · intro small
      rw [readWidth_digits width isWidth, if_pos small]
      simp [show ¬ ((ofDigits ds : Int) < 0) by omega]
    · intro large
      rw [readWidth_digits width isWidth, if_neg (by omega)]
      rfl
  | next =>
    rw [width] at value part
    obtain ⟨n, rfl, unnumbered, star, holds'⟩ := holds.star part value
    rw [readWidth_next width true fl rest unnumbered, star, Option.getD_some]
    refine ⟨_, holds', ?_, ?_⟩
    · intro small
      simp only [bind, Except.bind, negateWidth_small small]
      rfl
    · intro large
      simp only [bind, Except.bind, negateWidth_large (toInt_le_intMax n) large]
      rfl
  | numbered k =>
    rw [width] at value part
    obtain ⟨n, rfl, rfl, one, holds', -⟩ := holds.starAt part value
    obtain ⟨n', same, -, -, -, star⟩ := holds'.starAt part value
    rw [← Option.some.inj same] at star
    rw [readWidth_numbered width one, star, Option.getD_some]
    refine ⟨_, holds', ?_, ?_⟩
    · intro small
      simp only [bind, Except.bind, negateWidth_small small]
      rfl
    · intro large
      simp only [bind, Except.bind, negateWidth_large (toInt_le_intMax n) large]
      rfl

/-- A precision as an `int`: none is -1, and so is one that does not fit. -/
def precisionInt : Option Int → Int
  | none => -1
  | some p => if p ≤ intMax then p else -1

def precisionCounts : Option Int → Bool
  | none => false
  | some p => decide (p ≥ 0)

theorem precisionInt_toInt (n : BitVec 32) : precisionInt (some n.toInt) = n.toInt := by
  simp [precisionInt, toInt_le_intMax n]

/-- The precision of a conversion. -/
theorem readPrecision_value (isPrecision : c.prec.IsPrecision) (holds : core.Holds reading refs ap)
    (part : ∀ r ∈ c.prec.references, r ∈ refs) {p : Option Int}
    (value : c.prec.value reading ap = some (p, ap')) (rest : List Nat)
    : ∃ core' : Core F, core'.Holds reading refs ap' ∧ readPrecision true (c.precisionOn rest) core
        = .ok (precisionInt p, precisionCounts p, c.specifierUnits rest, core') := by
  cases prec : c.prec with
  | none =>
    rw [prec] at value
    obtain ⟨rfl, rfl⟩ : none = p ∧ ap = ap' := by simpa [Amount.value] using value
    exact ⟨core, holds, readPrecision_none prec true rest core⟩
  | digits ds =>
    rw [prec] at value
    obtain ⟨rfl, rfl⟩ : some (ofDigits ds : Int) = p ∧ ap = ap' := by
      simpa [Amount.value] using value
    refine ⟨core, holds, ?_⟩
    rw [readPrecision_digits prec isPrecision]
    simp [precisionInt, precisionCounts, clampInt]
  | next =>
    rw [prec] at value part
    obtain ⟨n, rfl, unnumbered, star, holds'⟩ := holds.star part value
    refine ⟨_, holds', ?_⟩
    rw [readPrecision_next prec true rest unnumbered, star, precisionInt_toInt]
    rfl
  | numbered k =>
    rw [prec] at value part
    obtain ⟨n, rfl, rfl, one, -, star⟩ := holds.starAt part value
    refine ⟨core, holds, ?_⟩
    rw [readPrecision_numbered prec one, star, precisionInt_toInt]
    rfl

def Conversion.directive (c : Conversion) (w : Int) (p : Option Int) : Directive where
  argpos := c.pos
  fl := c.flagSet (w < 0)
  w := w.natAbs
  p := precisionInt p
  xp := precisionCounts p
  ps := c.modifier.pre
  st := (argType c.modifier c.conv).getD .noarg
  t := c.conv.letter

theorem units_append (c : Conversion) (rest : List Nat)
    : c.units ++ rest = positionUnits c.pos ++ c.flagsOn rest := by
  simp [Conversion.units, Conversion.flagsOn, Conversion.widthOn, Conversion.precisionOn,
    Conversion.specifierUnits]

private theorem readPosition_units (wf : c.WellFormed) (holds : core.Holds reading refs ap)
    (part : ∀ r ∈ c.argReferences, r ∈ refs) (rest : List Nat)
    : ∃ core' : Core F, core'.Holds reading refs ap
      ∧ readPosition (c.units ++ rest) core = (c.pos, c.flagsOn rest, core') := by
  rw [units_append]
  cases pos : c.pos with
  | none => exact ⟨core, holds, readPosition_flagsOn wf.width rest core⟩
  | some k =>
    have member : ∃ type, (some k, type) ∈ refs := by
      unfold Conversion.argReferences at part
      have legal := wf.legal
      have unnumbered := wf.unnumbered
      rw [pos] at part unnumbered
      cases type : argType c.modifier c.conv with
      | none => exact absurd type legal
      | some type' =>
        rw [type] at part unnumbered
        cases type' with
        | noarg => cases unnumbered rfl
        | _ => exact ⟨_, part _ List.mem_cons_self⟩
    obtain ⟨type, member⟩ := member
    obtain ⟨one, -⟩ := holds.number member
    refine ⟨_, holds.noted member, ?_⟩
    rw [positionUnits, List.append_assoc]
    exact readPosition_number one (c.flagsOn rest) core

theorem fetch_arg {d : Directive} (takes : d.st ≠ .noarg)
    : core.fetch d = match d.argpos with
      | some k =>
        match core.nlArg k with
        | some arg => .ok (some arg, core)
        | none => .error .undefined
      | none =>
        match popArg d.st core.ap with
        | some (arg, ap) => .ok (some arg, { core with ap := ap })
        | none => .error .undefined := by
  unfold Core.fetch
  cases d.argpos <;> cases type : d.st <;> first | rfl | exact absurd type takes

theorem argument_arg (legal : argType c.modifier c.conv = some type) (takes : type ≠ .noarg)
    : c.argument reading ap = match c.pos with
      | none => (popArg type ap).map (fun (arg, ap) => (some arg, ap))
      | some k =>
        (popArg (reading k type) (ap.drop (k - 1))).map (fun (arg, _) => (some arg, ap)) := by
  unfold Conversion.argument
  rw [legal]
  cases c.pos <;> cases type <;> first | rfl | exact absurd rfl takes

theorem argReferences_arg (legal : argType c.modifier c.conv = some type) (takes : type ≠ .noarg)
    : c.argReferences = [(c.pos, type)] := by
  unfold Conversion.argReferences
  rw [legal]
  cases type <;> first | rfl | exact absurd rfl takes

/-- The argument of a conversion. -/
theorem fetch_argument (wf : c.WellFormed) (holds : core.Holds reading refs ap)
    (part : ∀ r ∈ c.argReferences, r ∈ refs) {arg : Option (Arg F)}
    (argument : c.argument reading ap = some (arg, ap')) (w : Int) (p : Option Int)
    : ∃ core' : Core F, core.fetch (c.directive w p) = .ok (arg, core')
      ∧ core'.Holds reading refs ap' := by
  obtain ⟨type, legal⟩ := Option.ne_none_iff_exists'.mp wf.legal
  have st : (c.directive w p).st = type := by simp [Conversion.directive, legal]
  have argpos : (c.directive w p).argpos = c.pos := rfl
  by_cases takes : type = .noarg
  · subst takes
    have pos := wf.unnumbered legal
    unfold Conversion.argument at argument
    rw [legal] at argument
    obtain ⟨rfl, rfl⟩ : none = arg ∧ ap = ap' := by simpa using argument
    refine ⟨core, ?_, holds⟩
    unfold Core.fetch
    rw [st, argpos, pos]
  · rw [argReferences_arg legal takes] at part
    have member := part _ List.mem_cons_self
    rw [argument_arg legal takes] at argument
    rw [fetch_arg (by rw [st]; exact takes), argpos, st]
    cases pos : c.pos with
    | none =>
      rw [pos] at argument member
      obtain ⟨-, same⟩ := holds.unnumbered member
      obtain ⟨⟨value, left⟩, popped, equal⟩ := Option.map_eq_some_iff.mp argument
      obtain ⟨rfl, rfl⟩ : some value = arg ∧ left = ap' := by simpa using equal
      simp only [same, popped]
      exact ⟨_, rfl, holds.pop member⟩
    | some k =>
      rw [pos] at argument member
      obtain ⟨-, stored⟩ := holds.number member
      obtain ⟨⟨value, left⟩, popped, equal⟩ := Option.map_eq_some_iff.mp argument
      obtain ⟨rfl, rfl⟩ : some value = arg ∧ ap = ap' := by simpa using equal
      rw [popped] at stored
      simp only [stored]
      exact ⟨core, rfl, holds⟩

/-- A conversion is read back with its values. -/
theorem readDirective_units (wf : c.WellFormed) (holds : core.Holds reading refs ap)
    (part : ∀ r ∈ c.references, r ∈ refs) {w : Int} {p : Option Int} {arg : Option (Arg F)}
    (field : c.field reading ap = some (.conv c w p arg, ap')) (rest : List Nat)
    : ((w.natAbs : Int) ≤ intMax → ∃ core' core'' : Core F,
        readDirective true (c.units ++ rest) core = .ok (c.directive w p, rest, core')
        ∧ core'.fetch (c.directive w p) = .ok (arg, core'')
        ∧ core''.Holds reading refs ap')
      ∧ (intMax < (w.natAbs : Int) →
        readDirective true (c.units ++ rest) core = .error c.width.tooLarge) := by
  have partWidth : ∀ r ∈ c.width.references, r ∈ refs := fun r member =>
    part r (List.mem_append_left _ (List.mem_append_left _ member))
  have partPrec : ∀ r ∈ c.prec.references, r ∈ refs := fun r member =>
    part r (List.mem_append_left _ (List.mem_append_right _ member))
  have partArg : ∀ r ∈ c.argReferences, r ∈ refs := fun r member =>
    part r (List.mem_append_right _ member)
  obtain ⟨type, legal⟩ := Option.ne_none_iff_exists'.mp wf.legal
  obtain ⟨w', ap1, valueWidth, p', ap2, valuePrec, arg', argument, same⟩ :
      ∃ w' ap1, c.width.value reading ap = some (w', ap1) ∧ ∃ p' ap2,
        c.prec.value reading ap1 = some (p', ap2) ∧ ∃ arg',
        c.argument reading ap2 = some (arg', ap')
        ∧ w'.getD 0 = w ∧ p' = p ∧ arg' = arg := by
    simp only [Conversion.field, bind, Option.bind_eq_some_iff, pure, Option.some.injEq,
      Prod.mk.injEq, Prod.exists, Field.conv.injEq, true_and] at field
    obtain ⟨w', ap1, valueWidth, p', ap2, valuePrec, arg', ap3, argument, same, rfl⟩ := field
    exact ⟨w', ap1, valueWidth, p', ap2, valuePrec, arg', argument, same⟩
  obtain ⟨rfl, rfl, rfl⟩ := same
  obtain ⟨core1, holds1, position⟩ := readPosition_units wf holds partArg rest
  obtain ⟨core2, holds2, width, wide⟩ :=
    readWidth_value wf.width holds1 partWidth valueWidth (c.flagSet false) rest
  obtain ⟨core3, holds3, precision⟩ := readPrecision_value wf.prec holds2 partPrec valuePrec rest
  have specifier := readSpecifier_units legal rest
  constructor
  · intro small
    obtain ⟨core4, fetched, holds4⟩ := fetch_argument wf holds3 partArg argument (w'.getD 0) p'
    refine ⟨core3, core4, ?_, fetched, holds4⟩
    unfold readDirective
    rw [position]
    simp only [readFlags_flagsOn wf.width, width small, bind, Except.bind, precision]
    unfold Conversion.specifierUnits
    rw [specifier]
    simp [Conversion.directive, Conversion.flagSet, legal]
    rfl
  · intro large
    unfold readDirective
    rw [position]
    simp only [readFlags_flagsOn wf.width, wide large]
    rfl

end Nglibc.Stdio
