import Nglibc.Stdio.FormatLoop

/-! The first pass of `printf_core`: it notes the types of the arguments with numbers and pops
them in order. A number of more than one digit is not understood.
-/

namespace Nglibc.Stdio

open List

variable {F : Type} {refs : List (Option Nat × ArgType)} {core : Core F}

/-- The types of arguments with numbers after some references to them. -/
def noteTypes (refs : List (Option Nat × ArgType)) (types : Nat → Option ArgType)
    : Nat → Option ArgType :=
  fun i => refs.foldl (fun last r => if r.1 = some i then some r.2 else last) (types i)

theorem noteTypes_append (more : List (Option Nat × ArgType)) (types : Nat → Option ArgType)
    : noteTypes (refs ++ more) types = noteTypes more (noteTypes refs types) := by
  funext i
  unfold noteTypes
  rw [foldl_append]

theorem noteTypes_number (k : Nat) (type : ArgType) (types : Nat → Option ArgType)
    : noteTypes [(some k, type)] types = fun i => if i = k then some type else types i := by
  funext i
  simp [noteTypes, eq_comm]

variable {c : Conversion} {k : Nat} {type : ArgType}

/-- A number without references keeps its type. By induction on the references. -/
theorem noteTypes_unused (unused : ∀ r ∈ refs, r.1 ≠ some k) (types : Nat → Option ArgType)
    : noteTypes refs types k = types k := by
  unfold noteTypes
  induction refs with
  | nil => rfl
  | cons r refs ih =>
    rw [foldl_cons, if_neg (unused r mem_cons_self)]
    exact ih (fun r member => unused r (mem_cons_of_mem _ member))

/-- Without numbers nothing is noted. -/
theorem noteTypes_unnumbered (none : ∀ r ∈ refs, r.1 = none) (types : Nat → Option ArgType)
    : noteTypes refs types = types := by
  funext k
  refine noteTypes_unused (fun r member => ?_) types
  rw [none r member]
  exact fun impossible => nomatch impossible

/-- A number all of whose references have one type. By induction on the references. -/
theorem noteTypes_used (typed : ∀ r ∈ refs, r.1 = some k → r.2 = type) (used : ∃ r ∈ refs, r.1 = some k)
    (types : Nat → Option ArgType)
    : noteTypes refs types k = some type := by
  induction refs generalizing types with
  | nil =>
    obtain ⟨r, member, -⟩ := used
    cases member
  | cons r refs ih =>
    rw [← singleton_append, noteTypes_append]
    by_cases later : ∃ r ∈ refs, r.1 = some k
    · exact ih (fun r member => typed r (mem_cons_of_mem _ member)) later _
    · have first : r.1 = some k := by
        obtain ⟨q, member, number⟩ := used
        rcases mem_cons.mp member with rfl | member
        · exact number
        · exact absurd ⟨q, member, number⟩ later
      have unused : ∀ q ∈ refs, q.1 ≠ some k := fun q member number =>
        later ⟨q, member, number⟩
      rw [noteTypes_unused unused]
      simp [noteTypes, first, typed r mem_cons_self first]

def Amount.isNumbered : Amount → Bool
  | .numbered _ => true
  | _ => false

/-- Whether a conversion shows that the arguments have numbers; a precision does not. -/
def Conversion.announces (c : Conversion) : Bool := c.pos.isSome || c.width.isNumbered

/-- The state after the references of a width or a precision. -/
def Core.note (core : Core F) (announced : Bool) (refs : List (Option Nat × ArgType)) : Core F :=
  { core with l10n := core.l10n || announced, nlType := noteTypes refs core.nlType }

theorem Core.note_note (a b : Bool) (more : List (Option Nat × ArgType))
    : (core.note a refs).note b more = core.note (a || b) (refs ++ more) := by
  unfold Core.note
  rw [noteTypes_append, Bool.or_assoc]

theorem Core.note_unnumbered (none : ∀ r ∈ refs, r.1 = none) : core.note false refs = core := by
  unfold Core.note
  rw [Bool.or_false, noteTypes_unnumbered none]

theorem Core.note_nil : core.note false [] = core := Core.note_unnumbered (by simp)

theorem Core.note_number (k : Nat) (type : ArgType)
    : core.note false [(some k, type)] = core.setType k type := by
  unfold Core.note Core.setType
  rw [noteTypes_number, Bool.or_false]

/-- Whether the references can be read while `l10n` has a value: none of them has a number, or
all of them have numbers of one digit.
-/
def Readable (l10n : Bool) (refs : List (Option Nat × ArgType)) : Prop :=
  (∀ r ∈ refs, r.1 = none) ∧ l10n = false ∨ ∀ r ∈ refs, ∃ k, r.1 = some k ∧ OneDigit k

/-- Announcing numbers does not get in the way if there are any. -/
theorem Readable.announced {l10n : Bool} (readable : Readable l10n refs) (member : (some k, type) ∈ refs)
    : OneDigit k ∧ Readable true refs := by
  rcases readable with ⟨none, -⟩ | numbered
  · cases none _ member
  · obtain ⟨k', same, one⟩ := numbered _ member
    cases same
    exact ⟨one, .inr numbered⟩

theorem Readable.unset {l10n : Bool} (readable : Readable l10n refs) (member : (none, type) ∈ refs)
    : l10n = false := by
  rcases readable with ⟨-, unset⟩ | numbered
  · exact unset
  · obtain ⟨k, impossible, -⟩ := numbered _ member
    cases impossible

/-- The first pass notes the references of a width and reads no argument. -/
theorem readWidth_noted (isWidth : c.width.IsWidth) (fits : c.width.Fits)
    (readable : Readable core.l10n refs) (part : ∀ r ∈ c.width.references, r ∈ refs) (fl : Flags)
    (rest : List Nat)
    : Readable (core.note c.width.isNumbered c.width.references).l10n refs
      ∧ ∃ w, readWidth false fl (c.widthOn rest) core = .ok (fl, w, c.precisionOn rest,
          core.note c.width.isNumbered c.width.references) := by
  cases width : c.width with
  | none =>
    refine ⟨?_, 0, ?_⟩
    · simpa [Core.note, Amount.isNumbered] using readable
    · rw [readWidth_none width]
      exact congrArg (fun core => Except.ok (fl, 0, _, core)) Core.note_nil.symm
  | digits ds =>
    rw [width] at fits
    refine ⟨?_, ofDigits ds, ?_⟩
    · simpa [Core.note, Amount.isNumbered] using readable
    · rw [readWidth_digits width isWidth, if_pos (show (ofDigits ds : Int) ≤ intMax from fits)]
      exact congrArg (fun core => Except.ok (fl, _, _, core)) Core.note_nil.symm
  | next =>
    rw [width] at part
    have unset := readable.unset (part _ mem_cons_self)
    refine ⟨?_, 0, ?_⟩
    · simpa [Core.note, Amount.isNumbered] using readable
    · have same : core.note Amount.next.isNumbered Amount.next.references = core :=
        Core.note_unnumbered (by simp [Amount.references])
      rw [readWidth_next width false fl rest unset, same]
      rfl
  | numbered k =>
    rw [width] at part
    obtain ⟨one, announced⟩ := readable.announced (part _ mem_cons_self)
    refine ⟨?_, 0, ?_⟩
    · simpa [Core.note, Amount.isNumbered] using announced
    · have same : core.note (Amount.numbered k).isNumbered (Amount.numbered k).references
          = Core.setType { core with l10n := true } k .int := by
        rw [← Core.note_number]
        unfold Core.note
        rw [Amount.isNumbered, Bool.or_true]
        rfl
      rw [readWidth_numbered width one, same]
      rfl

private theorem readPrecision_noted (isPrecision : c.prec.IsPrecision) (readable : Readable core.l10n refs)
    (part : ∀ r ∈ c.prec.references, r ∈ refs) (rest : List Nat)
    : ∃ p xp, readPrecision false (c.precisionOn rest) core
      = .ok (p, xp, c.specifierUnits rest, core.note false c.prec.references) := by
  cases prec : c.prec with
  | none =>
    refine ⟨-1, false, ?_⟩
    rw [readPrecision_none prec]
    exact congrArg (fun core => Except.ok (-1, false, _, core)) Core.note_nil.symm
  | digits ds =>
    refine ⟨clampInt (ofDigits ds), true, ?_⟩
    rw [readPrecision_digits prec isPrecision]
    exact congrArg (fun core => Except.ok (_, true, _, core)) Core.note_nil.symm
  | next =>
    rw [prec] at part
    have unset := readable.unset (part _ mem_cons_self)
    refine ⟨0, true, ?_⟩
    have same : core.note false Amount.next.references = core :=
      Core.note_unnumbered (by simp [Amount.references])
    rw [readPrecision_next prec false rest unset, same]
    rfl
  | numbered k =>
    rw [prec] at part
    obtain ⟨one, -⟩ := readable.announced (part _ mem_cons_self)
    refine ⟨0, true, ?_⟩
    rw [readPrecision_numbered prec one, Amount.references, Core.note_number]
    rfl

theorem exists_argReference (wf : c.WellFormed) (pos : c.pos = some k)
    : ∃ type, c.argReferences = [(some k, type)] ∧ argType c.modifier c.conv = some type
      ∧ type ≠ .noarg := by
  obtain ⟨type, legal⟩ := Option.ne_none_iff_exists'.mp wf.legal
  have takes : type ≠ .noarg := by
    rintro rfl
    rw [wf.unnumbered legal] at pos
    cases pos
  refine ⟨type, ?_, legal, takes⟩
  rw [argReferences_arg legal takes, pos]

theorem readPosition_noted (wf : c.WellFormed) (readable : Readable core.l10n refs)
    (part : ∀ r ∈ c.argReferences, r ∈ refs) (rest : List Nat)
    : Readable (core.note c.pos.isSome []).l10n refs ∧ readPosition (c.units ++ rest) core
        = (c.pos, c.flagsOn rest, core.note c.pos.isSome []) := by
  rw [units_append]
  cases pos : c.pos with
  | none =>
    rw [Option.isSome_none, Core.note_nil]
    exact ⟨readable, readPosition_flagsOn wf.width rest core⟩
  | some k =>
    obtain ⟨type, ref, -⟩ := exists_argReference wf pos
    rw [ref] at part
    obtain ⟨one, announced⟩ := readable.announced (part _ mem_cons_self)
    have same : core.note true [] = { core with l10n := true } := by
      unfold Core.note
      rw [Bool.or_true]
      rfl
    rw [Option.isSome_some, same, positionUnits, append_assoc]
    exact ⟨announced, readPosition_number one (c.flagsOn rest) core⟩

/-- A conversion in the first pass. -/
theorem readDirective_noted (wf : c.WellFormed) (fits : c.width.Fits)
    (readable : Readable core.l10n c.references) (rest : List Nat)
    : ∃ d, readDirective false (c.units ++ rest) core
        = .ok (d, rest, core.note c.announces (c.width.references ++ c.prec.references))
      ∧ d.argpos = c.pos ∧ argType c.modifier c.conv = some d.st := by
  have partWidth : ∀ r ∈ c.width.references, r ∈ c.references := fun r member =>
    mem_append_left _ (mem_append_left _ member)
  have partPrec : ∀ r ∈ c.prec.references, r ∈ c.references := fun r member =>
    mem_append_left _ (mem_append_right _ member)
  have partArg : ∀ r ∈ c.argReferences, r ∈ c.references := fun r member =>
    mem_append_right _ member
  obtain ⟨type, legal⟩ := Option.ne_none_iff_exists'.mp wf.legal
  obtain ⟨readable1, position⟩ := readPosition_noted wf readable partArg rest
  obtain ⟨readable2, w, width⟩ :=
    readWidth_noted wf.width fits readable1 partWidth (c.flagSet false) rest
  obtain ⟨p, xp, precision⟩ := readPrecision_noted wf.prec readable2 partPrec rest
  have specifier := readSpecifier_units legal rest
  have same : ((core.note c.pos.isSome []).note c.width.isNumbered c.width.references).note
      false c.prec.references
      = core.note c.announces (c.width.references ++ c.prec.references) := by
    rw [Core.note_note, Core.note_note, Bool.or_false]
    rfl
  refine ⟨⟨c.pos, c.flagSet false, w, p, xp, c.modifier.pre, type, c.conv.letter⟩, ?_, rfl, legal⟩
  unfold readDirective
  rw [position, ← same]
  simp only [readFlags_flagsOn wf.width, width, bind, Except.bind, precision]
  unfold Conversion.specifierUnits
  rw [specifier]
  rfl

theorem states_bare_none : ∀ u < 65, states .bare (Char.ofNat u) = none := by decide

theorem readSpecifier_bad {s : List Nat} (bad : firstUnit s < 65)
    : readSpecifier .bare s = .error (.errno .einval) := by
  cases s with
  | nil => rfl
  | cons u rest =>
    rw [readSpecifier, states_bare_none u bad]

theorem readPrecision_absent {s : List Nat} (noDot : firstUnit s ≠ 46) (f : Bool)
    : readPrecision f s core = .ok (-1, false, s, core) := by
  have noDot' : s.getD 0 0 ≠ '.'.toNat := noDot
  unfold readPrecision
  rw [if_neg (fun h => noDot' h.1), if_neg noDot']

/-- The digits of a large number with what follows them. -/
theorem far_units (far : 10 ≤ k) (s : List Nat)
    : ∃ d e more, decimal k ++ '$'.toNat :: s = (d :: e :: more).map digitUnit ++ '$'.toNat :: s
      ∧ 0 < d ∧ ∀ x ∈ d :: e :: more, x < 10 := by
  obtain ⟨d, e, more, same, positive, small⟩ := decimal_digits far
  exact ⟨d, e, more, by rw [same], positive, small⟩

/-- A position of two digits is read as a width, with a `$` behind it. -/
theorem readDirective_farPosition (far : 10 ≤ k) (s : List Nat)
    : ∃ e, readDirective false (decimal k ++ '$'.toNat :: s) core = .error (.errno e) := by
  obtain ⟨d, e, more, same, positive, small⟩ := far_units far s
  rw [same]
  have noPosition : readPosition ((d :: e :: more).map digitUnit ++ '$'.toNat :: s) core
      = (none, (d :: e :: more).map digitUnit ++ '$'.toNat :: s, core) := by
    unfold readPosition
    rw [if_neg]
    rintro ⟨-, dollar⟩
    change 48 + e = 36 at dollar
    omega
  have noFlags : readFlags .none ((d :: e :: more).map digitUnit ++ '$'.toNat :: s)
      = (.none, (d :: e :: more).map digitUnit ++ '$'.toNat :: s) := by
    rw [map_cons, cons_append, readFlags, set_eq_none]
    rw [digitUnit_eq]
    omega
  have digits := getint_digits small (show NoDigit ('$'.toNat :: s) from rfl) (n := 0) (by decide)
  have noStar : ((d :: e :: more).map digitUnit ++ '$'.toNat :: s).getD 0 0 ≠ '*'.toNat := by
    change 48 + d ≠ 42
    omega
  unfold readDirective
  rw [noPosition]
  simp only [noFlags]
  unfold readWidth
  rw [if_neg noStar, show (0 : Int) = ((0 : Nat) : Int) from rfl, digits]
  dsimp only
  split
  · exact ⟨_, rfl⟩
  · refine ⟨.einval, ?_⟩
    simp only [bind, Except.bind, readPrecision_absent (show firstUnit ('$'.toNat :: s) ≠ 46 by
      rw [firstUnit_cons]; decide), readSpecifier_bad (show firstUnit ('$'.toNat :: s) < 65 by
      rw [firstUnit_cons]; decide)]

private theorem readWidth_far (width : c.width = .numbered k) (far : 10 ≤ k) (fl : Flags) (rest : List Nat)
    (core : Core F)
    : (∃ e, readWidth false fl (c.widthOn rest) core = .error (.errno e))
      ∨ ∃ w s, readWidth false fl (c.widthOn rest) core = .ok (fl, w, s, core)
        ∧ 47 < firstUnit s ∧ firstUnit s < 65 := by
  obtain ⟨d, e, more, same, positive, small⟩ := far_units far (c.precisionOn rest)
  have dSmall := small d mem_cons_self
  have written : c.widthOn rest
      = '*'.toNat :: ((d :: e :: more).map digitUnit ++ '$'.toNat :: c.precisionOn rest) := by
    rw [← same]
    unfold Conversion.widthOn
    rw [width, Amount.units, cons_append, append_assoc]
    rfl
  unfold readWidth
  rw [written, if_pos (by rfl), if_neg]
  · cases core.l10n with
    | true => exact .inl ⟨_, rfl⟩
    | false =>
      refine .inr ⟨0, _, rfl, ?_⟩
      change 47 < 48 + d ∧ 48 + d < 65
      omega
  · rintro ⟨-, dollar⟩
    change 48 + e = 36 at dollar
    omega

private theorem readPrecision_far (prec : c.prec = .numbered k) (far : 10 ≤ k) (rest : List Nat) (core : Core F)
    : (∃ e, readPrecision false (c.precisionOn rest) core = .error (.errno e))
      ∨ ∃ p xp s, readPrecision false (c.precisionOn rest) core = .ok (p, xp, s, core)
        ∧ firstUnit s < 65 := by
  obtain ⟨d, e, more, same, positive, small⟩ := far_units far (c.specifierUnits rest)
  have dSmall := small d mem_cons_self
  have written : c.precisionOn rest = '.'.toNat :: '*'.toNat
      :: ((d :: e :: more).map digitUnit ++ '$'.toNat :: c.specifierUnits rest) := by
    rw [← same, precisionOn_some (by rw [prec]; exact Amount.noConfusion), prec, Amount.units,
      cons_append, append_assoc]
    rfl
  unfold readPrecision
  rw [written, if_pos ⟨rfl, rfl⟩, if_neg]
  · cases core.l10n with
    | true => exact .inl ⟨_, rfl⟩
    | false =>
      refine .inr ⟨0, true, _, rfl, ?_⟩
      change 48 + d < 65
      omega
  · rintro ⟨-, dollar⟩
    change 48 + e = 36 at dollar
    omega

/-- References whose numbers all have one digit, or one of them that does not. -/
def Far (refs : List (Option Nat × ArgType)) : Prop := ∃ r ∈ refs, ∃ k, r.1 = some k ∧ 10 ≤ k

theorem Readable.of_near (l10n : Bool) (numbered : ∀ r ∈ refs, ∃ k, r.1 = some (k + 1))
    (near : ¬ Far refs)
    : Readable l10n refs := by
  refine .inr (fun r member => ?_)
  obtain ⟨k, number⟩ := numbered r member
  refine ⟨k + 1, number, by omega, ?_⟩
  by_contra large
  exact near ⟨r, member, k + 1, number, by omega⟩

theorem Amount.far_iff (amount : Amount)
    : Far amount.references ↔ ∃ k, amount = .numbered k ∧ 10 ≤ k := by
  cases amount <;> simp [Far, Amount.references]

/-- A conversion with a large number: the first one in it ends the reading. -/
theorem readDirective_far (wf : c.WellFormed) (fits : c.width.Fits)
    (numbered : ∀ r ∈ c.references, ∃ k, r.1 = some (k + 1)) (far : Far c.references) (rest : List Nat)
    (core : Core F)
    : ∃ e, readDirective false (c.units ++ rest) core = .error (.errno e) := by
  have numberedWidth : ∀ r ∈ c.width.references, ∃ k, r.1 = some (k + 1) := fun r member =>
    numbered r (mem_append_left _ (mem_append_left _ member))
  have numberedArg : ∀ r ∈ c.argReferences, ∃ k, r.1 = some (k + 1) := fun r member =>
    numbered r (mem_append_right _ member)
  by_cases farArg : Far c.argReferences
  · cases pos : c.pos with
    | none =>
      obtain ⟨r, member, k, number, -⟩ := farArg
      unfold Conversion.argReferences at member
      rw [pos] at member
      split at member
      · cases member
      · cases member
      · rw [mem_singleton.mp member] at number
        cases number
    | some k =>
      obtain ⟨type, ref, -⟩ := exists_argReference wf pos
      rw [ref] at farArg
      have large : 10 ≤ k := by simpa [Far] using farArg
      rw [units_append, pos, positionUnits, append_assoc]
      exact readDirective_farPosition large (c.flagsOn rest)
  obtain ⟨-, position⟩ := readPosition_noted wf
    (Readable.of_near core.l10n numberedArg farArg) (fun r member => member) rest
  generalize core.note c.pos.isSome [] = core1 at position
  unfold readDirective
  rw [position]
  simp only [readFlags_flagsOn wf.width]
  by_cases farWidth : Far c.width.references
  · obtain ⟨k, width, large⟩ := (Amount.far_iff c.width).mp farWidth
    rcases readWidth_far width large (c.flagSet false) rest core1
      with ⟨e, failed⟩ | ⟨w, s, read, low, high⟩
    · rw [failed]
      exact ⟨e, rfl⟩
    · refine ⟨.einval, ?_⟩
      rw [read]
      simp only [bind, Except.bind, readPrecision_absent (show firstUnit s ≠ 46 by omega),
        readSpecifier_bad high]
  obtain ⟨-, w, width⟩ := readWidth_noted wf.width fits
    (Readable.of_near core1.l10n numberedWidth farWidth) (fun r member => member)
    (c.flagSet false) rest
  generalize core1.note c.width.isNumbered c.width.references = core2 at width
  rw [width]
  have farPrec : Far c.prec.references := by
    obtain ⟨r, member, large⟩ := far
    rcases mem_append.mp member with member | member
    · rcases mem_append.mp member with member | member
      · exact absurd ⟨r, member, large⟩ farWidth
      · exact ⟨r, member, large⟩
    · exact absurd ⟨r, member, large⟩ farArg
  obtain ⟨k, prec, large⟩ := (Amount.far_iff c.prec).mp farPrec
  rcases readPrecision_far prec large rest core2
    with ⟨e, failed⟩ | ⟨p, xp, s, read, high⟩
  · refine ⟨e, ?_⟩
    simp only [bind, Except.bind, failed]
  · refine ⟨.einval, ?_⟩
    simp only [bind, Except.bind, read, readSpecifier_bad high]

/-- The number of units an item writes by itself. -/
def Item.size : Item → Nat
  | .conv _ => 0
  | _ => 1

def textSize (items : List Item) : Nat := (items.map Item.size).sum

theorem textSize_append (chunk rest : List Item)
    : textSize (chunk ++ rest) = textSize chunk + textSize rest := by
  rw [textSize, map_append, sum_append]
  rfl

theorem textSize_text {chunk : List Item} (text : ∀ item ∈ chunk, item.IsText)
    : textSize chunk = chunk.length := by
  induction chunk with
  | nil => rfl
  | cons item chunk ih =>
    have size : item.size = 1 := by
      have isText := text item mem_cons_self
      cases item with
      | conv c => exact isText.elim
      | _ => rfl
    rw [length_cons, ← ih (fun item member => text item (mem_cons_of_mem _ member)),
      textSize, map_cons, sum_cons, size, Nat.add_comm]
    rfl

variable {fuel : Nat} {cnt l : Int}

theorem scanLoop_text {chunk rest : List Item} (nonempty : chunk ≠ [])
    (read : readLiteral (itemUnits (chunk ++ rest)) = (chunk.map Item.textUnit, itemUnits rest))
    (room : cnt + l + chunk.length ≤ intMax)
    : scanLoop (fuel + 1) cnt l (itemUnits (chunk ++ rest)) core
      = scanLoop fuel (cnt + l) chunk.length (itemUnits rest) core := by
  have texts : chunk.map Item.textUnit ≠ [] := by simpa using nonempty
  rw [scanLoop, if_neg (by omega)]
  dsimp only
  rw [if_neg (itemUnits_ne_nil nonempty rest).1, read]
  rw [if_neg (by rw [length_map]; omega), if_pos texts, length_map]

def scanArgument (d : Directive) (next : Core F → Except Fault (Core F)) (core : Core F)
    : Except Fault (Core F) :=
  match d.st, d.argpos with
  | .noarg, some _ => .error (.errno .einval)
  | .noarg, none => next core
  | st, some k => next (core.setType k st)
  | _, none => .ok core

theorem scanArgument_arg {d : Directive} (takes : d.st ≠ .noarg)
    (next : Core F → Except Fault (Core F))
    : scanArgument d next core = match d.argpos with
      | some k => next (core.setType k d.st)
      | none => .ok core := by
  unfold scanArgument
  cases d.argpos <;> cases type : d.st <;> first | rfl | exact absurd type takes

theorem scanLoop_conv {rest : List Item}
    (read : readLiteral (itemUnits (.conv c :: rest)) = ([], itemUnits (.conv c :: rest)))
    (room : cnt + l ≤ intMax)
    : scanLoop (fuel + 1) cnt l (itemUnits (.conv c :: rest)) core = (do
        let (d, s, core) ← readDirective false (c.units ++ itemUnits rest) core
        scanArgument d (fun core => scanLoop fuel (cnt + l) 0 s core) core) := by
  have units : itemUnits (.conv c :: rest) = '%'.toNat :: (c.units ++ itemUnits rest) := rfl
  rw [scanLoop, if_neg (by omega)]
  dsimp only
  rw [if_neg (by rw [units]; exact cons_ne_nil _ _), read]
  rw [if_neg (by simp only [length_nil]; omega), if_neg (by simp), units,
    drop_one, tail_cons]
  rfl

def Core.finish (core : Core F) : Except Fault (Core F) :=
  if core.l10n then popNumbered argMax 1 core else .ok core

theorem scanLoop_nil (room : cnt + l ≤ intMax) : scanLoop (fuel + 1) cnt l [] core = core.finish := by
  rw [scanLoop, if_neg (by omega)]
  rfl

def Item.announces : Item → Bool
  | .conv c => c.announces
  | _ => false

/-- Every width in digits of a format is an `int`. -/
def WidthsFit (items : List Item) : Prop := ∀ c, .conv c ∈ items → c.width.Fits

theorem references_cons (item : Item) (rest : List Item)
    : references (item :: rest) = item.references ++ references rest := flatMap_cons

theorem references_text {chunk : List Item} (text : ∀ item ∈ chunk, item.IsText)
    (rest : List Item)
    : references (chunk ++ rest) = references rest
      ∧ (chunk ++ rest).any Item.announces = rest.any Item.announces := by
  induction chunk with
  | nil => exact ⟨rfl, rfl⟩
  | cons item chunk ih =>
    have isText := text item mem_cons_self
    obtain ⟨refs, announces⟩ := ih (fun item member => text item (mem_cons_of_mem _ member))
    rw [cons_append, references_cons, any_cons, refs, announces]
    cases item with
    | conv c => exact isText.elim
    | _ => exact ⟨rfl, rfl⟩

theorem WidthsFit.rest {chunk rest : List Item} (fits : WidthsFit (chunk ++ rest))
    : WidthsFit rest :=
  fun c member => fits c (mem_append_right _ member)

/-- The first pass, by its rounds. What it does depends on the references of the items only; a directive is
read, and the rest of the format is scanned where the references left allow it.
-/
theorem scanLoop_induction {Q : List (Option Nat × ArgType) → Prop}
    {R : Bool → List (Option Nat × ArgType) → Core F → Except Fault (Core F) → Prop}
    (nil : ∀ core, Q [] → R false [] core core.finish)
    (conv : ∀ (c : Conversion) (rest : List Item) (core : Core F)
      (next : List Nat → Core F → Except Fault (Core F)),
      c.WellFormed → c.width.Fits → Q (c.references ++ references rest) →
      (Q (references rest) → ∀ core',
        R (rest.any Item.announces) (references rest) core' (next (itemUnits rest) core')) →
      R (c.announces || rest.any Item.announces) (c.references ++ references rest) core (do
        let (d, s, core) ← readDirective false (c.units ++ itemUnits rest) core
        scanArgument d (next s) core))
    (items : List Item) (wf : ∀ item ∈ items, item.WellFormed)
    : WidthsFit items → Q (references items) →
      ∀ (fuel : Nat) (cnt l : Int) (core : Core F), (itemUnits items).length < fuel →
      cnt + l + textSize items ≤ intMax →
      R (items.any Item.announces) (references items) core
        (scanLoop fuel cnt l (itemUnits items) core) := by
  refine items_induction ?_ ?_ ?_ items wf
  · intro _ holds fuel cnt l core fuelled room
    obtain ⟨fuel, rfl⟩ : ∃ n, fuel = n + 1 := Nat.exists_eq_succ_of_ne_zero (by omega)
    have ends : scanLoop (fuel + 1) cnt l (itemUnits []) core = core.finish :=
      scanLoop_nil (by simpa [textSize] using room)
    rw [ends]
    exact nil core holds
  · intro chunk rest nonempty text split wf ih fits holds fuel cnt l core fuelled room
    obtain ⟨refs, announces⟩ := references_text text rest
    obtain ⟨-, shorter⟩ := itemUnits_ne_nil nonempty rest
    rw [textSize_append, textSize_text text] at room
    rw [refs] at holds
    obtain ⟨fuel, rfl⟩ : ∃ n, fuel = n + 1 := Nat.exists_eq_succ_of_ne_zero (by omega)
    rw [scanLoop_text nonempty (readLiteral_text split wf) (by omega), refs, announces]
    exact ih fits.rest holds fuel (cnt + l) chunk.length core (by omega) (by omega)
  · intro c rest wf ih fits holds fuel cnt l core fuelled room
    obtain ⟨-, shorter⟩ := itemUnits_ne_nil (cons_ne_nil (.conv c) []) rest
    obtain ⟨fuel, rfl⟩ : ∃ n, fuel = n + 1 := Nat.exists_eq_succ_of_ne_zero (by omega)
    have roomRest : cnt + l + 0 + textSize rest ≤ intMax := by
      rw [show textSize (.conv c :: rest) = textSize rest from Nat.zero_add _] at room
      omega
    rw [scanLoop_conv (readLiteral_conv wf) (by omega)]
    refine conv c rest core (scanLoop fuel (cnt + l) 0) (wf _ mem_cons_self)
      (fits c mem_cons_self) holds (fun holdsRest core' => ?_)
    exact ih (fun c member => fits c (mem_cons_of_mem _ member)) holdsRest fuel (cnt + l) 0 core'
      (by rw [singleton_append] at shorter; omega) roomRest

/-- The first pass over a format with numbers. -/
theorem scanLoop_numbered (items : List Item) (wf : ∀ item ∈ items, item.WellFormed)
    : WidthsFit items → (∀ r ∈ references items, ∃ k, r.1 = some k ∧ OneDigit k) →
      ∀ (fuel : Nat) (cnt l : Int) (core : Core F), (itemUnits items).length < fuel →
      cnt + l + textSize items ≤ intMax →
      scanLoop fuel cnt l (itemUnits items) core
        = (core.note (items.any Item.announces) (references items)).finish := by
  refine scanLoop_induction (Q := fun refs => ∀ r ∈ refs, ∃ k, r.1 = some k ∧ OneDigit k)
    (R := fun announces refs core out => out = (core.note announces refs).finish) ?_ ?_ items wf
  · intro core _
    rw [show core.note false [] = core from Core.note_nil]
  · intro c rest core next wfConv fits numbered ih
    have readable : Readable core.l10n c.references := .inr (fun r member =>
      numbered r (mem_append_left _ member))
    obtain ⟨d, directive, argpos, legal⟩ := readDirective_noted wfConv fits readable (itemUnits rest)
    have continues := ih (fun r member => numbered r (mem_append_right _ member))
    rw [directive]
    simp only [bind, Except.bind]
    by_cases takes : d.st = .noarg
    · have pos : d.argpos = none := by rw [argpos, wfConv.unnumbered (by rw [legal, takes])]
      have noReference : c.argReferences = [] := by
        unfold Conversion.argReferences
        rw [legal, takes]
      unfold scanArgument
      rw [takes, pos]
      dsimp only
      rw [continues, Core.note_note, Conversion.references, noReference, append_nil]
    · rw [scanArgument_arg takes, argpos]
      have reference := argReferences_arg legal takes
      cases pos : c.pos with
      | none =>
        rw [pos] at reference
        obtain ⟨k, impossible, -⟩ := numbered (none, d.st) (mem_append_left _
          (mem_append_right _ (by rw [reference]; exact mem_cons_self)))
        cases impossible
      | some k =>
        rw [pos] at reference
        dsimp only
        rw [continues, ← Core.note_number, Core.note_note, Core.note_note, Conversion.references,
          reference, Bool.false_or]
        simp only [append_assoc]

theorem popArg_tail {ap left : List (Va F)} {arg : Arg F} (popped : popArg type ap = some (arg, left))
    : left = ap.tail := by
  unfold popArg at popped
  split at popped <;> cases popped <;> rfl

/-- The arguments from number `i` to `m` are popped in order. By induction on the numbers left
in the table.
-/
theorem popNumbered_types {n i m : Nat} (table : i + n = argMax + 1) (last : m ≤ argMax)
    (low : 1 ≤ i)
    {types : Nat → ArgType} (noted : ∀ j, i ≤ j → j ≤ m → core.nlType j = some (types j))
    (beyond : ∀ j, m < j → core.nlType j = none) {ap : List (Va F)}
    (left : core.ap = ap.drop (i - 1))
    (popped : ∀ j, i ≤ j → j ≤ m → popArg (types j) (ap.drop (j - 1)) ≠ none)
    : ∃ core' : Core F, popNumbered n i core = .ok core' ∧ (i ≤ m + 1 → core'.ap = ap.drop m)
      ∧ (∀ j, i ≤ j → j ≤ m → core'.nlArg j = (popArg (types j) (ap.drop (j - 1))).map Prod.fst)
      ∧ ∀ j < i, core'.nlArg j = core.nlArg j := by
  induction n generalizing i core with
  | zero =>
    refine ⟨core, rfl, ?_, ?_, fun j _ => rfl⟩
    · intro inside
      rw [left, show i - 1 = m by omega]
    · intro j low' high
      omega
  | succ n ih =>
    by_cases inside : i ≤ m
    · obtain ⟨⟨arg, rest⟩, result⟩ :=
        Option.ne_none_iff_exists'.mp (popped i (Nat.le_refl i) inside)
      have tail := popArg_tail result
      rw [tail_drop] at tail
      rw [popNumbered, noted i (Nat.le_refl i) inside]
      dsimp only
      rw [left, result]
      obtain ⟨core', run, apAfter, args, before⟩ := @ih
        { core.setArg i arg with ap := rest } (i + 1) (by omega) (by omega)
        (fun j low high => noted j (by omega) high)
        beyond (by simp only [tail]; congr 1; omega)
        (fun j low high => popped j (by omega) high)
      refine ⟨core', run, fun _ => apAfter (by omega), ?_, ?_⟩
      · intro j low high
        by_cases first : j = i
        · rw [first, before i (by omega), result]
          simp [Core.setArg]
        · exact args j (by omega) high
      · intro j low
        rw [before j (by omega)]
        simp only [Core.setArg]
        rw [if_neg (by omega)]
    · rw [popNumbered, beyond i (by omega)]
      rw [if_pos]
      · refine ⟨core, rfl, ?_, ?_, fun j _ => rfl⟩
        · intro upper
          rw [left, show i - 1 = m by omega]
        · intro j low high
          omega
      · rw [all_eq_true]
        intro k _
        simp [beyond (i + k) (by omega)]

/-- A number that no reference has, below one that a reference has, ends the first pass. By
induction on the numbers left in the table.
-/
theorem popNumbered_gap {n i gap used : Nat} (table : i + n = argMax + 1) (low : i ≤ gap)
    (missing : core.nlType gap = none) (above : gap < used) (high : used ≤ argMax)
    (noted : core.nlType used ≠ none)
    (popped : ∀ j, i ≤ j → j < gap → ∀ type, core.nlType j = some type →
      popArg type (core.ap.drop (j - i)) ≠ none)
    : popNumbered n i core = .error (.errno .einval) := by
  induction n generalizing i core with
  | zero => omega
  | succ n ih =>
    rw [popNumbered]
    cases type : core.nlType i with
    | none =>
      rw [if_neg]
      intro all
      rw [all_eq_true] at all
      have unset := all (used - i) (mem_range.mpr (by omega))
      rw [show i + (used - i) = used by omega] at unset
      exact noted (by simpa using unset)
    | some type' =>
      have inside : i < gap := by
        rcases Nat.lt_or_ge i gap with inside | outside
        · exact inside
        · rw [show i = gap by omega, missing] at type
          cases type
      obtain ⟨⟨arg, rest⟩, result⟩ := Option.ne_none_iff_exists'.mp
        (popped i (Nat.le_refl i) inside type' type)
      rw [Nat.sub_self, drop_zero] at result
      dsimp only
      rw [result]
      refine @ih { core.setArg i arg with ap := rest } (i + 1) (by omega) (by omega) missing
        noted ?_
      intro j low' high' type noted'
      have before := popped j (by omega) high' type noted'
      rw [popArg_tail result, ← drop_one, drop_drop]
      rwa [show 1 + (j - (i + 1)) = j - i by omega]

/-- The first pass over a format without numbers ends at the first argument. -/
theorem scanLoop_unnumbered (items : List Item) (wf : ∀ item ∈ items, item.WellFormed)
    (fits : WidthsFit items) (unnumbered : ∀ r ∈ references items, r.1 = none) (fuel : Nat) (cnt l : Int)
    (core : Core F) (unset : core.l10n = false) (fuelled : (itemUnits items).length < fuel)
    (room : cnt + l + textSize items ≤ intMax)
    : scanLoop fuel cnt l (itemUnits items) core = .ok core := by
  refine scanLoop_induction (Q := fun refs => ∀ r ∈ refs, r.1 = none)
    (R := fun _ _ core out => core.l10n = false → out = .ok core) ?_ ?_ items wf fits unnumbered fuel cnt l
    core fuelled room unset
  · intro core _ unset
    rw [Core.finish, unset]
    rfl
  · intro c rest core next wfConv fits unnumbered ih unset
    have none : ∀ r ∈ c.references, r.1 = none := fun r member =>
      unnumbered r (mem_append_left _ member)
    obtain ⟨d, directive, argpos, legal⟩ := readDirective_noted wfConv fits (.inl ⟨none, unset⟩)
      (itemUnits rest)
    have pos : c.pos = .none := by
      by_contra numbered
      obtain ⟨k, pos⟩ := Option.ne_none_iff_exists'.mp numbered
      obtain ⟨type, ref, -⟩ := exists_argReference wfConv pos
      cases none (some k, type) (mem_append_right _ (by rw [ref]; exact mem_cons_self))
    have widths : c.width.isNumbered = false := by
      cases width : c.width with
      | numbered k =>
        cases none (some k, .int) (mem_append_left _ (mem_append_left _
          (by rw [width]; exact mem_cons_self)))
      | _ => rfl
    have same : core.note c.announces (c.width.references ++ c.prec.references) = core := by
      rw [Conversion.announces, pos, widths]
      exact Core.note_unnumbered (fun r member => none r (mem_append_left _ member))
    rw [directive, same]
    simp only [bind, Except.bind]
    by_cases takes : d.st = .noarg
    · unfold scanArgument
      rw [takes, argpos, pos]
      exact ih (fun r member => unnumbered r (mem_append_right _ member)) core unset
    · rw [scanArgument_arg takes, argpos, pos]

/-- The first pass fails at a number of more than one digit. -/
theorem scanLoop_far (items : List Item) (wf : ∀ item ∈ items, item.WellFormed)
    (fits : WidthsFit items) (numbered : ∀ r ∈ references items, ∃ k, r.1 = some (k + 1))
    (far : Far (references items))
    : ∀ (fuel : Nat) (cnt l : Int) (core : Core F), (itemUnits items).length < fuel →
      cnt + l + textSize items ≤ intMax →
      ∃ e, scanLoop fuel cnt l (itemUnits items) core = .error (.errno e) := by
  refine scanLoop_induction (Q := fun refs => (∀ r ∈ refs, ∃ k, r.1 = some (k + 1)) ∧ Far refs)
    (R := fun _ _ _ out => ∃ e, out = .error (.errno e)) ?_ ?_ items wf fits ⟨numbered, far⟩
  · rintro - ⟨-, r, member, -⟩
    cases member
  · rintro c rest core next wfConv fits ⟨numbered, far⟩ ih
    have numberedConv : ∀ r ∈ c.references, ∃ k, r.1 = some (k + 1) := fun r member =>
      numbered r (mem_append_left _ member)
    by_cases farConv : Far c.references
    · obtain ⟨e, failed⟩ := readDirective_far wfConv fits numberedConv farConv (itemUnits rest) core
      rw [failed]
      exact ⟨e, rfl⟩
    · have farRest : Far (references rest) := by
        obtain ⟨r, member, large⟩ := far
        rcases mem_append.mp member with member | member
        · exact absurd ⟨r, member, large⟩ farConv
        · exact ⟨r, member, large⟩
      have continues := ih ⟨fun r member => numbered r (mem_append_right _ member), farRest⟩
      obtain ⟨d, directive, argpos, legal⟩ := readDirective_noted wfConv fits
        (Readable.of_near core.l10n numberedConv farConv) (itemUnits rest)
      rw [directive]
      simp only [bind, Except.bind]
      by_cases takes : d.st = .noarg
      · unfold scanArgument
        rw [takes, argpos, wfConv.unnumbered (by rw [legal, takes])]
        exact continues _
      · rw [scanArgument_arg takes, argpos]
        cases pos : c.pos with
        | none =>
          have reference := argReferences_arg legal takes
          rw [pos] at reference
          obtain ⟨k, impossible⟩ := numberedConv (none, d.st)
            (mem_append_right _ (by rw [reference]; exact mem_cons_self))
          cases impossible
        | some k => exact continues _

end Nglibc.Stdio
