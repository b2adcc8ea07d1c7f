import Nglibc.Stdio.FormatScan

/-! A format whose arguments have numbers is printed as the format without numbers that takes
the arguments in the order of their use.
-/

namespace Nglibc.Stdio

open List

variable {F W σ : Type} {env : Env F} {sink : Sink σ} {s : σ} {fuel : Nat} {cnt l : Int}
  {core : Core F} {ap more : List (Va F)} {refs : List (Option Nat × ArgType)}

/-! The format without numbers -/

def Amount.unnumber : Amount → Amount
  | .numbered _ => .next
  | amount => amount

def Conversion.unnumber (c : Conversion) : Conversion :=
  { c with pos := none, width := c.width.unnumber, prec := c.prec.unnumber }

def Item.unnumber : Item → Item
  | .conv c => .conv c.unnumber
  | item => item

def usedArguments (refs : List (Option Nat × ArgType)) (ap : List (Va F)) : List (Va F) :=
  refs.filterMap (fun r => r.1.bind (fun k => ap[k - 1]?))

/-- Every reference has a number, whose argument has the type of the reference. -/
def Matches (refs : List (Option Nat × ArgType)) (ap : List (Va F)) : Prop :=
  ∀ r ∈ refs, ∃ k, r.1 = some k ∧ popArg r.2 (ap.drop (k - 1)) ≠ none

theorem usedArguments_append (more : List (Option Nat × ArgType))
    : usedArguments (refs ++ more) ap = usedArguments refs ap ++ usedArguments more ap :=
  filterMap_append

theorem popArg_inv {type : ArgType} {left : List (Va F)} (popped : popArg type left ≠ none)
    : ∃ v rest arg, left = v :: rest ∧ ∀ more, popArg type (v :: more) = some (arg, more) := by
  unfold popArg at popped
  split at popped <;> first | exact ⟨_, _, _, rfl, fun more => rfl⟩ | exact absurd rfl popped

theorem used_of_drop {k : Nat} {v : Va F} {rest : List (Va F)} {type : ArgType}
    (left : ap.drop (k - 1) = v :: rest)
    : usedArguments [(some k, type)] ap = [v] := by
  have found : ap[k - 1]? = some v := by
    rw [← head?_drop, left]
    rfl
  simp [usedArguments, found]

theorem Amount.unnumber_references (amount : Amount)
    : ∀ r ∈ amount.unnumber.references, r.1 = Option.none := by
  cases amount <;> simp [Amount.unnumber, Amount.references]

theorem setWidth_signExtend (n : BitVec 32) : (n.signExtend 64).setWidth 32 = n := by
  ext i inside
  simp only [BitVec.getElem_setWidth, BitVec.getLsbD_signExtend]
  simp [inside, show i < 64 by omega]

private theorem Amount.unnumber_value {amount : Amount} (matched : Matches amount.references ap)
    (reading : TypeReading) (more : List (Va F))
    : ∃ v, amount.value ownType ap = some (v, ap)
      ∧ amount.unnumber.value reading (usedArguments amount.references ap ++ more)
        = some (v, more) := by
  cases amount with
  | none => exact ⟨.none, rfl, rfl⟩
  | digits ds => exact ⟨some (ofDigits ds), rfl, rfl⟩
  | next =>
    obtain ⟨k, impossible, -⟩ := matched (.none, .int) mem_cons_self
    cases impossible
  | numbered k =>
    obtain ⟨k', same, popped⟩ := matched (some k, .int) mem_cons_self
    cases same
    obtain ⟨v, rest, arg, left, pop⟩ := popArg_inv popped
    have used : usedArguments (Amount.numbered k).references ap = [v] := used_of_drop left
    rw [used]
    cases v with
    | int n =>
      refine ⟨some n.toInt, ?_, rfl⟩
      rw [Amount.value, ownType, left, popArg]
      simp only [setWidth_signExtend]
    | _ => cases pop []

/-- The argument of a conversion is the one in its place. -/
theorem Conversion.unnumber_argument {c : Conversion} (wf : c.WellFormed)
    (matched : Matches c.argReferences ap) (reading : TypeReading) (more : List (Va F))
    : ∃ arg, c.argument ownType ap = some (arg, ap)
      ∧ c.unnumber.argument reading (usedArguments c.argReferences ap ++ more)
        = some (arg, more) := by
  obtain ⟨type, legal⟩ := Option.ne_none_iff_exists'.mp wf.legal
  have legal' : argType c.unnumber.modifier c.unnumber.conv = some type := legal
  by_cases takes : type = .noarg
  · subst takes
    refine ⟨none, ?_, ?_⟩
    · unfold Conversion.argument
      rw [legal]
    · unfold Conversion.argument Conversion.argReferences
      rw [legal, legal']
      rfl
  · have reference := argReferences_arg legal takes
    rw [reference] at matched ⊢
    obtain ⟨k, pos, popped⟩ := matched _ mem_cons_self
    have pos' : c.pos = some k := pos
    obtain ⟨v, rest, arg, left, pop⟩ := popArg_inv popped
    refine ⟨some arg, ?_, ?_⟩
    · rw [argument_arg legal takes, pos']
      simp only [ownType]
      rw [left, pop]
      rfl
    · rw [argument_arg legal' takes, pos', used_of_drop left]
      simp only [Conversion.unnumber, singleton_append]
      rw [pop]
      rfl

/-- The same field, up to the numbers. -/
theorem Conversion.unnumber_field {c : Conversion} (wf : c.WellFormed)
    (matched : Matches c.references ap) (reading : TypeReading) (more : List (Va F))
    : ∃ w p arg, c.field ownType ap = some (.conv c w p arg, ap)
      ∧ c.unnumber.field reading (usedArguments c.references ap ++ more)
        = some (.conv c.unnumber w p arg, more) := by
  have matchedWidth : Matches c.width.references ap := fun r member =>
    matched r (mem_append_left _ (mem_append_left _ member))
  have matchedPrec : Matches c.prec.references ap := fun r member =>
    matched r (mem_append_left _ (mem_append_right _ member))
  have matchedArg : Matches c.argReferences ap := fun r member =>
    matched r (mem_append_right _ member)
  obtain ⟨arg, argument, argument'⟩ := Conversion.unnumber_argument wf matchedArg reading more
  obtain ⟨p, prec, prec'⟩ := Amount.unnumber_value matchedPrec reading
    (usedArguments c.argReferences ap ++ more)
  obtain ⟨w, width, width'⟩ := Amount.unnumber_value matchedWidth reading
    (usedArguments c.prec.references ap ++ (usedArguments c.argReferences ap ++ more))
  refine ⟨w.getD 0, p, arg, ?_, ?_⟩
  · simp only [Conversion.field, width, prec, argument, bind, Option.bind]
    rfl
  · rw [Conversion.references, usedArguments_append, usedArguments_append, append_assoc,
      append_assoc]
    unfold Conversion.field
    rw [show c.unnumber.width = c.width.unnumber from rfl, width',
      show c.unnumber.prec = c.prec.unnumber from rfl]
    simp only [bind, Option.bind, prec', argument']
    rfl

theorem Conversion.unnumber_wellFormed {c : Conversion} (wf : c.WellFormed)
    : c.unnumber.WellFormed := by
  refine ⟨?_, ?_, wf.legal, fun _ => rfl⟩
  · have isWidth := wf.width
    unfold Conversion.unnumber
    cases width : c.width with
    | digits ds => rwa [width] at isWidth
    | _ => trivial
  · have isPrecision := wf.prec
    unfold Conversion.unnumber
    cases prec : c.prec with
    | digits ds => rwa [prec] at isPrecision
    | _ => trivial

theorem Conversion.unnumber_references (c : Conversion)
    : ∀ r ∈ c.unnumber.references, r.1 = none := by
  intro r member
  rcases mem_append.mp member with member | member
  · rcases mem_append.mp member with member | member
    · exact Amount.unnumber_references c.width r member
    · exact Amount.unnumber_references c.prec r member
  · unfold Conversion.argReferences at member
    split at member
    · cases member
    · cases member
    · rw [mem_singleton.mp member]
      rfl

/-! The second pass of both formats -/

theorem references_unnumber (items : List Item)
    : ∀ r ∈ references (items.map Item.unnumber), r.1 = none := by
  intro r member
  obtain ⟨item, member, reference⟩ := mem_flatMap.mp member
  obtain ⟨item', -, rfl⟩ := mem_map.mp member
  cases item' with
  | conv c => exact Conversion.unnumber_references c r reference
  | _ => cases reference

theorem unnumber_text {chunk : List Item} (text : ∀ item ∈ chunk, item.IsText)
    : chunk.map Item.unnumber = chunk := by
  conv_rhs => rw [← map_id chunk]
  refine map_congr_left (fun item member => ?_)
  have isText := text item member
  cases item with
  | conv c => exact isText.elim
  | _ => rfl

theorem nextChunk_unnumber (items : List Item)
    : nextChunk (items.map Item.unnumber)
      = ((nextChunk items).1.map Item.unnumber, (nextChunk items).2.map Item.unnumber) := by
  have literal : Item.isLiteral ∘ Item.unnumber = Item.isLiteral := by
    funext item
    cases item <;> rfl
  have percent : Item.isPercent ∘ Item.unnumber = Item.isPercent := by
    funext item
    cases item <;> rfl
  unfold nextChunk
  simp only [takeWhile_map, dropWhile_map, literal, percent, map_append]

theorem unnumber_wellFormed {items : List Item} (wf : ∀ item ∈ items, item.WellFormed)
    : ∀ item ∈ items.map Item.unnumber, item.WellFormed := by
  intro item member
  obtain ⟨item', found, rfl⟩ := mem_map.mp member
  have wf' := wf item' found
  cases item' with
  | conv c => exact Conversion.unnumber_wellFormed wf'
  | _ => exact wf'

/-- The two formats are read in step. -/
theorem printLoop_unnumber (env : Env F) (sink : Sink σ) (ap : List (Va F)) (items : List Item)
    (wf : ∀ item ∈ items, item.WellFormed)
    : Matches (references items) ap →
      ∀ (fuel fuel' : Nat) (cnt l : Int) (core core' : Core F) (s : σ),
      (itemUnits items).length < fuel →
      (itemUnits (items.map Item.unnumber)).length < fuel' →
      core.Holds ownType (references items) ap →
      core'.Holds ownType (references (items.map Item.unnumber))
        (usedArguments (references items) ap) →
      printLoop env sink fuel cnt l (itemUnits items) core s
        = printLoop env sink fuel' cnt l (itemUnits (items.map Item.unnumber)) core' s := by
  refine items_induction ?_ ?_ ?_ items wf
  · intro _ fuel fuel' cnt l core core' s fuelled fuelled' _ _
    obtain ⟨fuel, rfl⟩ : ∃ n, fuel = n + 1 := Nat.exists_eq_succ_of_ne_zero (by omega)
    obtain ⟨fuel', rfl⟩ : ∃ n, fuel' = n + 1 := Nat.exists_eq_succ_of_ne_zero (by omega)
    exact printLoop_nil.trans printLoop_nil.symm
  · intro chunk rest nonempty text split wf ih matched fuel fuel' cnt l core core' s fuelled
      fuelled' holds holds'
    have split' := nextChunk_unnumber (chunk ++ rest)
    have wf' := unnumber_wellFormed wf
    obtain ⟨refs, -⟩ := references_text text rest
    obtain ⟨refs', -⟩ := references_text text (rest.map Item.unnumber)
    obtain ⟨-, shorter⟩ := itemUnits_ne_nil nonempty rest
    obtain ⟨-, shorter'⟩ := itemUnits_ne_nil nonempty (rest.map Item.unnumber)
    rw [split, map_append, unnumber_text text] at split'
    rw [map_append, unnumber_text text] at wf'
    rw [refs] at matched holds holds'
    rw [map_append, unnumber_text text] at fuelled' holds' ⊢
    rw [refs'] at holds'
    obtain ⟨fuel, rfl⟩ : ∃ n, fuel = n + 1 := Nat.exists_eq_succ_of_ne_zero (by omega)
    obtain ⟨fuel', rfl⟩ : ∃ n, fuel' = n + 1 := Nat.exists_eq_succ_of_ne_zero (by omega)
    rw [printLoop_text nonempty (readLiteral_text split wf),
      printLoop_text nonempty (readLiteral_text split' wf')]
    split
    · rfl
    · exact ih matched fuel fuel' _ _ core core' _ (by omega) (by omega) holds holds'
  · intro c rest wf ih matched fuel fuel' cnt l core core' s fuelled fuelled' holds holds'
    have wfConv : c.WellFormed := wf _ mem_cons_self
    have wf' := unnumber_wellFormed wf
    rw [map_cons, Item.unnumber] at wf' fuelled' holds' ⊢
    rw [references_cons] at matched holds holds'
    rw [references_cons, usedArguments_append] at holds'
    obtain ⟨-, shorter⟩ := itemUnits_ne_nil (cons_ne_nil (.conv c) []) rest
    obtain ⟨-, shorter'⟩ :=
      itemUnits_ne_nil (cons_ne_nil (.conv c.unnumber) []) (rest.map Item.unnumber)
    rw [singleton_append] at shorter shorter'
    obtain ⟨fuel, rfl⟩ : ∃ n, fuel = n + 1 := Nat.exists_eq_succ_of_ne_zero (by omega)
    obtain ⟨fuel', rfl⟩ : ∃ n, fuel' = n + 1 := Nat.exists_eq_succ_of_ne_zero (by omega)
    obtain ⟨w, p, arg, field, field'⟩ := Conversion.unnumber_field wfConv
      (fun r member => matched r (mem_append_left _ member)) ownType
      (usedArguments (references rest) ap)
    have reads := readDirective_units wfConv holds
      (fun r member => mem_append_left _ member) field (itemUnits rest)
    have reads' := readDirective_units (Conversion.unnumber_wellFormed wfConv) holds'
      (fun r member => mem_append_left _ member) field'
      (itemUnits (rest.map Item.unnumber))
    have sameFault : c.unnumber.width.tooLarge = c.width.tooLarge := by
      unfold Conversion.unnumber
      cases c.width <;> rfl
    rw [printLoop_conv (readLiteral_conv wf), printLoop_conv (readLiteral_conv wf')]
    by_cases small : (w.natAbs : Int) ≤ intMax
    · obtain ⟨core1, core2, directive, fetched, holds2⟩ := reads.1 small
      obtain ⟨core1', core2', directive', fetched', holds2'⟩ := reads'.1 small
      have continues := fun (l' : Int) (s : σ) =>
        ih (fun r member => matched r (mem_append_right _ member)) fuel fuel' (cnt + l) l'
          core2 core2' s (by omega) (by omega)
          (holds2.mono (fun r member => mem_append_right _ member))
          (holds2'.mono (fun r member => mem_append_right _ member))
      rw [directive, directive']
      simp only [fetched, fetched', continues]
      rfl
    · rw [reads.2 (by omega), reads'.2 (by omega), sameFault]

/-! Whole calls -/

/-- A format all of whose references have numbers of one digit, each of one type. Its widths in
digits and its text are in the range of `int`, and its numbers do not only stand in precisions
of conversions without an argument.
-/
structure Numbered (items : List Item) (types : Nat → ArgType) : Prop where
  wellFormed : ∀ item ∈ items, item.WellFormed
  widths : WidthsFit items
  text : (textSize items : Int) ≤ intMax
  announced : references items ≠ [] → items.any Item.announces = true
  numbers : ∀ r ∈ references items, ∃ k, r.1 = some k ∧ OneDigit k ∧ r.2 = types k

def popAll : List ArgType → List (Va F) → Option (List (Arg F) × List (Va F))
  | [], ap => some ([], ap)
  | type :: types, ap => do
    let (arg, ap) ← popArg type ap
    let (args, ap) ← popAll types ap
    pure (arg :: args, ap)

/-- By induction on the types. -/
theorem popAll_types {types : List ArgType} {ap : List (Va F)}
    (matched : ∀ k type, types[k]? = some type → popArg type (ap.drop k) ≠ none)
    : ∃ args, popAll types ap = some (args, ap.drop types.length)
      ∧ ∀ k type, types[k]? = some type → args[k]? = (popArg type (ap.drop k)).map Prod.fst := by
  induction types generalizing ap with
  | nil => exact ⟨[], rfl, fun k type found => nomatch found⟩
  | cons type types ih =>
    obtain ⟨⟨arg, left⟩, popped⟩ := Option.ne_none_iff_exists'.mp (matched 0 type rfl)
    rw [drop_zero] at popped
    have tail := popArg_tail popped
    obtain ⟨args, run, found⟩ := @ih left (by
      intro k type' at'
      rw [tail, ← drop_one, drop_drop, Nat.add_comm]
      exact matched (k + 1) type' at')
    refine ⟨arg :: args, ?_, ?_⟩
    · simp only [popAll, popped, run, bind, Option.bind, pure, length_cons]
      rw [tail, ← drop_one, drop_drop, Nat.add_comm]
    · intro k type' at'
      cases k with
      | zero =>
        cases at'
        rw [drop_zero, popped]
        rfl
      | succ k =>
        have later := found k type' at'
        rw [tail, ← drop_one, drop_drop, Nat.add_comm] at later
        exact later

variable {items : List Item} {types : Nat → ArgType}

theorem Numbered.scan (numbered : Numbered items types) (ap : List (Va F))
    : scanFormat (units (itemBytes items)) ap
      = (Core.note ⟨false, fun _ => none, fun _ => none, ap⟩ (items.any Item.announces)
        (references items)).finish := by
  rw [units_itemBytes numbered.wellFormed]
  refine scanLoop_numbered items numbered.wellFormed numbered.widths ?_ _ 0 0 _
    (Nat.lt_succ_self _) ?_
  · intro r member
    obtain ⟨k, number, one, -⟩ := numbered.numbers r member
    exact ⟨k, number, one⟩
  · have text := numbered.text
    omega

theorem Numbered.noted (numbered : Numbered items types) {k : Nat}
    (used : ∃ r ∈ references items, r.1 = some k) (before : Nat → Option ArgType)
    : noteTypes (references items) before k = some (types k) := by
  refine noteTypes_used (fun r member number => ?_) used before
  obtain ⟨k', number', -, type⟩ := numbered.numbers r member
  rw [number] at number'
  cases number'
  exact type

variable {m : Nat}

section

variable (numbered : Numbered items types)
include numbered

section

variable (used : ∀ k, (∃ r ∈ references items, r.1 = some k) ↔ 1 ≤ k ∧ k ≤ m)
include used

/-- The first pass pops the arguments 1 to `m`. -/
theorem Numbered.popped (matched : ∀ k, 1 ≤ k → k ≤ m → popArg (types k) (ap.drop (k - 1)) ≠ none)
    : ∃ core : Core F, scanFormat (units (itemBytes items)) ap = .ok core ∧ core.ap = ap.drop m
      ∧ ∀ k, 1 ≤ k → k ≤ m → core.nlArg k = (popArg (types k) (ap.drop (k - 1))).map Prod.fst := by
  rw [numbered.scan ap]
  unfold Core.finish
  by_cases announced : items.any Item.announces = true
  · have last : m ≤ argMax := by
      by_contra large
      obtain ⟨r, member, number⟩ := (used m).mpr ⟨by unfold argMax at large; omega, Nat.le_refl m⟩
      obtain ⟨k, number', ⟨-, small⟩, -⟩ := numbered.numbers r member
      rw [number] at number'
      cases number'
      unfold argMax at large
      omega
    have beyond : ∀ k, m < k → noteTypes (references items) (fun _ => none) k = none := by
      intro k high
      refine noteTypes_unused (fun r member number => ?_) _
      have bound := (used k).mp ⟨r, member, number⟩
      omega
    obtain ⟨core, run, left, args, -⟩ := @popNumbered_types F
      (Core.note ⟨false, fun _ => none, fun _ => none, ap⟩ true (references items)) argMax 1 m
      (Nat.add_comm 1 argMax) last (Nat.le_refl 1) types
      (fun k low high => numbered.noted ((used k).mpr ⟨low, high⟩) _) beyond ap rfl matched
    rw [announced]
    exact ⟨core, run, left (by omega), args⟩
  · have noReferences : references items = [] := by
      by_contra some
      exact announced (numbered.announced some)
    have none : m = 0 := by
      by_contra positive
      obtain ⟨r, member, -⟩ := (used m).mpr ⟨by omega, Nat.le_refl m⟩
      rw [noReferences] at member
      cases member
    rw [Bool.not_eq_true] at announced
    rw [announced, none]
    refine ⟨_, rfl, rfl, ?_⟩
    intro k low high
    omega

/-- The state of the second pass over a format with numbers. -/
theorem Numbered.holds
    (args : ∀ k, 1 ≤ k → k ≤ m → core.nlArg k = (popArg (types k) (ap.drop (k - 1))).map Prod.fst)
    : core.Holds ownType (references items) ap := by
  refine .inr (fun r member => ?_)
  obtain ⟨k, number, one, type⟩ := numbered.numbers r member
  obtain ⟨low, high⟩ := (used k).mp ⟨r, member, number⟩
  refine ⟨k, number, one, ?_⟩
  rw [args k low high, ownType, type]

theorem Numbered.matches (matched : ∀ k, 1 ≤ k → k ≤ m → popArg (types k) (ap.drop (k - 1)) ≠ none)
    : Matches (references items) ap := by
  intro r member
  obtain ⟨k, number, one, type⟩ := numbered.numbers r member
  obtain ⟨low, high⟩ := (used k).mp ⟨r, member, number⟩
  refine ⟨k, number, ?_⟩
  rw [type]
  exact matched k low high

end

/-- The first pass over the format without numbers. -/
theorem Numbered.scan_unnumber (args : List (Va F))
    : scanFormat (units (itemBytes (items.map Item.unnumber))) args
      = .ok ⟨false, fun _ => none, fun _ => none, args⟩ := by
  have wf := unnumber_wellFormed numbered.wellFormed
  have size : textSize (items.map Item.unnumber) = textSize items := by
    rw [textSize, map_map]
    congr 1
    refine map_congr_left (fun item _ => ?_)
    cases item <;> rfl
  rw [units_itemBytes wf]
  refine scanLoop_unnumbered _ wf ?_ (references_unnumber items) _ 0 0 _ rfl (Nat.lt_succ_self _) ?_
  · intro c' member
    obtain ⟨item, found, same⟩ := mem_map.mp member
    cases item with
    | conv c =>
      cases same
      have fits := numbered.widths c found
      unfold Conversion.unnumber
      cases width : c.width with
      | digits ds => rwa [width] at fits
      | _ => trivial
    | _ => cases same
  · have text := numbered.text
    omega

/-- The second pass over a format with numbers does what it does over the one without. -/
theorem Numbered.printLoop_eq (used : ∀ k, (∃ r ∈ references items, r.1 = some k) ↔ 1 ≤ k ∧ k ≤ m)
    (matched : ∀ k, 1 ≤ k → k ≤ m → popArg (types k) (ap.drop (k - 1)) ≠ none) (core : Core F)
    (args : ∀ k, 1 ≤ k → k ≤ m → core.nlArg k = (popArg (types k) (ap.drop (k - 1))).map Prod.fst)
    (env : Env F) (sink : Sink σ) (s : σ)
    : printLoop env sink ((itemBytes items).length + 1) 0 0 (units (itemBytes items)) core s
      = printLoop env sink ((itemBytes (items.map Item.unnumber)).length + 1) 0 0
        (units (itemBytes (items.map Item.unnumber)))
        ⟨false, fun _ => none, fun _ => none, usedArguments (references items) ap⟩ s := by
  rw [units_itemBytes numbered.wellFormed,
    units_itemBytes (unnumber_wellFormed numbered.wellFormed)]
  refine printLoop_unnumber env sink ap items numbered.wellFormed
    (numbered.matches used matched) _ _ 0 0 _ _ s ?_ ?_ (numbered.holds used args) ?_
  · rw [itemBytes, length_map]
    exact Nat.lt_succ_self _
  · rw [itemBytes, length_map]
    exact Nat.lt_succ_self _
  · exact .inl ⟨references_unnumber items, rfl, rfl⟩

end

/-- The arguments of a table, fetched in order. -/
theorem popAll_table (matched : ∀ k, 1 ≤ k → k ≤ m → popArg (types k) (ap.drop (k - 1)) ≠ none)
    : ∃ args, popAll ((List.range m).map (fun k => types (k + 1))) ap = some (args, ap.drop m)
      ∧ ∀ k < m, args[k]? = (popArg (types (k + 1)) (ap.drop k)).map Prod.fst := by
  have table : ∀ k type, ((List.range m).map (fun k => types (k + 1)))[k]? = some type ↔
      k < m ∧ types (k + 1) = type := by
    intro k type
    rw [getElem?_map]
    by_cases inside : k < m
    · simp [inside]
    · simp [inside]
  obtain ⟨args, run, found⟩ := @popAll_types F ((List.range m).map (fun k => types (k + 1))) ap (by
      intro k type at'
      obtain ⟨inside, rfl⟩ := (table k type).mp at'
      exact matched (k + 1) (by omega) (by omega))
  refine ⟨args, ?_, ?_⟩
  · rw [run, length_map, length_range]
  · intro k inside
    exact found k _ ((table k _).mpr ⟨inside, rfl⟩)

private theorem Numbered.scan_gap (numbered : Numbered items types) {gap : Nat} (low : 1 ≤ gap)
    (unused : ∀ r ∈ references items, r.1 ≠ some gap)
    (beyond : ∃ r ∈ references items, ∃ k, r.1 = some k ∧ gap < k)
    (matched : ∀ k, 1 ≤ k → k < gap → (∃ r ∈ references items, r.1 = some k) →
      popArg (types k) (ap.drop (k - 1)) ≠ none)
    : scanFormat (units (itemBytes items)) ap = .error (.errno .einval) := by
  obtain ⟨r, member, k, number, above⟩ := beyond
  have announced := numbered.announced (ne_nil_of_mem member)
  obtain ⟨k', number', ⟨-, small⟩, -⟩ := numbered.numbers r member
  rw [number] at number'
  cases number'
  rw [numbered.scan ap, announced, Core.finish]
  refine popNumbered_gap (Nat.add_comm 1 argMax) low ?_ above ?_ ?_ ?_
  · exact noteTypes_unused unused _
  · unfold argMax
    omega
  · intro unset
    cases unset.symm.trans (numbered.noted ⟨r, member, number⟩ _)
  · intro j low high type noted
    by_cases usedJ : ∃ r ∈ references items, r.1 = some j
    · cases noted.symm.trans (numbered.noted usedJ _)
      exact matched j low high usedJ
    · have unusedJ : ∀ r ∈ references items, r.1 ≠ some j := fun r member number =>
        usedJ ⟨r, member, number⟩
      cases noted.symm.trans (noteTypes_unused unusedJ _)

/-- A format whose numbers are 1 to `m` is printed as the one without numbers, and one whose
numbers leave a gap is refused by the first pass.
-/
theorem vfprintf_positional (numbered : Numbered items types) (ap : List (Va F))
    : (∀ m, (∀ k, (∃ r ∈ references items, r.1 = some k) ↔ 1 ≤ k ∧ k ≤ m) →
        (∀ k, 1 ≤ k → k ≤ m → popArg (types k) (ap.drop (k - 1)) ≠ none) →
        (∃ core args, scanFormat (units (itemBytes items)) ap = .ok core
          ∧ popAll ((List.range m).map (fun k => types (k + 1))) ap = some (args, core.ap)
          ∧ (∀ k < m, core.nlArg (k + 1) = args[k]?)
          ∧ ∀ (env : Env F) (write : Option (WriteFn W)) (s : Streambuf W) (left : List (Va F)),
            printLoop env (streamSink write) ((itemBytes items).length + 1) 0 0
                (units (itemBytes items)) { core with l10n := false } s
              = printLoop env (streamSink write) ((itemBytes items).length + 1) 0 0
                (units (itemBytes items)) { core with l10n := false, ap := left } s)
        ∧ ∀ (env : Env F) (write : Option (WriteFn W)) (s : Streambuf W),
          vfprintf env write (itemBytes items) ap s
            = vfprintf env write (itemBytes (items.map Item.unnumber))
              (usedArguments (references items) ap) s)
      ∧ ∀ gap, 1 ≤ gap → (∀ r ∈ references items, r.1 ≠ some gap) →
        (∃ r ∈ references items, ∃ k, r.1 = some k ∧ gap < k) →
        (∀ k, 1 ≤ k → k < gap → (∃ r ∈ references items, r.1 = some k) →
          popArg (types k) (ap.drop (k - 1)) ≠ none) →
        scanFormat (units (itemBytes items)) ap = .error (.errno .einval)
        ∧ ∀ (env : Env F) (write : Option (WriteFn W)) (s : Streambuf W),
          vfprintf env write (itemBytes items) ap s = some (-1, s) := by
  constructor
  · intro m used matched
    obtain ⟨core, scan, left, args⟩ := numbered.popped used matched
    obtain ⟨popped, run, found⟩ := popAll_table matched
    refine ⟨⟨core, popped, scan, ?_, ?_, ?_⟩, ?_⟩
    · rw [run, left]
    · intro k inside
      rw [args (k + 1) (by omega) (by omega), found k inside]
      rfl
    · intro env write s left
      have same := fun core args => numbered.printLoop_eq used matched core args env
        (streamSink write) s
      exact (same { core with l10n := false } args).trans
        (same { core with l10n := false, ap := left } args).symm
    · intro env write s
      have same := fun s => numbered.printLoop_eq used matched { core with l10n := false } args
        env (streamSink write) s
      simp only [vfprintf, scan, numbered.scan_unnumber, same]
  · intro gap low unused beyond matched
    have scan := numbered.scan_gap low unused beyond matched
    refine ⟨scan, fun env write s => ?_⟩
    simp only [vfprintf, scan]

/-- `%2$d %1$s` -/
def exchanged : List Item := [.conv ⟨some 2, [], .none, .none, .none, .d⟩, .literal ' '.toNat,
    .conv ⟨some 1, [], .none, .none, .none, .s⟩]

private theorem exchanged_numbered
    : Numbered exchanged (fun k => if k = 1 then .ptr else .int) := by
  refine ⟨?_, ?_, by decide, fun _ => rfl, ?_⟩
  · intro item member
    rcases mem_cons.mp member with rfl | member
    · exact ⟨trivial, trivial, by decide, by decide⟩
    · rcases mem_cons.mp member with rfl | member
      · exact ⟨by decide, by decide, by decide⟩
      · rw [mem_singleton.mp member]
        exact ⟨trivial, trivial, by decide, by decide⟩
  · intro c member
    have widths : ∀ c, Item.conv c ∈ exchanged → c.width = .none := by
      intro c member
      simp only [exchanged, mem_cons, Item.conv.injEq, not_mem_nil, or_false,
        reduceCtorEq, false_or] at member
      rcases member with rfl | rfl <;> rfl
    rw [widths c member]
    trivial
  · intro r member
    rcases mem_cons.mp member with rfl | member
    · exact ⟨2, rfl, ⟨by decide, by decide⟩, rfl⟩
    · rw [mem_singleton.mp member]
      exact ⟨1, rfl, ⟨by decide, by decide⟩, rfl⟩

/-- An environment without floating point, whose last error is called `Ok`. -/
def plainEnv : Env Unit := ⟨fun _ _ _ _ _ => ([], 0), ['O'.toUInt8, 'k'.toUInt8]⟩

def plainStream : Streambuf Unit := .finit false false false false (fun _ => 0) () 100 16

theorem vfprintf_positional_exchanged
    : vfprintf plainEnv none (itemBytes exchanged)
        [.ptr ⟨8, .bytes ['a'.toUInt8, 'b'.toUInt8], by decide⟩, .int 7] plainStream
      = vfprintf plainEnv none (itemBytes (exchanged.map Item.unnumber))
        [.int 7, .ptr ⟨8, .bytes ['a'.toUInt8, 'b'.toUInt8], by decide⟩] plainStream := by
  refine ((vfprintf_positional exchanged_numbered _).1 2 ?_ ?_).2 plainEnv none plainStream
  · intro k
    constructor
    · rintro ⟨r, member, number⟩
      rcases mem_cons.mp member with rfl | member
      · cases number
        decide
      · rw [mem_singleton.mp member] at number
        cases number
        decide
    · rintro ⟨low, high⟩
      rcases Nat.lt_or_ge 1 k with second | first
      · exact ⟨(some 2, .int), by decide, by rw [show k = 2 by omega]⟩
      · exact ⟨(some 1, .ptr), by decide, by rw [show k = 1 by omega]⟩
  · intro k low high
    rcases Nat.lt_or_ge 1 k with second | first
    · rw [show k = 2 by omega]
      exact Option.some_ne_none _
    · rw [show k = 1 by omega]
      exact Option.some_ne_none _

/-- `%1$d%2$4294967296d` -/
def lateOverflow : List Item := [.conv ⟨some 1, [], .none, .none, .none, .d⟩,
    .conv ⟨some 2, [], .digits [4, 2, 9, 4, 9, 6, 7, 2, 9, 6], .none, .none, .d⟩]

/-- `%.*1$m` -/
def numberedPrecision : List Item := [.conv ⟨none, [], .none, .numbered 1, .none, .m⟩]

/-- A width that is too large stops the format with numbers before anything is written, the
other one behind the first argument. A number in the precision of `%m` alone is not noted, so
that its argument is never fetched.
-/
theorem vfprintf_positional_differs
    : (vfprintf plainEnv none (itemBytes lateOverflow) [.int 5, .int 6] plainStream).map
        (fun (ret, s) => (ret, s.memory 100)) = some (-1, 0)
      ∧ (vfprintf plainEnv none (itemBytes (lateOverflow.map Item.unnumber))
          (usedArguments (references lateOverflow) [.int 5, .int 6]) plainStream).map
        (fun (ret, s) => (ret, s.memory 100)) = some (-1, '5'.toUInt8)
      ∧ (vfprintf plainEnv none (itemBytes numberedPrecision) [.int 1] plainStream).isNone
      ∧ (vfprintf plainEnv none (itemBytes (numberedPrecision.map Item.unnumber))
          (usedArguments (references numberedPrecision) [.int 1]) plainStream).map
        (fun (ret, s) => (ret, s.memory 100)) = some (1, 'O'.toUInt8) := by
  refine ⟨?_, ?_, ?_, ?_⟩ <;> decide +kernel

end Nglibc.Stdio
