import Nglibc.Stdio.FormatPrint

/-! Arguments with numbers are read under the type of their last reference. -/

namespace Nglibc.Stdio

open List

variable {F : Type} {reading : TypeReading} {ap ap' : List (Va F)} {items : List Item}

/-! Fields without numbers -/

theorem Amount.value_unnumbered {amount : Amount}
    (unnumbered : ∀ r ∈ amount.references, r.1 = Option.none)
    (reading other : TypeReading) (ap : List (Va F))
    : amount.value reading ap = amount.value other ap := by
  cases amount with
  | numbered k => cases unnumbered (some k, .int) mem_cons_self
  | none => rfl
  | digits ds => rfl
  | next =>
    cases ap with
    | nil => rfl
    | cons v rest => cases v <;> rfl

private theorem Conversion.field_unnumbered {c : Conversion} (wf : c.WellFormed)
    (unnumbered : ∀ r ∈ c.references, r.1 = none) (reading other : TypeReading) (ap : List (Va F))
    : c.field reading ap = c.field other ap := by
  have width := fun ap : List (Va F) => Amount.value_unnumbered (fun r member =>
    unnumbered r (mem_append_left _ (mem_append_left _ member))) reading other ap
  have prec := fun ap : List (Va F) => Amount.value_unnumbered (fun r member =>
    unnumbered r (mem_append_left _ (mem_append_right _ member))) reading other ap
  have pos : c.pos = none := by
    by_contra numbered
    obtain ⟨k, pos⟩ := Option.ne_none_iff_exists'.mp numbered
    obtain ⟨type, ref, -⟩ := exists_argReference wf pos
    cases unnumbered (some k, type)
      (mem_append_right _ (by rw [ref]; exact mem_cons_self))
  have argument : ∀ ap : List (Va F), c.argument reading ap = c.argument other ap := by
    intro ap
    unfold Conversion.argument
    rw [pos]
    cases argType c.modifier c.conv with
    | none => rfl
    | some type => cases type <;> rfl
  simp only [Conversion.field, width, prec, argument]

private theorem fields_unnumbered (wf : ∀ item ∈ items, item.WellFormed)
    (unnumbered : ∀ r ∈ references items, r.1 = none) (reading other : TypeReading)
    (ap : List (Va F))
    : fields reading items ap = fields other items ap := by
  induction items generalizing ap with
  | nil => rfl
  | cons item items ih =>
    have rest := ih (fun item member => wf item (mem_cons_of_mem _ member))
      (fun r member => unnumbered r (mem_append_right _ member))
    cases item with
    | literal u => rw [fields, fields, rest]
    | percent => rw [fields, fields, rest]
    | conv c =>
      have same := Conversion.field_unnumbered (F := F) (wf _ mem_cons_self)
        (fun r member => unnumbered r (mem_append_left _ member)) reading other
      simp only [fields, same, rest]

/-! Fields with numbers -/

/-- Every reference has a number, whose argument can be read under the type of `reading`, which
is of the kind of the reference.
-/
def Readings (reading : TypeReading) (refs : List (Option Nat × ArgType)) (ap : List (Va F)) : Prop :=
  ∀ r ∈ refs, ∃ k, r.1 = some k ∧ popArg (reading k r.2) (ap.drop (k - 1)) ≠ none
    ∧ (reading k r.2).kind = r.2.kind

private theorem Amount.value_numbered {amount : Amount} (readings : Readings reading amount.references ap)
    : ∃ v, amount.value reading ap = some (v, ap) := by
  cases amount with
  | none => exact ⟨.none, rfl⟩
  | digits ds => exact ⟨some (ofDigits ds), rfl⟩
  | next =>
    obtain ⟨k, impossible, -⟩ := readings (.none, .int) mem_cons_self
    cases impossible
  | numbered k =>
    obtain ⟨k', same, popped, kind⟩ := readings (some k, .int) mem_cons_self
    cases same
    obtain ⟨⟨arg, left⟩, found⟩ := Option.ne_none_iff_exists'.mp popped
    have number := popArg_kind found
    rw [kind] at number
    cases arg with
    | i n => exact ⟨some (n.setWidth 32).toInt, by rw [Amount.value, found]⟩
    | _ => cases number

private theorem Conversion.field_numbered {c : Conversion} (wf : c.WellFormed)
    (readings : Readings reading c.references ap)
    : ∃ field, c.field reading ap = some (field, ap) := by
  obtain ⟨w, width⟩ := Amount.value_numbered (fun r member =>
    readings r (mem_append_left _ (mem_append_left _ member)))
  obtain ⟨p, prec⟩ := Amount.value_numbered (fun r member =>
    readings r (mem_append_left _ (mem_append_right _ member)))
  have argument : ∃ arg, c.argument reading ap = some (arg, ap) := by
    obtain ⟨type, legal⟩ := Option.ne_none_iff_exists'.mp wf.legal
    by_cases takes : type = .noarg
    · subst takes
      refine ⟨none, ?_⟩
      unfold Conversion.argument
      rw [legal]
    · have reference := argReferences_arg legal takes
      obtain ⟨k, pos, popped, -⟩ := readings (c.pos, type)
        (mem_append_right _ (by rw [reference]; exact mem_cons_self))
      have pos' : c.pos = some k := pos
      obtain ⟨⟨arg, left⟩, found⟩ := Option.ne_none_iff_exists'.mp popped
      refine ⟨some arg, ?_⟩
      rw [argument_arg legal takes, pos']
      dsimp only
      rw [found]
      rfl
  obtain ⟨arg, argument⟩ := argument
  refine ⟨.conv c (w.getD 0) p arg, ?_⟩
  simp only [Conversion.field, width, prec, argument, bind, Option.bind]
  rfl

private theorem fields_numbered (wf : ∀ item ∈ items, item.WellFormed)
    (readings : Readings reading (references items) ap)
    : ∃ fs, fields reading items ap = some fs := by
  induction items with
  | nil => exact ⟨[], rfl⟩
  | cons item items ih =>
    obtain ⟨fs, rest⟩ := ih (fun item member => wf item (mem_cons_of_mem _ member))
      (fun r member => readings r (mem_append_right _ member))
    cases item with
    | literal u => exact ⟨_, by rw [fields, rest]; rfl⟩
    | percent => exact ⟨_, by rw [fields, rest]; rfl⟩
    | conv c =>
      obtain ⟨field, found⟩ := Conversion.field_numbered (wf _ mem_cons_self)
        (fun r member => readings r (mem_append_left _ member))
      exact ⟨field :: fs, by simp only [fields, found, rest, bind, Option.bind]; rfl⟩

/-- The arguments of a format with numbers match the references to them. -/
theorem Amount.matches_value {amount : Amount} {v : Option Int}
    (numbered : ∀ r ∈ amount.references, ∃ k, r.1 = some k)
    (value : amount.value ownType ap = some (v, ap'))
    : ap' = ap ∧ ∀ r ∈ amount.references, ∀ k, r.1 = some k →
      popArg r.2 (ap.drop (k - 1)) ≠ Option.none := by
  cases amount with
  | none =>
    simp only [Amount.value, Option.some.injEq, Prod.mk.injEq] at value
    exact ⟨value.2.symm, fun r member => by cases member⟩
  | digits ds =>
    simp only [Amount.value, Option.some.injEq, Prod.mk.injEq] at value
    exact ⟨value.2.symm, fun r member => by cases member⟩
  | next =>
    obtain ⟨k, impossible⟩ := numbered (.none, .int) mem_cons_self
    cases impossible
  | numbered k =>
    rw [Amount.value] at value
    cases popped : popArg (ownType k .int) (ap.drop (k - 1)) with
    | none =>
      rw [popped] at value
      cases value
    | some result =>
      have same : ap = ap' := by
        rw [popped] at value
        split at value <;> cases value
        rfl
      refine ⟨same.symm, fun r member k' number => ?_⟩
      rw [mem_singleton.mp member] at number ⊢
      cases number
      rw [ownType] at popped
      rw [popped]
      exact Option.some_ne_none result

/-- With numbered arguments none is taken in turn, and each one is there. -/
theorem Conversion.matches_field {c : Conversion} (wf : c.WellFormed)
    (numbered : ∀ r ∈ c.references, ∃ k, r.1 = some k) {field : Field F}
    (found : c.field ownType ap = some (field, ap'))
    : ap' = ap ∧ ∀ r ∈ c.references, ∀ k, r.1 = some k → popArg r.2 (ap.drop (k - 1)) ≠ none := by
  obtain ⟨w, p, arg, ap1, ap2, -, width, prec, argument⟩ := field_inv found
  obtain ⟨rfl, widthMatches⟩ := Amount.matches_value (fun r member =>
    numbered r (mem_append_left _ (mem_append_left _ member))) width
  obtain ⟨rfl, precMatches⟩ := Amount.matches_value (fun r member =>
    numbered r (mem_append_left _ (mem_append_right _ member))) prec
  have argMatches : ap' = ap2 ∧ ∀ r ∈ c.argReferences, ∀ k, r.1 = some k →
      popArg r.2 (ap2.drop (k - 1)) ≠ none := by
    obtain ⟨type, legal⟩ := Option.ne_none_iff_exists'.mp wf.legal
    by_cases takes : type = .noarg
    · subst takes
      unfold Conversion.argument at argument
      rw [legal] at argument
      simp only [Option.some.injEq, Prod.mk.injEq] at argument
      refine ⟨argument.2.symm, fun r member => ?_⟩
      unfold Conversion.argReferences at member
      rw [legal] at member
      cases member
    · have reference := argReferences_arg legal takes
      obtain ⟨k, pos⟩ := numbered (c.pos, type)
        (mem_append_right _ (by rw [reference]; exact mem_cons_self))
      have pos' : c.pos = some k := pos
      rw [argument_arg legal takes, pos'] at argument
      obtain ⟨⟨value, left⟩, popped, equal⟩ := Option.map_eq_some_iff.mp argument
      simp only [Prod.mk.injEq] at equal
      refine ⟨equal.2.symm, fun r member k' number => ?_⟩
      rw [reference] at member
      rw [mem_singleton.mp member] at number ⊢
      have sameNumber : some k = some k' := pos'.symm.trans number
      cases sameNumber
      exact fun none => by
        rw [ownType, none] at popped
        cases popped
  refine ⟨argMatches.1, fun r member k number => ?_⟩
  rcases mem_append.mp member with member | member
  · rcases mem_append.mp member with member | member
    · exact widthMatches r member k number
    · exact precMatches r member k number
  · exact argMatches.2 r member k number

theorem matches_fields (wf : ∀ item ∈ items, item.WellFormed)
    (numbered : ∀ r ∈ references items, ∃ k, r.1 = some k) {fs : List (Field F)}
    (found : fields ownType items ap = some fs)
    : ∀ r ∈ references items, ∀ k, r.1 = some k → popArg r.2 (ap.drop (k - 1)) ≠ none := by
  induction items generalizing fs with
  | nil =>
    intro r member
    cases member
  | cons item items ih =>
    have wfRest : ∀ item' ∈ items, item'.WellFormed := fun item' member =>
      wf item' (mem_cons_of_mem _ member)
    have numberedRest : ∀ r ∈ references items, ∃ k, r.1 = some k := fun r member =>
      numbered r (mem_append_right _ member)
    intro r member k number
    rcases mem_append.mp member with here | later
    · cases item with
      | conv c =>
        simp only [fields, bind, Option.bind_eq_some_iff, Prod.exists] at found
        obtain ⟨field, ap', foundField, -⟩ := found
        exact (Conversion.matches_field (wf _ mem_cons_self)
          (fun r member => numbered r (mem_append_left _ member)) foundField).2 r here
          k number
      | _ => cases here
    · cases item with
      | conv c =>
        simp only [fields, bind, Option.bind_eq_some_iff, Prod.exists] at found
        obtain ⟨field, ap', foundField, more, foundMore, -⟩ := found
        obtain ⟨rfl, -⟩ := Conversion.matches_field (wf _ mem_cons_self)
          (fun r member => numbered r (mem_append_left _ member)) foundField
        exact ih wfRest numberedRest foundMore r later k number
      | literal u =>
        obtain ⟨more, foundMore, -⟩ := Option.map_eq_some_iff.mp found
        exact ih wfRest numberedRest foundMore r later k number
      | percent =>
        obtain ⟨more, foundMore, -⟩ := Option.map_eq_some_iff.mp found
        exact ih wfRest numberedRest foundMore r later k number

/-! The types of the last references -/

variable {refs : List (Option Nat × ArgType)}

/-- The last reference to a number gives its type. By induction from the last reference. -/
theorem lastType_used {k : Nat} (used : ∃ r ∈ refs, r.1 = some k) (type : ArgType)
    (types : Nat → Option ArgType)
    : (some k, lastType refs k type) ∈ refs
      ∧ noteTypes refs types k = some (lastType refs k type) := by
  induction refs using List.reverseRecOn with
  | nil =>
    obtain ⟨r, member, -⟩ := used
    cases member
  | append_singleton refs r ih =>
    unfold lastType noteTypes at ih ⊢
    rw [foldl_concat, foldl_concat]
    by_cases last : r.1 = some k
    · rw [if_pos last, if_pos last]
      exact ⟨mem_append_right _ (by rw [← last]; exact mem_singleton_self _), rfl⟩
    · rw [if_neg last, if_neg last]
      obtain ⟨earlier, noted⟩ := ih (by
        obtain ⟨q, member, number⟩ := used
        rcases mem_append.mp member with member | member
        · exact ⟨q, member, number⟩
        · rw [mem_singleton.mp member] at number
          exact absurd number last)
      exact ⟨mem_append_left _ earlier, noted⟩

theorem lastType_default {k : Nat} (used : ∃ r ∈ refs, r.1 = some k) (type type' : ArgType)
    : lastType refs k type = lastType refs k type' := by
  have noted := (lastType_used used type fun _ => none).2
  have noted' := (lastType_used used type' fun _ => none).2
  exact Option.some.inj (noted.symm.trans noted')

def Va.kind : Va F → Kind
  | .int _ | .word _ => .number
  | .ptr _ => .pointer
  | .dbl _ | .ldbl _ => .floating

theorem popArg_kind_eq {type : ArgType} {v : Va F} {rest : List (Va F)}
    (popped : popArg type (v :: rest) ≠ none)
    : type.kind = v.kind := by
  cases v <;> cases type <;> first | rfl | exact absurd rfl popped

theorem popArg_same_kind {type type' : ArgType} (popped : popArg type ap ≠ none)
    (popped' : popArg type' ap ≠ none)
    : type.kind = type'.kind := by
  cases ap with
  | nil => cases type <;> exact absurd rfl popped
  | cons v rest => rw [popArg_kind_eq popped, popArg_kind_eq popped']

/-- Arguments that match their references can be read under the types of the last ones. -/
theorem lastType_readings (numbered : ∀ r ∈ refs, ∃ k, r.1 = some k)
    (matched : ∀ r ∈ refs, ∀ k, r.1 = some k → popArg r.2 (ap.drop (k - 1)) ≠ none)
    : Readings (lastType refs) refs ap := by
  intro r member
  obtain ⟨k, number⟩ := numbered r member
  have last := (lastType_used ⟨r, member, number⟩ r.2 fun _ => none).1
  have popped := matched _ last k rfl
  exact ⟨k, number, popped, popArg_same_kind popped (matched r member k number)⟩

private theorem exists_largest (refs : List (Option Nat × ArgType))
    : ∃ m, (∀ r ∈ refs, ∀ k, r.1 = some k → k ≤ m) ∧ (m = 0 ∨ ∃ r ∈ refs, r.1 = some m) := by
  induction refs with
  | nil => exact ⟨0, by simp, .inl rfl⟩
  | cons r refs ih =>
    obtain ⟨m, bound, largest⟩ := ih
    by_cases larger : ∃ k, r.1 = some k ∧ m < k
    · obtain ⟨k, number, above⟩ := larger
      refine ⟨k, ?_, .inr ⟨r, mem_cons_self, number⟩⟩
      intro q member j numberOf
      rcases mem_cons.mp member with rfl | member
      · rw [number] at numberOf
        cases numberOf
        exact le_rfl
      · exact (bound q member j numberOf).trans above.le
    · refine ⟨m, ?_, ?_⟩
      · intro q member j numberOf
        rcases mem_cons.mp member with rfl | member
        · by_contra above
          exact larger ⟨j, numberOf, by omega⟩
        · exact bound q member j numberOf
      · rcases largest with zero | ⟨q, member, number⟩
        · exact .inl zero
        · exact .inr ⟨q, mem_cons_of_mem _ member, number⟩

/-- Numbers without a gap are those from 1 to the largest one. -/
theorem exists_range
    (numbered : ∀ r ∈ refs, ∃ k, r.1 = some (k + 1) ∧ ∀ j ≤ k, ∃ q ∈ refs, q.1 = some (j + 1))
    : ∃ m, ∀ k, (∃ r ∈ refs, r.1 = some k) ↔ 1 ≤ k ∧ k ≤ m := by
  obtain ⟨m, bound, largest⟩ := exists_largest refs
  refine ⟨m, fun k => ⟨?_, ?_⟩⟩
  · rintro ⟨r, member, number⟩
    obtain ⟨k', number', -⟩ := numbered r member
    rw [number] at number'
    cases number'
    exact ⟨by omega, bound r member _ number⟩
  · rintro ⟨low, high⟩
    rcases largest with zero | ⟨r, member, number⟩
    · omega
    · obtain ⟨k', number', smaller⟩ := numbered r member
      rw [number] at number'
      cases number'
      obtain ⟨q, found, numberOf⟩ := smaller (k - 1) (by omega)
      exact ⟨q, found, by rw [numberOf]; congr 1; omega⟩

theorem exists_fields_lastType (wf : ∀ item ∈ items, item.WellFormed)
    (numbering : Numbering (references items)) {own : List (Field F)}
    (found : fields ownType items ap = some own)
    : (∃ fs, fields (lastType (references items)) items ap = some fs)
      ∧ (lastType (references items)).Keeps (references items) := by
  rcases numbering with unnumbered | numbered
  · refine ⟨⟨own, ?_⟩, ?_⟩
    · rw [fields_unnumbered wf unnumbered _ ownType, found]
    · intro k type member
      cases unnumbered _ member
  · have numbers : ∀ r ∈ references items, ∃ k, r.1 = some k := by
      intro r member
      obtain ⟨k, number, -⟩ := numbered r member
      exact ⟨k + 1, number⟩
    have readings := lastType_readings numbers (matches_fields wf numbers found)
    refine ⟨fields_numbered wf readings, ?_⟩
    intro k type member
    obtain ⟨k', number, -, kind⟩ := readings _ member
    cases number
    exact kind

/-- What the first pass needs: widths and text that fit, and numbers that show themselves. -/
structure Scannable (items : List Item) : Prop where
  wellFormed : ∀ item ∈ items, item.WellFormed
  numbering : Numbering (references items)
  widths : WidthsFit items
  text : (textSize items : Int) ≤ intMax

/-- Numbers that only a precision has are not noted. -/
def Announced (items : List Item) : Prop :=
  (∀ r ∈ references items, r.1 = none) ∨ items.any Item.announces = true

/-- The first pass leaves the arguments as the second one needs them. -/
theorem Scannable.holds (scannable : Scannable items) (announced : Announced items)
    (near : ¬ Far (references items)) {own : List (Field F)}
    (found : fields ownType items ap = some own)
    : ∃ core, scanFormat (units (itemBytes items)) ap = .ok core
      ∧ Core.Holds (lastType (references items)) (references items) { core with l10n := false }
        ap := by
  have wf := scannable.wellFormed
  have start : (0 : Int) + 0 + textSize items ≤ intMax := by
    have text := scannable.text
    omega
  rw [units_itemBytes wf, scanFormat]
  rcases scannable.numbering with unnumbered | numbered
  · rw [scanLoop_unnumbered items wf scannable.widths unnumbered _ 0 0 _ rfl (Nat.lt_succ_self _)
      start]
    exact ⟨_, rfl, .inl ⟨unnumbered, rfl, rfl⟩⟩
  · have numbers : ∀ r ∈ references items, ∃ k, r.1 = some k := by
      intro r member
      obtain ⟨k, number, -⟩ := numbered r member
      exact ⟨k + 1, number⟩
    have oneDigit : ∀ r ∈ references items, ∃ k, r.1 = some k ∧ OneDigit k := by
      intro r member
      obtain ⟨k, number, -⟩ := numbered r member
      refine ⟨k + 1, number, by omega, ?_⟩
      by_contra large
      exact near ⟨r, member, k + 1, number, by omega⟩
    have matched := matches_fields wf numbers found
    rw [scanLoop_numbered items wf scannable.widths oneDigit _ 0 0 _ (Nat.lt_succ_self _) start,
      Core.finish]
    by_cases noted : items.any Item.announces = true
    · obtain ⟨m, range⟩ := exists_range numbered
      have last : m ≤ argMax := by
        rcases Nat.eq_zero_or_pos m with zero | positive
        · omega
        · obtain ⟨r, member, number⟩ := (range m).mpr ⟨positive, le_rfl⟩
          obtain ⟨k, number', one⟩ := oneDigit r member
          rw [number] at number'
          cases number'
          have bound : argMax = 32 := rfl
          have small := one.2
          omega
      have types : ∀ j, 1 ≤ j → j ≤ m → noteTypes (references items) (fun _ => none) j
            = some (lastType (references items) j .int)
          ∧ popArg (lastType (references items) j .int) (ap.drop (j - 1)) ≠ none := by
        intro j low high
        have used := (range j).mpr ⟨low, high⟩
        obtain ⟨member, note⟩ := lastType_used used .int fun _ => none
        exact ⟨note, matched _ member j rfl⟩
      have beyond : ∀ j, m < j → noteTypes (references items) (fun _ => none) j = none := by
        intro j above
        refine noteTypes_unused (fun r member number => ?_) _
        have inside := (range j).mp ⟨r, member, number⟩
        omega
      rw [noted]
      obtain ⟨core, popped, -, args, -⟩ := @popNumbered_types F
        (Core.note ⟨false, fun _ => none, fun _ => none, ap⟩ true (references items)) argMax 1 m
        (Nat.add_comm 1 argMax) last le_rfl _ (fun j low high => (types j low high).1) beyond ap
        rfl (fun j low high => (types j low high).2)
      refine ⟨core, popped, .inr fun r member => ?_⟩
      obtain ⟨k, number, one⟩ := oneDigit r member
      obtain ⟨low, high⟩ := (range k).mp ⟨r, member, number⟩
      refine ⟨k, number, one, ?_⟩
      have same : lastType (references items) k r.2 = lastType (references items) k .int :=
        lastType_default ⟨r, member, number⟩ r.2 .int
      rw [same]
      exact args k low high
    · have unnumbered := announced.resolve_right noted
      rw [if_neg (by simpa [Core.note] using noted)]
      exact ⟨_, rfl, .inl ⟨unnumbered, rfl, rfl⟩⟩

end Nglibc.Stdio
