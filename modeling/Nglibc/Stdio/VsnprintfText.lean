import Nglibc.Stdio.FormatTypes
import Nglibc.Stdio.Positional

/-! What `__vsnprintf` and `__vasprintf` store of the text of a format with integers, characters
and strings.
-/

namespace Nglibc.Stdio

open Memory List

variable {F : Type} {env : Env F} {texts : Texts F} {items : List Item} {ap ap' : List (Va F)}
  {reading : TypeReading} {fs : List (Field F)} {T : List UInt8}

/-- The conversions of integers, characters and strings. -/
def Conv.isPlain : Conv → Bool
  | .d | .i | .o | .u | .x | .bigX | .c | .s => true
  | _ => false

/-- A format of plain conversions with matching arguments, whose text has at most `INT_MAX`
bytes.
-/
structure PlainFormat (texts : Texts F) (items : List Item) (ap : List (Va F)) (T : List UInt8)
    : Prop where
  wellFormed : ∀ item ∈ items, item.WellFormed
  plain : ∀ c, .conv c ∈ items → c.conv.isPlain = true
  numbering : Numbering (references items)
  text : formatText texts ownType items ap = some T
  short : (T.length : Int) ≤ intMax

/-! What the length of the text says about the format -/

/-- A plain conversion fills its width, and an octal number its precision. -/
theorem length_textOf {c : Conversion} (plain : c.conv.isPlain = true) {w : Int} {p : Option Int}
    {arg : Option (Arg F)} {text : List UInt8} (found : c.textOf texts w p arg = some text)
    : w.natAbs ≤ text.length ∧ (c.conv = .o → ∀ n : Nat, p = some (n : Int) → n ≤ text.length) := by
  have number : ∀ {least : Nat} {pre a : List UInt8},
      (c.layout w p).number least pre a = text → w.natAbs ≤ text.length ∧ least ≤ text.length := by
    rintro least pre a rfl
    rw [length_number]
    have width : (c.layout w p).width = w.natAbs := rfl
    omega
  have justify : ∀ {a : List UInt8}, (c.layout w p).justify a = text → w.natAbs ≤ text.length := by
    rintro a rfl
    rw [length_justify]
    exact le_max_left _ _
  by_cases wide : c.wide = true
  · rw [textOf_wide wide] at found
    obtain ⟨bytes, -, same⟩ := Option.map_eq_some_iff.mp found
    refine ⟨justify same, fun octal => ?_⟩
    simp [Conversion.wide, octal] at wide
  · rw [textOf_narrow (by simpa using wide)] at found
    have other : ∀ {conv : Conv}, c.conv = conv → conv ≠ .o → w.natAbs ≤ text.length →
        w.natAbs ≤ text.length
        ∧ (c.conv = .o → ∀ n : Nat, p = some (n : Int) → n ≤ text.length) := by
      intro conv same different fills
      exact ⟨fills, fun octal => absurd (same.symm.trans octal) different⟩
    have notPlain : ∀ {conv : Conv}, c.conv = conv → conv.isPlain = true := by
      intro conv same
      rw [← same, plain]
    split at found
    case h_3 x conv =>
      have whole := number (Option.some.inj found)
      refine ⟨whole.1, fun _ n precision => le_trans ?_ whole.2⟩
      have least : (c.layout w p).least = n := by
        rw [precision]
        simp [Layout.least, Conversion.layout, show ¬ (n : Int) < 0 by omega]
      rw [least]
      split
      · exact le_max_left _ _
      · exact le_rfl
    case h_1 x conv => exact other conv Conv.noConfusion (number (Option.some.inj found)).1
    case h_2 x conv => exact other conv Conv.noConfusion (number (Option.some.inj found)).1
    case h_4 x conv => exact other conv Conv.noConfusion (number (Option.some.inj found)).1
    case h_5 x conv => exact other conv Conv.noConfusion (number (Option.some.inj found)).1
    case h_6 x conv => exact other conv Conv.noConfusion (number (Option.some.inj found)).1
    case h_10 x conv => exact other conv Conv.noConfusion (justify (Option.some.inj found))
    case h_11 q conv =>
      refine other conv Conv.noConfusion ?_
      split at found
      · exact justify (Option.some.inj found)
      · split at found
        · exact justify (Option.some.inj found)
        · cases found
    case h_7 conv => cases notPlain conv
    case h_8 conv => cases notPlain conv
    case h_9 conv => cases notPlain conv
    case h_12 conv => cases notPlain conv
    case h_13 => cases found

theorem length_collect {text : Field F → Option (List UInt8)} (collected : collect text fs = some T)
    {field : Field F} (member : field ∈ fs)
    : ∃ part, text field = some part ∧ part.length ≤ T.length := by
  induction fs generalizing T with
  | nil => cases member
  | cons first fs ih =>
    simp only [collect, bind, Option.bind_eq_some_iff, pure, Option.some.injEq] at collected
    obtain ⟨part, found, more, foundMore, rfl⟩ := collected
    rw [length_append]
    rcases mem_cons.mp member with rfl | member
    · exact ⟨part, found, by omega⟩
    · obtain ⟨part, found, shorter⟩ := ih foundMore member
      exact ⟨part, found, by omega⟩

/-- Every conversion of a format has a field. -/
theorem mem_fields (found : fields reading items ap = some fs) {c : Conversion}
    (member : .conv c ∈ items)
    : ∃ ap ap' field, c.field reading ap = some (field, ap') ∧ field ∈ fs := by
  induction items generalizing ap fs with
  | nil => cases member
  | cons item items ih =>
    cases item with
    | conv first =>
      simp only [fields, bind, Option.bind_eq_some_iff, pure, Option.some.injEq, Prod.exists]
        at found
      obtain ⟨field, ap', foundField, more, foundMore, rfl⟩ := found
      rcases mem_cons.mp member with same | member
      · cases same
        exact ⟨ap, ap', field, foundField, mem_cons_self⟩
      · obtain ⟨ap, ap', field, foundField, member⟩ := ih foundMore member
        exact ⟨ap, ap', field, foundField, mem_cons_of_mem _ member⟩
    | literal u =>
      obtain ⟨more, foundMore, rfl⟩ := Option.map_eq_some_iff.mp found
      obtain ⟨ap, ap', field, foundField, member⟩ :=
        ih foundMore ((mem_cons.mp member).resolve_left Item.noConfusion)
      exact ⟨ap, ap', field, foundField, mem_cons_of_mem _ member⟩
    | percent =>
      obtain ⟨more, foundMore, rfl⟩ := Option.map_eq_some_iff.mp found
      obtain ⟨ap, ap', field, foundField, member⟩ :=
        ih foundMore ((mem_cons.mp member).resolve_left Item.noConfusion)
      exact ⟨ap, ap', field, foundField, mem_cons_of_mem _ member⟩

/-- The text is at least as long as the text between the conversions. -/
theorem textSize_le (found : fields reading items ap = some fs)
    (collected : collect (Field.text texts) fs = some T)
    : textSize items ≤ T.length := by
  induction items generalizing ap fs T with
  | nil => exact Nat.zero_le _
  | cons item items ih =>
    have size : textSize (item :: items) = item.size + textSize items := rfl
    rw [size]
    cases item with
    | conv first =>
      simp only [fields, bind, Option.bind_eq_some_iff, pure, Option.some.injEq, Prod.exists]
        at found
      obtain ⟨field, ap', foundField, more, foundMore, rfl⟩ := found
      simp only [collect, bind, Option.bind_eq_some_iff, pure, Option.some.injEq] at collected
      obtain ⟨part, -, rest, collectedMore, rfl⟩ := collected
      have shorter := ih foundMore collectedMore
      rw [length_append, Item.size]
      omega
    | _ =>
      obtain ⟨more, foundMore, rfl⟩ := Option.map_eq_some_iff.mp found
      simp only [collect, bind, Option.bind_eq_some_iff, pure, Option.some.injEq,
        Field.text] at collected
      obtain ⟨part, rfl, rest, collectedMore, rfl⟩ := collected
      have shorter := ih foundMore collectedMore
      change 1 + textSize items ≤ _
      rw [length_append, length_singleton]
      omega

section

variable (format : PlainFormat texts items ap T)
include format

theorem PlainFormat.fields
    : ∃ fs, fields ownType items ap = some fs ∧ collect (Field.text texts) fs = some T :=
  Option.bind_eq_some_iff.mp format.text

/-- The widths, and the precisions of octal numbers, are no longer than the text. -/
theorem PlainFormat.amounts {c : Conversion} (member : .conv c ∈ items)
    : c.width.Fits ∧ (c.conv = .o → c.prec.Fits) := by
  obtain ⟨fs, found, collected⟩ := format.fields
  obtain ⟨ap1, ap', field, foundField, memberField⟩ := mem_fields found member
  obtain ⟨w, p, arg, ap2, ap3, rfl, width, prec, -⟩ := field_inv foundField
  obtain ⟨part, textOf, shorter⟩ := length_collect collected memberField
  obtain ⟨wide, octal⟩ := length_textOf (format.plain c member) textOf
  have short := format.short
  constructor
  · cases amount : c.width with
    | digits ds =>
      rw [amount] at width
      cases width
      change (ofDigits ds : Int) ≤ intMax
      have value : ((ofDigits ds : Int)).natAbs ≤ part.length := wide
      omega
    | _ => trivial
  · intro isOctal
    cases amount : c.prec with
    | digits ds =>
      rw [amount] at prec
      cases prec
      change (ofDigits ds : Int) ≤ intMax
      have value := octal isOctal _ rfl
      omega
    | _ => trivial

theorem PlainFormat.scannable : Scannable items := by
  obtain ⟨fs, found, collected⟩ := format.fields
  refine ⟨format.wellFormed, format.numbering, fun c member => (format.amounts member).1, ?_⟩
  have size := textSize_le found collected
  have short := format.short
  omega

theorem PlainFormat.octals : OctalsFit items := fun _ member => (format.amounts member).2

end

theorem argType_plain (m : Modifier) {conv : Conv} (plain : conv.isPlain = true)
    : argType m conv ≠ some .noarg := by
  cases conv <;> cases plain <;> cases m <;> decide

theorem environmental_plain {conv : Conv} (plain : conv.isPlain = true)
    : conv.environmental = false := by
  cases conv <;> first | rfl | cases plain

theorem PlainFormat.announced (format : PlainFormat texts items ap T) : Announced items := by
  rcases format.numbering with unnumbered | numbered
  · exact .inl unnumbered
  · by_cases any : items.any Item.announces = true
    · exact .inr any
    · refine .inl fun r member => ?_
      obtain ⟨item, memberItem, memberRef⟩ := mem_flatMap.mp member
      cases item with
      | conv c =>
        have wf : c.WellFormed := format.wellFormed _ memberItem
        obtain ⟨type, legal⟩ := Option.ne_none_iff_exists'.mp wf.legal
        have takes : type ≠ .noarg := by
          rintro rfl
          exact argType_plain c.modifier (format.plain c memberItem) legal
        obtain ⟨k, pos, -⟩ := numbered (c.pos, type) (mem_flatMap.mpr ⟨_, memberItem,
          mem_append_right _ (by
            rw [argReferences_arg legal takes]
            exact mem_cons_self)⟩)
        have announces : c.announces = true := by
          unfold Conversion.announces
          rw [show c.pos = some (k + 1) from pos]
          rfl
        exact absurd (any_eq_true.mpr ⟨_, memberItem, announces⟩) any
      | _ => cases memberRef

/-! What is counted and what is written -/

/-- No more is written than counted. -/
theorem length_written {field : Field F} {text written : List UInt8}
    (output : field.output texts = some text) (writes : field.written texts = some written)
    : written.length ≤ text.length := by
  unfold Field.output Field.printed at output
  split at output
  · cases output
  · split at output
    · cases output
    · cases field with
      | byte b =>
        cases output
        cases writes
        exact le_rfl
      | conv c w p arg =>
        dsimp only [Field.written, Field.text] at output writes
        split at writes
        case isTrue lost =>
          simp only [Bool.and_eq_true] at lost
          rw [textOf_wide lost.1.1, writes] at output
          cases output
          rw [length_justify]
          exact le_max_right _ _
        case isFalse =>
          rw [output] at writes
          cases writes
          exact le_rfl

private theorem length_collect_written {text written : List UInt8}
    (output : collect (Field.output texts) fs = some text)
    (writes : collect (Field.written texts) fs = some written)
    : written.length ≤ text.length := by
  induction fs generalizing text written with
  | nil =>
    cases output
    cases writes
    exact le_rfl
  | cons field fs ih =>
    simp only [collect, bind, Option.bind_eq_some_iff, pure, Option.some.injEq] at output writes
    obtain ⟨first, found, more, foundMore, rfl⟩ := output
    obtain ⟨firstWritten, writesFirst, moreWritten, writesMore, rfl⟩ := writes
    have short := length_written found writesFirst
    have shortMore := ih foundMore writesMore
    rw [length_append, length_append]
    omega

/-- The text as it is counted: arguments with numbers are read under the type of their last
reference.
-/
def countedText (texts : Texts F) (items : List Item) (ap : List (Va F)) : Option (List UInt8) :=
  (fields (lastType (references items)) items ap).bind (collect (Field.output texts))

def writtenText (texts : Texts F) (items : List Item) (ap : List (Va F)) : Option (List UInt8) :=
  (fields (lastType (references items)) items ap).bind (collect (Field.written texts))

section

variable (format : PlainFormat texts items ap T)
include format

/-- A format that refers to the argument with number 10 or above is refused. -/
theorem PlainFormat.formatted_far (far : Far (references items))
    : formatted env (itemBytes items) ap = some (-1, []) := by
  have scannable := format.scannable
  have numbers : ∀ r ∈ references items, ∃ k, r.1 = some (k + 1) := by
    rcases scannable.numbering with unnumbered | numbered
    · obtain ⟨r, member, k, number, -⟩ := far
      rw [unnumbered r member] at number
      cases number
    · intro r member
      obtain ⟨k, number, -⟩ := numbered r member
      exact ⟨k, number⟩
  obtain ⟨e, failed⟩ := scanLoop_far items scannable.wellFormed scannable.widths numbers far
    ((itemUnits items).length + 1) 0 0 ⟨false, fun _ => none, fun _ => none, ap⟩
    (Nat.lt_succ_self _) (by have text := scannable.text; omega)
  unfold formatted
  rw [units_itemBytes scannable.wellFormed, scanFormat, failed]

/-- Another format prints its text as it is counted and written. -/
theorem PlainFormat.formatted_near (near : ¬ Far (references items))
    : match countedText texts items ap with
      | none => ∀ result, formatted env (itemBytes items) ap = some result → result.1 = -1
      | some counted => ∃ written, writtenText texts items ap = some written
          ∧ written.length ≤ counted.length
          ∧ ((counted.length : Int) ≤ intMax →
            formatted env (itemBytes items) ap = some ((counted.length : Int), written))
          ∧ (intMax < counted.length →
            ∀ result, formatted env (itemBytes items) ap = some result → result.1 = -1) := by
  have scannable := format.scannable
  have wf := scannable.wellFormed
  obtain ⟨own, found, -⟩ := format.fields
  obtain ⟨⟨fs, foundLast⟩, keeps⟩ := exists_fields_lastType wf format.numbering found
  obtain ⟨core, scanned, holds⟩ := scannable.holds format.announced near found
  have gives : ∀ c, .conv c ∈ items → c.conv.environmental = true → env.Gives texts := by
    intro c member environmental
    rw [environmental_plain (format.plain c member)] at environmental
    cases environmental
  have prints := printLoop_fields (fun _ _ => ⟨rfl, fun _ => trivial⟩ : textSink.Takes fun _ => True)
    items wf gives format.octals keeps ((itemUnits items).length + 1) 0 0 _ ap fs []
    (Nat.lt_succ_self _) le_rfl le_rfl (by decide) trivial holds foundLast
  have run : formatted env (itemBytes items) ap
      = (asResult (printLoop env textSink ((itemUnits items).length + 1) 0 0 (itemUnits items)
          { core with l10n := false } []).1).map (fun ret => (ret,
            (printLoop env textSink ((itemUnits items).length + 1) 0 0 (itemUnits items)
              { core with l10n := false } []).2)) := by
    unfold formatted
    rw [scanned, units_itemBytes wf, itemBytes, length_map]
  generalize printLoop env textSink ((itemUnits items).length + 1) 0 0 (itemUnits items)
    { core with l10n := false } [] = result at prints run
  have fails : (∃ e, result.1 = .error e) →
      ∀ outcome, formatted env (itemBytes items) ap = some outcome → outcome.1 = -1 := by
    rintro ⟨e, failed⟩ outcome formats
    rw [run, failed] at formats
    cases e with
    | undefined => cases formats
    | errno e =>
      cases formats
      rfl
  unfold Prints at prints
  unfold countedText writtenText
  rw [foundLast, Option.bind_some]
  cases counted : collect (Field.output texts) fs with
  | none =>
    rw [counted] at prints
    exact fails prints
  | some counted' =>
    rw [counted] at prints
    obtain ⟨written, writes, fits, past⟩ := prints
    refine ⟨written, writes, length_collect_written counted writes, ?_, ?_⟩
    · intro short
      obtain ⟨pieces, same, flat⟩ := fits (by omega)
      rw [run, same, Sink.all, foldl_textSink, flat]
      simp [asResult]
    · intro long
      exact fails (past (by omega))

/-- What a plain format prints. -/
theorem PlainFormat.formatted_iff {n : Nat} {text : List UInt8}
    : formatted env (itemBytes items) ap = some ((n : Int), text)
      ↔ ¬ Far (references items) ∧ writtenText texts items ap = some text
        ∧ (n : Int) ≤ intMax ∧ ∃ counted, countedText texts items ap = some counted
          ∧ counted.length = n := by
  by_cases far : Far (references items)
  · rw [format.formatted_far far]
    refine iff_of_false ?_ fun printed => printed.1 far
    intro same
    cases same
  · have near := @PlainFormat.formatted_near F env texts items ap T format far
    cases counts : countedText texts items ap with
    | none =>
      rw [counts] at near
      refine iff_of_false (fun printed => ?_) ?_
      · have failed := near _ printed
        omega
      · rintro ⟨-, -, -, counted, same, -⟩
        cases same
    | some counted =>
      rw [counts] at near
      obtain ⟨written, writes, -, fits, past⟩ := near
      rw [writes]
      by_cases short : (counted.length : Int) ≤ intMax
      · rw [fits short]
        simp only [Option.some.injEq, Prod.mk.injEq, exists_eq_left', Nat.cast_inj]
        constructor
        · rintro ⟨rfl, rfl⟩
          exact ⟨far, rfl, short, rfl⟩
        · rintro ⟨-, rfl, -, rfl⟩
          exact ⟨rfl, rfl⟩
      · refine iff_of_false (fun printed => ?_) ?_
        · have failed := past (by omega) _ printed
          omega
        · rintro ⟨-, -, small, counted', same, rfl⟩
          cases same
          exact short small

end

/-! What is stored -/

/-- `__vsnprintf` returns the length of the text, stores as much of it as there is room for and a
terminator, and nothing else.
-/
def StoresText (env : Env F) (fmt : List UInt8) (ap : List (Va F)) (n : Nat) (T : List UInt8)
    : Prop :=
  ∀ (memory : Memory UInt8) (s : Nat), ∃ after,
    vsnprintf env memory s n fmt ap = some ((T.length : Int), after)
    ∧ (n ≠ 0 → after.slice s (min T.length (n - 1)) = T.take (n - 1)
      ∧ after (s + min T.length (n - 1)) = 0)
    ∧ ∀ a, a < s ∨ s + n ≤ a → after a = memory a

/-- `__vasprintf` returns the length of the text, which is in the memory that `malloc` gives. -/
def AllocatesText (env : Env F) (fmt : List UInt8) (ap : List (Va F)) (T : List UInt8) : Prop :=
  ∀ (malloc : Nat → Option Nat) (memory : Memory UInt8) (s : Nat), malloc (T.length + 1) = some s →
    ∃ after, vasprintf env malloc memory fmt ap = some ((T.length : Int), some (s, after))
    ∧ after.slice s (T.length + 1) = T ++ [0]

variable {fmt : List UInt8} {n : Nat}

def filled (b : UInt8) : Memory UInt8 := fun _ => b

theorem text_eq_of_stored {text : List UInt8} (short : text.length ≤ T.length) (s : Nat)
    (stored : ∀ b, (((filled b).store s text).store (s + T.length) [0]).slice s T.length = T)
    : text = T := by
  have whole : text.length = T.length := by
    by_contra different
    have inside : text.length < T.length := by omega
    have cell : ∀ b, T[text.length] = b := by
      intro b
      have found := stored b
      have bound : text.length < (slice (((filled b).store s text).store (s + T.length) [0]) s
          T.length).length := by
        rw [length_slice]
        exact inside
      have value := getElem_slice bound
      simp only [found] at value
      rw [value, store_outside (by omega), store_outside (by omega)]
      rfl
    have same : (1 : UInt8) = 2 := (cell 1).symm.trans (cell 2)
    exact absurd same (by decide)
  have found := stored 1
  rw [slice_store_disjoint (by omega), ← whole, slice_store_self] at found
  exact found

theorem vsnprintf_formatted (small : (n : Int) ≤ intMax) {L : Nat} (short : (L : Int) ≤ intMax)
    {text : List UInt8} (run : formatted env fmt ap = some ((L : Int), text))
    (memory : Memory UInt8) (s : Nat)
    : vsnprintf env memory s n fmt ap = some ((L : Int),
          if L < n then (memory.store s (text.take (n - 1))).store (s + L) [0]
          else memory.store s (text.take (n - 1))) := by
  have bound : intMax = 2147483647 := rfl
  have same : (L : Int) % 2 ^ 32 < n ↔ L < n := by omega
  rw [vsnprintf_eq env fmt ap memory s small, run]
  simp only [Option.map_some, same, Int.toNat_natCast]

/-- A result that is no error is that of `printf_core`. -/
theorem formatted_of_vsnprintf {L s : Nat} {memory after : Memory UInt8}
    (called : vsnprintf env memory s n fmt ap = some ((L : Int), after))
    : ∃ text, formatted env fmt ap = some ((L : Int), text) := by
  by_cases small : (n : Int) ≤ intMax
  · rw [vsnprintf_eq env fmt ap _ _ small] at called
    obtain ⟨⟨ret, text⟩, run, same⟩ := Option.map_eq_some_iff.mp called
    obtain ⟨rfl, -⟩ := Prod.mk.inj same
    exact ⟨text, run⟩
  · rw [vsnprintf, if_neg small] at called
    cases called

/-- The text is stored if and only if it is formatted and fits, or no room is given. -/
theorem storesText_iff (small : (n : Int) ≤ intMax) (short : (T.length : Int) ≤ intMax)
    (bounded : ∀ text, formatted env fmt ap = some ((T.length : Int), text) →
      text.length ≤ T.length)
    : StoresText env fmt ap n T ↔ ∃ text, formatted env fmt ap = some ((T.length : Int), text)
        ∧ (n = 0 ∨ T.length < n ∧ text = T) := by
  constructor
  · intro stores
    obtain ⟨after, called, rest⟩ := stores (filled 1) 0
    obtain ⟨text, run⟩ := formatted_of_vsnprintf called
    refine ⟨text, run, or_iff_not_imp_left.mpr fun nonzero => ?_⟩
    have call := vsnprintf_formatted small short run
    have fits : T.length < n := by
      by_contra long
      obtain ⟨after, called, stored, -⟩ := stores (filled 1) 0
      rw [call, if_neg long] at called
      cases called
      have terminated := (stored nonzero).2
      rw [store_outside (by rw [length_take]; omega)]
        at terminated
      exact absurd (show (1 : UInt8) = 0 from terminated) (by decide)
    refine ⟨fits, text_eq_of_stored (bounded text run) 0 fun b => ?_⟩
    obtain ⟨after, called, stored, -⟩ := stores (filled b) 0
    rw [call, if_pos fits] at called
    cases called
    have text := (stored nonzero).1
    rw [take_of_length_le (by have := bounded _ run; omega), Nat.min_eq_left (by omega),
      take_of_length_le (by omega)] at text
    exact text
  · rintro ⟨text, run, room⟩ memory s
    refine ⟨_, vsnprintf_formatted small short run memory s, ?_, ?_⟩
    · intro nonzero
      obtain ⟨fits, rfl⟩ := room.resolve_left nonzero
      rw [if_pos fits, take_of_length_le (by omega), Nat.min_eq_left (by omega),
        slice_store_disjoint (by omega), slice_store_self, store_singleton, if_pos rfl]
      exact ⟨rfl, rfl⟩
    · intro a outside
      have part : (text.take (n - 1)).length ≤ n - 1 := length_take_le _ _
      split
      case isTrue inside =>
        rw [store_outside (by rw [length_singleton]; omega), store_outside (by omega)]
      case isFalse beyond => rw [store_outside (by omega)]

private theorem vasprintf_formatted {L s : Nat} (short : (L : Int) < intMax) {text : List UInt8}
    (run : formatted env fmt ap = some ((L : Int), text)) {malloc : Nat → Option Nat}
    (allocated : malloc (L + 1) = some s) (memory : Memory UInt8)
    : vasprintf env malloc memory fmt ap
      = some ((L : Int), some (s, (memory.store s (text.take L)).store (s + L) [0])) := by
  have first := @vsnprintf_formatted _ env ap fmt 0 (by decide) L (by omega) text run memory 0
  have second := @vsnprintf_formatted _ env ap fmt (L + 1) (by omega) L (by omega) text run memory s
  rw [if_pos (by omega)] at second
  unfold vasprintf
  rw [first, Option.bind_eq_bind, Option.bind_some]
  dsimp only
  rw [Int.toNat_natCast, allocated]
  dsimp only
  rw [second]
  rfl

theorem formatted_of_vasprintf {L s : Nat} {memory after : Memory UInt8} {malloc : Nat → Option Nat}
    (called : vasprintf env malloc memory fmt ap = some ((L : Int), some (s, after)))
    : ∃ text, formatted env fmt ap = some ((L : Int), text) := by
  simp only [vasprintf, bind, Option.bind_eq_some_iff, Prod.exists] at called
  obtain ⟨l, -, -, called⟩ := called
  split at called
  · cases called
  · split at called
    · cases called
    · obtain ⟨⟨ret, stored⟩, second, same⟩ := Option.bind_eq_some_iff.mp called
      have equal : ret = (L : Int) := (Prod.mk.inj (Option.some.inj same)).1
      rw [equal] at second
      exact formatted_of_vsnprintf second

private theorem allocatesText_iff (short : (T.length : Int) < intMax)
    (bounded : ∀ text, formatted env fmt ap = some ((T.length : Int), text) →
      text.length ≤ T.length)
    : AllocatesText env fmt ap T ↔ formatted env fmt ap = some ((T.length : Int), T) := by
  constructor
  · intro allocates
    obtain ⟨after, called, rest⟩ := allocates (fun _ => some 0) (filled 1) 0 rfl
    obtain ⟨text, run⟩ := formatted_of_vasprintf called
    have stored : ∀ b, (((filled b).store 0 text).store (0 + T.length) [0]).slice 0 T.length = T := by
      intro b
      obtain ⟨after, called, stored⟩ := allocates (fun _ => some 0) (filled b) 0 rfl
      rw [vasprintf_formatted short run
        (show (fun _ : Nat => some 0) (T.length + 1) = some 0 from rfl)] at called
      cases called
      rw [take_of_length_le (bounded text run), slice_add] at stored
      exact (append_inj stored length_slice).1
    rw [run, text_eq_of_stored (bounded text run) 0 stored]
  · intro run malloc memory s allocated
    refine ⟨_, vasprintf_formatted short run allocated memory, ?_⟩
    rw [take_length, store_store_append]
    have whole : (T ++ [(0 : UInt8)]).length = T.length + 1 := length_append
    rw [← whole, slice_store_self]

/-- `__vsnprintf` and `__vasprintf` store the text when no argument has a number above 9, the text
is counted right, it fits where there is room for anything, and all of it is written.
-/
theorem vsnprintf_storesText_iff (env : Env F) (format : PlainFormat texts items ap T)
    (small : (n : Int) ≤ intMax)
    : (StoresText env (itemBytes items) ap n T
        ∧ ((T.length : Int) < intMax → AllocatesText env (itemBytes items) ap T))
      ↔ ¬ Far (references items)
        ∧ (∃ counted, countedText texts items ap = some counted ∧ counted.length = T.length)
        ∧ (n = 0 ∨ T.length < n)
        ∧ (n ≠ 0 ∨ (T.length : Int) < intMax → writtenText texts items ap = some T) := by
  have short := format.short
  have printed := fun text => @PlainFormat.formatted_iff F env texts items ap T format T.length text
  have bounded : ∀ text, formatted env (itemBytes items) ap = some ((T.length : Int), text) →
      text.length ≤ T.length := by
    intro text run
    obtain ⟨near, writes, -, counted, counts, length⟩ := (printed text).mp run
    have found := @PlainFormat.formatted_near F env texts items ap T format near
    rw [counts] at found
    obtain ⟨written, writes', shorter, -⟩ := found
    rw [writes] at writes'
    cases writes'
    omega
  rw [storesText_iff small short bounded]
  constructor
  · rintro ⟨⟨text, run, room⟩, allocates⟩
    obtain ⟨near, writes, -, counted⟩ := (printed text).mp run
    refine ⟨near, counted, room.imp_right And.left, ?_⟩
    rintro (nonzero | below)
    · rw [writes, (room.resolve_left nonzero).2]
    · exact ((printed T).mp ((allocatesText_iff below bounded).mp (allocates below))).2.1
  · rintro ⟨near, counted, room, writes⟩
    have whole : n ≠ 0 ∨ (T.length : Int) < intMax →
        formatted env (itemBytes items) ap = some ((T.length : Int), T) :=
      fun needed => (printed T).mpr ⟨near, writes needed, short, counted⟩
    refine ⟨?_, fun below => (allocatesText_iff below bounded).mpr (whole (.inr below))⟩
    by_cases zero : n = 0
    · obtain ⟨counted', counts, length⟩ := counted
      have found := @PlainFormat.formatted_near F env texts items ap T format near
      rw [counts] at found
      obtain ⟨written, writes', -⟩ := found
      exact ⟨written, (printed written).mpr ⟨near, writes', short, counted', counts, length⟩,
        .inl zero⟩
    · exact ⟨T, whole (.inl zero), .inr ⟨room.resolve_left zero, rfl⟩⟩

/-- `%s` -/
def stringItems : List Item := [.conv ⟨none, [], .none, .none, .none, .s⟩]

def noTexts : Texts Unit := ⟨fun _ _ _ _ _ => [], []⟩

theorem plainFormat_heyho
    : PlainFormat noTexts stringItems [.ptr ⟨8, .bytes heyho, by decide⟩] heyho := by
  refine ⟨?_, ?_, .inl ?_, by decide +kernel, by decide⟩
  · intro item member
    rw [mem_singleton.mp member]
    exact ⟨trivial, trivial, by decide, by decide⟩
  · intro c member
    cases mem_singleton.mp member
    rfl
  · intro r member
    rw [mem_singleton.mp member]

/-- The string `heyho` in eight bytes. -/
theorem vsnprintf_storesText_eight
    : StoresText plainEnv (itemBytes stringItems) [.ptr ⟨8, .bytes heyho, by decide⟩] 8 heyho := by
  refine ((vsnprintf_storesText_iff plainEnv plainFormat_heyho (by decide)).mpr ?_).1
  refine ⟨?_, ⟨heyho, by decide +kernel, rfl⟩, .inr (by decide), fun _ => by decide +kernel⟩
  rintro ⟨r, member, k, number, -⟩
  rw [mem_singleton.mp member] at number
  cases number

/-- In four bytes it has no terminator. -/
theorem vsnprintf_unterminated
    : ¬ StoresText plainEnv (itemBytes stringItems) [.ptr ⟨8, .bytes heyho, by decide⟩] 4 heyho := by
  intro stores
  obtain ⟨after, called, stored, -⟩ := stores (filled 1) 100
  cases called
  have terminated := (stored (by decide)).2
  exact absurd terminated (by decide)

end Nglibc.Stdio
