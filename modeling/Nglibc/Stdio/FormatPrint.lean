import Nglibc.Stdio.FormatConvert
import Nglibc.Stdio.FormatScan

/-! The second pass of `printf_core` writes the text of a format, piece by piece. -/

namespace Nglibc.Stdio

open List

variable {F σ : Type} {env : Env F} {sink : Sink σ} {texts : Texts F} {reading : TypeReading}
  {refs : List (Option Nat × ArgType)} {ap ap' : List (Va F)} {core : Core F}

/-- A width above `INT_MAX` is not accepted. -/
def Field.tooWide : Field F → Bool
  | .byte _ => false
  | .conv _ w _ _ => decide (intMax < w.natAbs)

def Field.output (texts : Texts F) (field : Field F) : Option (List UInt8) :=
  if field.tooWide then none else field.printed texts

def Sink.Takes (sink : Sink σ) (good : σ → Prop) : Prop :=
  ∀ s, good s → sink.err s = false ∧ ∀ bytes, good (sink.out bytes s)

/-- The pieces of a text, written one after the other. -/
def Sink.all (sink : Sink σ) (pieces : List (List UInt8)) (s : σ) : σ :=
  pieces.foldl (fun s piece => sink.out piece s) s

theorem Sink.all_append (first rest : List (List UInt8)) (s : σ)
    : sink.all (first ++ rest) s = sink.all rest (sink.all first s) := foldl_append

theorem Sink.Takes.all {good : σ → Prop} (takes : sink.Takes good) (pieces : List (List UInt8))
    {s : σ} (start : good s)
    : good (sink.all pieces s) := by
  induction pieces generalizing s with
  | nil => exact start
  | cons piece pieces ih => exact ih ((takes s start).2 piece)

/-! The fields of a format -/

def TypeReading.Keeps (reading : TypeReading) (refs : List (Option Nat × ArgType)) : Prop :=
  ∀ k type, (some k, type) ∈ refs → (reading k type).kind = type.kind

theorem popArg_kind {type : ArgType} {arg : Arg F} (popped : popArg type ap = some (arg, ap'))
    : arg.kind = type.kind := by
  unfold popArg at popped
  split at popped <;> cases popped <;> rfl

private theorem argument_takes {c : Conversion} (wf : c.WellFormed) (keeps : reading.Keeps c.argReferences)
    {arg : Option (Arg F)} (argument : c.argument reading ap = some (arg, ap'))
    : c.Takes arg := by
  obtain ⟨type, legal⟩ := Option.ne_none_iff_exists'.mp wf.legal
  by_cases takes : type = .noarg
  · subst takes
    unfold Conversion.argument at argument
    rw [legal] at argument
    unfold Conversion.Takes
    rw [legal]
    simp only [Option.some.injEq, Prod.mk.injEq] at argument
    exact argument.1.symm
  · have shape : ∃ a, arg = some a ∧ a.kind = type.kind := by
      rw [argument_arg legal takes] at argument
      rw [argReferences_arg legal takes] at keeps
      cases pos : c.pos with
      | none =>
        rw [pos] at argument
        obtain ⟨⟨value, left⟩, popped, equal⟩ := Option.map_eq_some_iff.mp argument
        obtain ⟨rfl, -⟩ : some value = arg ∧ left = ap' := by simpa using equal
        exact ⟨value, rfl, popArg_kind popped⟩
      | some k =>
        rw [pos] at argument keeps
        obtain ⟨⟨value, left⟩, popped, equal⟩ := Option.map_eq_some_iff.mp argument
        obtain ⟨rfl, -⟩ : some value = arg ∧ ap = ap' := by simpa using equal
        refine ⟨value, rfl, ?_⟩
        rw [popArg_kind popped, keeps k type mem_cons_self]
    unfold Conversion.Takes
    rw [legal]
    cases type <;> first | exact shape | exact absurd rfl takes

/-- The values of widths and precisions, except those in digits, are those of an `int`. -/
theorem value_bounds {amount : Amount} {v : Option Int}
    (value : amount.value reading ap = some (v, ap'))
    : ∀ n, v = some n → -(2 ^ 31) ≤ n ∧ (n ≤ intMax ∨ ∃ ds, amount = .digits ds ∧ n = ofDigits ds) := by
  intro n same
  subst same
  cases amount with
  | none =>
    cases value
  | digits ds =>
    obtain ⟨rfl, -⟩ := value
    exact ⟨by omega, .inr ⟨ds, rfl, rfl⟩⟩
  | next =>
    cases ap with
    | nil => cases value
    | cons first left =>
      cases first with
      | int m =>
        cases value
        exact ⟨by have := BitVec.le_toInt m; omega, .inl (toInt_le_intMax m)⟩
      | _ => cases value
  | numbered k =>
    rw [Amount.value] at value
    split at value <;> cases value
    rename_i m left popped
    exact ⟨by have := BitVec.le_toInt (m.setWidth 32); omega, .inl (toInt_le_intMax _)⟩

theorem field_inv {c : Conversion} {field : Field F}
    (found : c.field reading ap = some (field, ap'))
    : ∃ w p arg ap1 ap2, field = .conv c (w.getD 0) p arg
      ∧ c.width.value reading ap = some (w, ap1) ∧ c.prec.value reading ap1 = some (p, ap2)
      ∧ c.argument reading ap2 = some (arg, ap') := by
  simp only [Conversion.field, bind, Option.bind_eq_some_iff, pure, Option.some.injEq,
    Prod.mk.injEq, Prod.exists] at found
  obtain ⟨w, ap1, width, p, ap2, prec, arg, ap3, argument, rfl, rfl⟩ := found
  exact ⟨w, p, arg, ap1, ap2, rfl, width, prec, argument⟩

private theorem fields_text {chunk : List Item} (text : ∀ item ∈ chunk, item.IsText) (rest : List Item)
    : fields reading (chunk ++ rest) ap
      = (fields reading rest ap).map (fun more => (chunkBytes chunk).map Field.byte ++ more) := by
  induction chunk with
  | nil => simp [chunkBytes]
  | cons item chunk ih =>
    have isText := text item mem_cons_self
    have rest := ih (fun item member => text item (mem_cons_of_mem _ member))
    cases item with
    | conv c => exact isText.elim
    | literal u =>
      rw [cons_append, fields, rest, Option.map_map]
      rfl
    | percent =>
      rw [cons_append, fields, rest, Option.map_map]
      rfl

theorem collect_bytes {text : Field F → Option (List UInt8)} (byte : ∀ b, text (.byte b) = some [b])
    (bytes : List UInt8) (more : List (Field F))
    : collect text (bytes.map Field.byte ++ more) = (collect text more).map (fun t => bytes ++ t) := by
  induction bytes with
  | nil => simp
  | cons b bytes ih =>
    rw [map_cons, cons_append, collect, byte, ih]
    cases collect text more <;> rfl

/-! The second pass -/

/-- What the second pass does with fields, `cnt` bytes behind the start: it writes their text
and returns its length, or fails if there is a field without a text or if the text is too long.
-/
def Prints (texts : Texts F) (sink : Sink σ) (fs : List (Field F)) (cnt : Int) (s : σ)
    (result : Except Fault Int × σ)
    : Prop :=
  match collect (Field.output texts) fs with
  | none => ∃ e, result.1 = .error e
  | some text =>
    ∃ written, collect (Field.written texts) fs = some written
      ∧ (cnt + text.length ≤ intMax → ∃ pieces,
        result = (.ok (cnt + text.length), sink.all pieces s) ∧ pieces.flatten = written)
      ∧ (intMax < cnt + text.length → ∃ e, result.1 = .error e)

variable {fs : List (Field F)} {cnt : Int} {s : σ} {result : Except Fault Int × σ}

private theorem written_of_output {field : Field F} {text : List UInt8}
    (output : field.output texts = some text)
    : ∃ written, field.written texts = some written := by
  unfold Field.output Field.printed at output
  split at output
  · cases output
  · split at output
    · cases output
    · cases field with
      | byte b => exact ⟨[b], rfl⟩
      | conv c w p arg =>
        dsimp only [Field.written, Field.text] at output ⊢
        by_cases lost : (c.wide && (c.layout w p).zero && !(c.layout w p).left) = true
        · rw [if_pos lost]
          simp only [Bool.and_eq_true] at lost
          rw [textOf_wide lost.1.1] at output
          obtain ⟨bytes, found, -⟩ := Option.map_eq_some_iff.mp output
          exact ⟨bytes, found⟩
        · rw [if_neg lost]
          exact ⟨text, output⟩

theorem collect_written {text : List UInt8} (output : collect (Field.output texts) fs = some text)
    : ∃ written, collect (Field.written texts) fs = some written := by
  induction fs generalizing text with
  | nil => exact ⟨[], rfl⟩
  | cons field fs ih =>
    simp only [collect, bind, Option.bind_eq_some_iff] at output
    obtain ⟨first, found, more, foundMore, -⟩ := output
    obtain ⟨written, writes⟩ := written_of_output found
    obtain ⟨rest, writesRest⟩ := ih foundMore
    exact ⟨written ++ rest, by simp only [collect, bind, Option.bind, writes, writesRest]; rfl⟩

theorem Prints.fails {e : Fault} (failed : result.1 = .error e)
    (rightly : ∀ text, collect (Field.output texts) fs = some text → intMax < cnt + text.length)
    : Prints texts sink fs cnt s result := by
  unfold Prints
  cases output : collect (Field.output texts) fs with
  | none => exact ⟨e, failed⟩
  | some text =>
    have long := rightly text output
    obtain ⟨written, found⟩ := collect_written output
    exact ⟨written, found, fun room => absurd room (by omega), fun _ => ⟨e, failed⟩⟩

/-- A first part of the text in front of the rest. -/
theorem Prints.cons {first : List (Field F)} {text written : List UInt8}
    (pieces : List (List UInt8)) (output : ∀ more, collect (Field.output texts) (first ++ more)
      = (collect (Field.output texts) more).map (fun t => text ++ t))
    (writes : ∀ more, collect (Field.written texts) (first ++ more)
      = (collect (Field.written texts) more).map (fun t => written ++ t))
    (same : pieces.flatten = written)
    (rest : Prints texts sink fs (cnt + text.length) (sink.all pieces s) result)
    : Prints texts sink (first ++ fs) cnt s result := by
  unfold Prints at rest ⊢
  rw [output fs]
  cases found : collect (Field.output texts) fs with
  | none =>
    rw [found] at rest
    exact rest
  | some more =>
    rw [found] at rest
    obtain ⟨writtenMore, writesMore, fits, past⟩ := rest
    have length : (text ++ more).length = text.length + more.length := length_append
    refine ⟨written ++ writtenMore, by rw [writes fs, writesMore]; rfl, ?_, ?_⟩
    · intro room
      rw [length] at room
      obtain ⟨piecesMore, run, flat⟩ := fits (by omega)
      refine ⟨pieces ++ piecesMore, ?_, by rw [flatten_append, same, flat]⟩
      rw [run, Sink.all_append, length]
      congr 2
      omega
    · intro long
      rw [length] at long
      exact past (by omega)

/-- Once the count is too large the pass fails. -/
theorem printLoop_over {fuel : Nat} {l : Int} (past : l > intMax - cnt) (fmt : List Nat)
    : (printLoop env sink (fuel + 1) cnt l fmt core s).1 = .error (.errno .eoverflow) := by
  rw [printLoop, if_pos past]

/-- The octal conversions have no precision above `INT_MAX`. -/
def OctalsFit (items : List Item) : Prop := ∀ c, .conv c ∈ items → c.conv = .o → c.prec.Fits

/-- What a conversion of the second pass is given. -/
theorem field_outcome {c : Conversion} (gives : c.conv.environmental = true → env.Gives texts)
    (wf : c.WellFormed)
    (octal : c.conv = .o → c.prec.Fits) (keeps : reading.Keeps c.argReferences)
    {w : Int} {p : Option Int} {arg : Option (Arg F)}
    (found : c.field reading ap = some (.conv c w p arg, ap'))
    (small : (w.natAbs : Int) ≤ intMax) (start : 0 ≤ cnt)
    : (Field.conv c w p arg).Outcome texts cnt (convert env cnt (c.directive w p) arg) := by
  obtain ⟨w', p', arg', ap1, ap2, same, width, prec, argument⟩ := field_inv found
  obtain ⟨-, rfl, rfl, rfl⟩ := Field.conv.inj same
  refine convert_outcome gives (argument_takes wf keeps argument) small ?_ ?_ start
  · cases p with
    | none => decide
    | some n =>
      have bounds := (value_bounds prec n rfl).1
      rw [precisionInt]
      split
      · omega
      · decide
  · intro isOctal n precision
    have fits := octal isOctal
    cases p with
    | none => cases precision
    | some m =>
      have value : (n : Int) = m := by
        simp only [layoutPrecision, Option.bind_some] at precision
        split at precision
        · cases precision
        · cases precision
          omega
      rcases (value_bounds prec m rfl).2 with small | ⟨ds, digits, same⟩
      · omega
      · rw [digits] at fits
        change (ofDigits ds : Int) ≤ intMax at fits
        omega

/-- The second pass prints the fields of these items, wherever they begin in the output. -/
def PassPrints (env : Env F) (sink : Sink σ) (texts : Texts F) (reading : TypeReading)
    (good : σ → Prop) (items : List Item) : Prop :=
  (∀ c, .conv c ∈ items → c.conv.environmental = true → env.Gives texts) →
  OctalsFit items → reading.Keeps (references items) →
  ∀ (fuel : Nat) (cnt l : Int) (core : Core F) (ap : List (Va F)) (fs : List (Field F)) (s : σ),
  (itemUnits items).length < fuel → 0 ≤ cnt → 0 ≤ l → cnt + l ≤ intMax → good s →
  core.Holds reading (references items) ap → fields reading items ap = some fs →
  Prints texts sink fs (cnt + l) s (printLoop env sink fuel cnt l (itemUnits items) core s)

variable {good : σ → Prop}

theorem passPrints_nil : PassPrints env sink texts reading good [] := by
  intro _ _ _ fuel cnt l core ap fs s fuelled _ _ room _ _ found
  obtain ⟨fuel, rfl⟩ : ∃ n, fuel = n + 1 := Nat.exists_eq_succ_of_ne_zero (by omega)
  cases found
  refine ⟨[], rfl, fun _ => ⟨[], ?_, rfl⟩, fun long => ?_⟩
  · refine printLoop_nil.trans ?_
    rw [if_neg (by omega)]
    simp [Sink.all]
  · simp only [length_nil] at long
    omega

/-- One more stretch of text, copied as it is. -/
theorem passPrints_text (takes : sink.Takes good) {chunk rest : List Item} (nonempty : chunk ≠ [])
    (text : ∀ item ∈ chunk, item.IsText) (split : nextChunk (chunk ++ rest) = (chunk, rest))
    (wf : ∀ item ∈ chunk ++ rest, item.WellFormed) (ih : PassPrints env sink texts reading good rest)
    : PassPrints env sink texts reading good (chunk ++ rest) := by
  intro gives octals keeps fuel cnt l core ap fs s fuelled startCnt startL room isGood holds found
  obtain ⟨refs, -⟩ := references_text text rest
  obtain ⟨-, shorter⟩ := itemUnits_ne_nil nonempty rest
  obtain ⟨fuel, rfl⟩ : ∃ n, fuel = n + 1 := Nat.exists_eq_succ_of_ne_zero (by omega)
  rw [refs] at keeps holds
  rw [fields_text text] at found
  obtain ⟨more, foundMore, rfl⟩ := Option.map_eq_some_iff.mp found
  have length : (chunkBytes chunk).length = chunk.length := by simp [chunkBytes]
  have output := @collect_bytes F (Field.output texts) (fun b => rfl) (chunkBytes chunk)
  have writes := @collect_bytes F (Field.written texts) (fun b => rfl) (chunkBytes chunk)
  rw [printLoop_text nonempty (readLiteral_text split wf)]
  by_cases long : (chunk.length : Int) > intMax - (cnt + l)
  · rw [if_pos (.inr long)]
    refine Prints.fails rfl (fun text' whole => ?_)
    rw [output] at whole
    obtain ⟨tail, -, rfl⟩ := Option.map_eq_some_iff.mp whole
    rw [length_append]
    omega
  · rw [if_neg (not_or.mpr ⟨by omega, long⟩)]
    refine Prints.cons [chunkBytes chunk] output writes (by simp) ?_
    rw [length]
    exact ih (fun c member => gives c (mem_append_right _ member))
      (fun c member => octals c (mem_append_right _ member)) keeps fuel (cnt + l)
      chunk.length core ap more _ (by omega) (by omega) (by omega) (by omega)
      ((takes s isGood).2 _) holds foundMore

theorem collect_field {f : Field F → Option (List UInt8)} {field : Field F} {text : List UInt8}
    (found : f field = some text) (more : List (Field F))
    : collect f ([field] ++ more) = (collect f more).map (fun t => text ++ t) := by
  simp only [singleton_append, collect, found, bind, Option.bind_some]
  cases collect f more <;> rfl

/-- A conversion whose width is no `int` has no output. -/
theorem output_wide {c : Conversion} {w p : Option Int} {arg : Option (Arg F)}
    (wide : ¬ ((w.getD 0).natAbs : Int) ≤ intMax)
    : (Field.conv c (w.getD 0) p arg).output texts = none := by
  unfold Field.output
  rw [if_pos]
  simpa [Field.tooWide] using wide

theorem output_printed {c : Conversion} {w p : Option Int} {arg : Option (Arg F)}
    (small : ((w.getD 0).natAbs : Int) ≤ intMax)
    : (Field.conv c (w.getD 0) p arg).output texts
      = (Field.conv c (w.getD 0) p arg).printed texts := by
  have accepts : (Field.conv c (w.getD 0) p arg).tooWide = false := by
    simpa [Field.tooWide] using small
  unfold Field.output
  rw [accepts]
  rfl

/-- One more conversion, with the width and precision its arguments give. -/
theorem passPrints_conv (takes : sink.Takes good) {c : Conversion} {rest : List Item}
    (wf : ∀ item ∈ Item.conv c :: rest, item.WellFormed)
    (ih : PassPrints env sink texts reading good rest)
    : PassPrints env sink texts reading good (.conv c :: rest) := by
  intro gives octals keeps fuel cnt l core ap fs s fuelled startCnt startL room isGood holds found
  have wfConv : c.WellFormed := wf _ mem_cons_self
  obtain ⟨-, shorter⟩ := itemUnits_ne_nil (cons_ne_nil (.conv c) []) rest
  rw [singleton_append] at shorter
  obtain ⟨fuel, rfl⟩ : ∃ n, fuel = n + 1 := Nat.exists_eq_succ_of_ne_zero (by omega)
  simp only [fields, bind, Option.bind_eq_some_iff, pure, Option.some.injEq, Prod.exists] at found
  obtain ⟨field, ap', foundField, more, foundMore, rfl⟩ := found
  obtain ⟨w, p, arg, -, -, rfl, -⟩ := field_inv foundField
  have reads := readDirective_units wfConv holds (fun r member => mem_append_left _ member)
    foundField (itemUnits rest)
  rw [printLoop_conv (readLiteral_conv wf), if_neg (by omega)]
  by_cases small : ((w.getD 0).natAbs : Int) ≤ intMax
  · obtain ⟨core1, core2, directive, fetched, holds2⟩ := reads.1 small
    have goodOut := (takes s isGood).2 []
    have outputs := @output_printed F texts c w p arg small
    have outcome := field_outcome (gives c mem_cons_self) wfConv (octals c mem_cons_self)
      (fun k type member => keeps k type (mem_append_left _ (mem_append_right _ member)))
      foundField small (show 0 ≤ cnt + l by omega)
    rw [directive]
    simp only [fetched, printDirective]
    rw [if_neg (by rw [(takes _ goodOut).1]; exact Bool.false_ne_true)]
    unfold Field.Outcome at outcome
    cases printed : (Field.conv c (w.getD 0) p arg).printed texts with
    | none =>
      rw [printed] at outcome
      obtain ⟨e, failed⟩ := outcome
      rw [failed]
      refine Prints.fails rfl (fun text whole => ?_)
      simp only [collect, bind, outputs, printed, Option.bind_none] at whole
      cases whole
    | some text =>
      rw [printed] at outcome
      obtain ⟨written, writes, fits, past⟩ := outcome
      have outputMore := collect_field (outputs.trans printed)
      by_cases room' : cnt + l + text.length ≤ intMax
      · obtain ⟨pieces, converted, flat⟩ := fits room'
        rw [converted]
        refine Prints.cons ([] :: pieces) outputMore (collect_field writes) (by simpa using flat) ?_
        exact ih (fun c member => gives c (mem_cons_of_mem _ member))
          (fun c member => octals c (mem_cons_of_mem _ member))
          (fun k type member => keeps k type (mem_append_right _ member)) fuel (cnt + l)
          text.length core2 ap' more _ (by omega) (by omega) (by omega) room'
          (takes.all pieces goodOut)
          (holds2.mono (fun r member => mem_append_right _ member)) foundMore
      · have tooLong : ∀ whole, collect (Field.output texts)
            (Field.conv c (w.getD 0) p arg :: more) = some whole →
            intMax < cnt + l + whole.length := by
          intro whole found
          rw [← singleton_append, outputMore] at found
          obtain ⟨tail, -, rfl⟩ := Option.map_eq_some_iff.mp found
          rw [length_append]
          omega
        rcases past (by omega) with ⟨e, failed⟩ | ⟨pieces, l', converted, beyond⟩
        · rw [failed]
          exact Prints.fails rfl tooLong
        · rw [converted]
          obtain ⟨fuel, rfl⟩ : ∃ n, fuel = n + 1 := Nat.exists_eq_succ_of_ne_zero (by omega)
          exact Prints.fails (printLoop_over beyond _) tooLong
  · rw [reads.2 (by omega)]
    refine Prints.fails rfl (fun text whole => ?_)
    simp only [collect, bind, output_wide small, Option.bind_none] at whole
    cases whole

/-- The second pass over a format, by its rounds. -/
theorem printLoop_fields (takes : sink.Takes good) (items : List Item)
    (wf : ∀ item ∈ items, item.WellFormed)
    : PassPrints env sink texts reading good items :=
  items_induction passPrints_nil
    (fun _ _ nonempty text split wf ih => passPrints_text takes nonempty text split wf ih)
    (fun _ _ wf ih => passPrints_conv takes wf ih) items wf

end Nglibc.Stdio
