import Nglibc.Stdio.FormatPrint

/-! The integer conversions of `printf_core` write and count what the C standard prescribes, except
octal ones with the flag `#` and a precision above `INT_MAX`.
-/

namespace Nglibc.Stdio

variable {F : Type}

def byteSink : Sink (List UInt8) where
  out bytes s := s ++ bytes
  err _ := false

theorem byteSink_all (pieces : List (List UInt8)) (s : List UInt8)
    : byteSink.all pieces s = s ++ pieces.flatten := by
  induction pieces generalizing s with
  | nil => simp [Sink.all]
  | cons piece pieces ih =>
    change byteSink.all pieces (s ++ piece) = _
    rw [ih, List.flatten_cons, List.append_assoc]

/-- The width of the type that a length modifier names. -/
def Modifier.bits : Modifier → Nat
  | .hh => 8
  | .h => 16
  | .none => 32
  | _ => 64

/-- An integer as an argument. The types below `int` are promoted. -/
def Conversion.va (c : Conversion) (x : BitVec 64) : Va F :=
  if c.modifier.bits ≤ 32 then .int (x.setWidth 32) else .word x

/-- The arguments for the width, the precision and the value. -/
def Conversion.integerArgs (c : Conversion) (w p : BitVec 32) (x : BitVec 64) : List (Va F) :=
  (if c.width = .next then [.int w] else []) ++ (if c.prec = .next then [.int p] else [])
    ++ [c.va x]

/-- The number that a width or a precision stands for, where `n` is the argument for `*`. -/
def Amount.number (amount : Amount) (n : BitVec 32) : Option Int :=
  match amount with
  | .digits ds => some (ofDigits ds)
  | .next => some n.toInt
  | _ => Option.none

def Conversion.integerText (c : Conversion) (w p : BitVec 32) (x : BitVec 64) : List UInt8 :=
  let lay := c.layout ((c.width.number w).getD 0) (c.prec.number p)
  let value := x.setWidth c.modifier.bits
  match c.conv with
  | .d | .i => lay.signed value.toInt
  | .o => lay.octal value.toNat
  | .x => lay.hex false value.toNat
  | .bigX => lay.hex true value.toNat
  | _ => lay.number lay.least [] (numeral 10 false value.toNat)

def Conv.IsInteger (conv : Conv) : Prop :=
  conv = .d ∨ conv = .i ∨ conv = .u ∨ conv = .o ∨ conv = .x ∨ conv = .bigX

/-- A conversion of an integer whose arguments have no numbers. Its width is an `int`, and not
`INT_MIN`.
-/
structure Conversion.IsInteger (c : Conversion) (w : BitVec 32) : Prop where
  conv : c.conv.IsInteger
  pos : c.pos = none
  modifier : c.modifier ≠ .bigL
  width : c.width.IsWidth ∧ ∀ k, c.width ≠ .numbered k
  prec : c.prec.IsPrecision ∧ ∀ k, c.prec ≠ .numbered k
  small : (((c.width.number w).getD 0).natAbs : Int) ≤ intMax

/-- Behind `n` bytes, the text is written and counted, or the call ends with `EOVERFLOW`. -/
def Conversion.Conforms (env : Env F) (c : Conversion) (n : Int) (args : List (Va F))
    (text : List UInt8)
    : Prop :=
  ∀ fuel cnt l rest core s more, cnt + l = n → 0 ≤ cnt → 0 ≤ l → core.l10n = false →
    core.ap = args ++ more → (∀ item ∈ rest, Item.WellFormed item) →
    if n + text.length ≤ intMax then
      ∃ core', core'.l10n = false ∧ core'.ap = more
        ∧ printLoop env byteSink (fuel + 1) cnt l (itemUnits (.conv c :: rest)) core s
          = printLoop env byteSink fuel n text.length (itemUnits rest) core' (s ++ text)
    else
      printLoop env byteSink (fuel + 1) cnt l (itemUnits (.conv c :: rest)) core s
        = (.error (.errno .eoverflow), s)

/-- The value as `union arg` holds it: with its sign for a signed conversion. -/
def Conversion.popped (c : Conversion) (x : BitVec 64) : BitVec 64 :=
  if c.conv = .d ∨ c.conv = .i then (x.setWidth c.modifier.bits).signExtend 64
  else (x.setWidth c.modifier.bits).zeroExtend 64

section

variable {c : Conversion} {w p : BitVec 32}

theorem Conversion.IsInteger.legal (integer : c.IsInteger w)
    : argType c.modifier c.conv ≠ none ∧ argType c.modifier c.conv ≠ some .noarg := by
  have conv := integer.conv
  have modifier := integer.modifier
  generalize c.conv = conv' at conv
  generalize c.modifier = modifier' at modifier
  rcases conv with rfl | rfl | rfl | rfl | rfl | rfl <;> cases modifier' <;> first
    | exact absurd rfl modifier
    | exact ⟨Option.some_ne_none _, by decide⟩

theorem Conversion.IsInteger.wellFormed (integer : c.IsInteger w) : c.WellFormed where
  width := integer.width.1
  prec := integer.prec.1
  legal := integer.legal.1
  unnumbered := fun none => absurd none integer.legal.2

theorem Conversion.IsInteger.argument (integer : c.IsInteger w) (x : BitVec 64) (more : List (Va F))
    : c.argument ownType (c.va x :: more) = some (some (.i (c.popped x)), more) := by
  obtain ⟨pos, flags, width, prec, modifier, conv⟩ := c
  obtain rfl : pos = none := integer.pos
  have isInteger : conv.IsInteger := integer.conv
  have legal : modifier ≠ .bigL := integer.modifier
  rcases isInteger with rfl | rfl | rfl | rfl | rfl | rfl <;> cases modifier <;> first
    | exact absurd rfl legal
    | simp [Conversion.argument, argType, Conversion.va, Modifier.bits, popArg, Conversion.popped,
        BitVec.setWidth_setWidth_of_le]

theorem Amount.value_plain {amount : Amount} (plain : ∀ k, amount ≠ .numbered k) (n : BitVec 32)
    (rest : List (Va F))
    : amount.value ownType ((if amount = .next then [.int n] else []) ++ rest)
      = some (amount.number n, rest) := by
  cases amount with
  | numbered k => exact absurd rfl (plain k)
  | _ => simp [Amount.value, Amount.number]

/-- The width, the precision and the value are read from the arguments. -/
theorem Conversion.IsInteger.field (integer : c.IsInteger w) (x : BitVec 64) (more : List (Va F))
    : c.field ownType (c.integerArgs w p x ++ more)
      = some (.conv c ((c.width.number w).getD 0) (c.prec.number p) (some (.i (c.popped x))),
        more) := by
  have argument := @Conversion.IsInteger.argument F c w integer x more
  have args : c.integerArgs w p x ++ more = (if c.width = .next then [Va.int w] else [])
      ++ ((if c.prec = .next then [Va.int p] else []) ++ (c.va x :: more)) := by
    simp [Conversion.integerArgs]
  simp only [Conversion.field, bind, Option.bind, args, Amount.value_plain integer.width.2,
    Amount.value_plain integer.prec.2, argument, pure]

theorem Conversion.IsInteger.unnumbered (integer : c.IsInteger w)
    : ∀ r ∈ c.references, r.1 = none := by
  intro r member
  have width := integer.width.2
  have prec := integer.prec.2
  have pos := integer.pos
  simp only [Conversion.references, List.mem_append] at member
  rcases member with (member | member) | member
  · cases amount : c.width <;> simp_all [Amount.references]
  · cases amount : c.prec <;> simp_all [Amount.references]
  · unfold Conversion.argReferences at member
    split at member
    · cases member
    · cases member
    · rw [List.mem_singleton.mp member]
      exact pos

end

theorem Modifier.bits_le (m : Modifier) : m.bits ≤ 64 := by
  cases m <;> decide

variable {c : Conversion}

theorem popped_toInt (signed : c.conv = .d ∨ c.conv = .i) (x : BitVec 64)
    : (c.popped x).toInt = (x.setWidth c.modifier.bits).toInt := by
  unfold Conversion.popped
  rw [if_pos signed]
  exact BitVec.toInt_signExtend_of_le c.modifier.bits_le

theorem popped_toNat (unsigned : ¬ (c.conv = .d ∨ c.conv = .i)) (x : BitVec 64)
    : (c.popped x).toNat = (x.setWidth c.modifier.bits).toNat := by
  unfold Conversion.popped
  rw [if_neg unsigned]
  exact BitVec.toNat_setWidth_of_le c.modifier.bits_le

section

variable {c : Conversion} {w : BitVec 32} (integer : c.IsInteger w)

include integer

theorem Conversion.IsInteger.narrow : c.wide = false := by
  unfold Conversion.wide
  rcases integer.conv with conv | conv | conv | conv | conv | conv <;> simp [conv]

theorem Conversion.IsInteger.kind : c.conv.kind = some .number := by
  rcases integer.conv with conv | conv | conv | conv | conv | conv <;> rw [conv] <;> rfl

theorem Conversion.IsInteger.textOf (texts : Texts F) (p : BitVec 32) (x : BitVec 64)
    : c.textOf texts ((c.width.number w).getD 0) (c.prec.number p) (some (.i (c.popped x)))
      = some (c.integerText w p x) := by
  rw [textOf_narrow integer.narrow]
  unfold Conversion.integerText
  have signed := @popped_toInt c
  have unsigned := @popped_toNat c
  rcases integer.conv with conv | conv | conv | conv | conv | conv <;>
    simp only [conv] at signed unsigned ⊢
  · rw [signed (by decide)]
  · rw [signed (by decide)]
  · rw [unsigned (by decide)]
  · rw [unsigned (by decide)]
  · rw [unsigned (by decide)]
  · rw [unsigned (by decide)]

theorem Conversion.IsInteger.takes (x : BitVec 64) : c.Takes (some (.i (c.popped x) : Arg F)) := by
  have conv := integer.conv
  have modifier := integer.modifier
  unfold Conversion.Takes
  generalize c.popped x = value
  generalize c.conv = conv' at conv
  generalize c.modifier = modifier' at modifier
  rcases conv with rfl | rfl | rfl | rfl | rfl | rfl <;> cases modifier' <;> first
    | exact absurd rfl modifier
    | exact ⟨.i value, rfl, rfl⟩

end

/-- A conversion that does not fit fails with `EOVERFLOW`. -/
def Bounded (cnt : Int) : Except Fault (List (List UInt8) × Int) → Prop
  | .error e => e = .errno .eoverflow
  | .ok (_, l) => l ≤ intMax - cnt

private theorem putField_bounded (cnt : Int) (fl : Flags) (w p : Int) (pre a : List UInt8)
    : Bounded cnt (putField cnt fl w p pre a) := by
  unfold putField
  dsimp only
  generalize (if p < a.length then (a.length : Int) else p) = digits
  generalize (if w < pre.length + digits then (pre.length : Int) + digits else w) = width
  by_cases long : digits > intMax - pre.length
  · rw [if_pos long]
    rfl
  · rw [if_neg long]
    by_cases wide : width > intMax - cnt
    · rw [if_pos wide]
      rfl
    · rw [if_neg wide]
      exact Int.not_lt.mp wide

theorem putInteger_bounded (cnt : Int) (fl : Flags) (w p : Int) (xp : Bool) (x : BitVec 64)
    (pre a : List UInt8)
    : Bounded cnt (putInteger cnt fl w p xp x pre a) := by
  unfold putInteger
  split
  · rfl
  · dsimp only
    split
    · exact putField_bounded cnt _ w p pre []
    · exact putField_bounded cnt _ w _ pre a

theorem convert_bounded {w : BitVec 32} (integer : c.IsInteger w) (env : Env F) (cnt w' : Int)
    (p' : Option Int) (x : BitVec 64)
    : Bounded cnt (convert env cnt (c.directive w' p') (some (.i x))) := by
  have letter := @letter_narrow c w' p' integer.narrow integer.legal.1
  rcases integer.conv with conv | conv | conv | conv | conv | conv <;> rw [conv] at letter
  · rw [convert_signed (.inl letter)]
    exact putInteger_bounded ..
  · rw [convert_signed (.inr letter)]
    exact putInteger_bounded ..
  · rw [convert_unsigned letter]
    exact putInteger_bounded ..
  · rw [convert_octal letter]
    exact putInteger_bounded ..
  · rw [@convert_hex F env cnt (c.directive w' p') false letter]
    exact putInteger_bounded ..
  · rw [@convert_hex F env cnt (c.directive w' p') true letter]
    exact putInteger_bounded ..

def Exactly (n : Int) (text : List UInt8) (result : Except Fault (List (List UInt8) × Int)) : Prop :=
  if n + text.length ≤ intMax then
    ∃ pieces, result = .ok (pieces, text.length) ∧ pieces.flatten = text
  else result = .error (.errno .eoverflow)

theorem Yields.exactly {n : Int} {text : List UInt8}
    {result : Except Fault (List (List UInt8) × Int)} (yields : Yields n text text result)
    (bounded : Bounded n result)
    : Exactly n text result := by
  unfold Exactly
  split
  · rename_i fits
    exact yields.1 fits
  · rename_i long
    rcases yields.2 (by omega) with ⟨e, failed⟩ | ⟨pieces, l, converted, past⟩
    · rw [failed] at bounded ⊢
      exact congrArg Except.error bounded
    · rw [converted] at bounded
      exact absurd past (Int.not_lt.mpr bounded)

section

variable {c : Conversion} {w p : BitVec 32} (integer : c.IsInteger w) (env : Env F) (x : BitVec 64)

include integer

/-- The round of `printf_core` for an integer conversion. -/
theorem printLoop_integer {fuel : Nat} {cnt l : Int} {rest : List Item}
    (wf : ∀ item ∈ rest, item.WellFormed) {core : Core F} {more : List (Va F)}
    (plain : core.l10n = false) (args : core.ap = c.integerArgs w p x ++ more) (s : List UInt8)
    (room : l ≤ intMax - cnt)
    : ∃ core' : Core F, core'.l10n = false ∧ core'.ap = more
      ∧ printLoop env byteSink (fuel + 1) cnt l (itemUnits (.conv c :: rest)) core s
        = match convert env (cnt + l) (c.directive ((c.width.number w).getD 0) (c.prec.number p))
            (some (.i (c.popped x))) with
          | .error e => (.error e, s)
          | .ok (pieces, l') =>
            printLoop env byteSink fuel (cnt + l) l' (itemUnits rest) core'
              (s ++ pieces.flatten) := by
  have wfAll : ∀ item ∈ Item.conv c :: rest, item.WellFormed :=
    List.forall_mem_cons.mpr ⟨integer.wellFormed, wf⟩
  have holds : core.Holds ownType c.references (c.integerArgs w p x ++ more) :=
    .inl ⟨integer.unnumbered, plain, args⟩
  obtain ⟨core1, core2, directive, fetched, holds2⟩ := (readDirective_units integer.wellFormed holds
    (fun r member => member) (integer.field x more) (itemUnits rest)).1 integer.small
  have reference : ∃ type, (none, type) ∈ c.references := by
    obtain ⟨type, legal⟩ := Option.ne_none_iff_exists'.mp integer.legal.1
    have some' : type ≠ .noarg := fun is => integer.legal.2 (by rw [legal, is])
    refine ⟨type, List.mem_append_right _ ?_⟩
    rw [argReferences_arg legal some', integer.pos]
    exact List.mem_cons_self
  obtain ⟨type, member⟩ := reference
  obtain ⟨plain2, args2⟩ := holds2.unnumbered member
  refine ⟨core2, plain2, args2, ?_⟩
  rw [printLoop_conv (readLiteral_conv wfAll), if_neg (by omega), directive]
  simp only [fetched, printDirective]
  have nothing : byteSink.out [] s = s := List.append_nil s
  rw [nothing, if_neg (show ¬ byteSink.err s = true from Bool.false_ne_true)]
  cases convert env (cnt + l) (c.directive ((c.width.number w).getD 0) (c.prec.number p))
      (some (.i (c.popped x))) with
  | error e => rfl
  | ok result =>
    have sent := byteSink_all result.1 s
    unfold Sink.all at sent
    dsimp only
    rw [sent]

theorem Conversion.IsInteger.conforms {n : Int} {text : List UInt8}
    (exactly : Exactly n text (convert env n
      (c.directive ((c.width.number w).getD 0) (c.prec.number p)) (some (.i (c.popped x)))))
    : c.Conforms env n (c.integerArgs w p x) text := by
  intro fuel cnt l rest core s more count startCnt startL plain args wf
  unfold Exactly at exactly
  by_cases past : l > intMax - cnt
  · rw [if_neg (by omega), printLoop_conv (readLiteral_conv
      (List.forall_mem_cons.mpr ⟨integer.wellFormed, wf⟩)), if_pos past]
  · obtain ⟨core', plain', args', round⟩ :=
      @printLoop_integer F c w p integer env x fuel cnt l rest wf core more plain args s (by omega)
    rw [count] at round
    split_ifs at exactly ⊢
    · obtain ⟨pieces, converted, same⟩ := exactly
      simp only [converted, same] at round
      exact ⟨core', plain', args', round⟩
    · simp only [exactly] at round
      exact round

end

/-- The precision of an octal conversion with the flag `#` is above `INT_MAX`, and without it the
field fits.
-/
def Conversion.ForgetsPrecision (c : Conversion) (n : Int) (w : BitVec 32) (x : BitVec 64) : Prop :=
  c.conv = .o ∧ Flag.alt ∈ c.flags ∧ (∃ ds, c.prec = .digits ds ∧ intMax < ofDigits ds)
    ∧ n + max ((c.width.number w).getD 0).natAbs
      ((numeral 8 false (x.setWidth c.modifier.bits).toNat).length + 1) ≤ intMax

/-- The prescribed field has as many digits as the precision asks for. -/
theorem octal_long (w p : BitVec 32) (x : BitVec 64) (conv : c.conv = .o) {ds : List Nat}
    (prec : c.prec = .digits ds)
    : ofDigits ds ≤ (c.integerText w p x).length := by
  have number : c.prec.number p = some (ofDigits ds : Int) := by rw [prec]; rfl
  unfold Conversion.integerText
  rw [conv]
  dsimp only
  have least : (c.layout ((c.width.number w).getD 0) (c.prec.number p)).least = ofDigits ds := by
    rw [Layout.least, layout_prec, number, layoutPrecision]
    simp [show ¬ ((ofDigits ds : Nat) : Int) < 0 by omega]
  rw [Layout.octal, length_number]
  split <;> omega

section

variable {c : Conversion} {w p : BitVec 32} (integer : c.IsInteger w) (env : Env F) (x : BitVec 64)

include integer

/-- An octal number with the flag `#` and too large a precision gets just one zero. -/
theorem octal_forgets (conv : c.conv = .o) (alt : Flag.alt ∈ c.flags) {ds : List Nat}
    (prec : c.prec = .digits ds) (large : intMax < ofDigits ds) {n : Int} (start : 0 ≤ n)
    : ∃ text : List UInt8, text.length = max ((c.width.number w).getD 0).natAbs
        ((numeral 8 false (x.setWidth c.modifier.bits).toNat).length + 1)
      ∧ Exactly n text (convert env n
        (c.directive ((c.width.number w).getD 0) (c.prec.number p)) (some (.i (c.popped x)))) := by
  have bounded := convert_bounded integer env n ((c.width.number w).getD 0) (c.prec.number p)
    (c.popped x)
  have letter := @letter_narrow c ((c.width.number w).getD 0) (c.prec.number p) integer.narrow
    integer.legal.1
  have value : (c.popped x).toNat = (x.setWidth c.modifier.bits).toNat :=
    popped_toNat (by simp [conv]) x
  have number : c.prec.number p = some (ofDigits ds : Int) := by rw [prec]; rfl
  have counts : precisionCounts (c.prec.number p) = true := by
    rw [number, precisionCounts]
    exact decide_eq_true (Int.natCast_nonneg _)
  have clamped : precisionInt (c.prec.number p) = -1 := by
    rw [number, precisionInt, if_neg (by omega)]
  have flag : (c.layout ((c.width.number w).getD 0) (c.prec.number p)).alt = true :=
    decide_eq_true alt
  have some' : (c.layout ((c.width.number w).getD 0) (c.prec.number p)).prec.isSome = true := by
    rw [layout_prec, number, layoutPrecision]
    simp [show ¬ ((ofDigits ds : Nat) : Int) < 0 by omega]
  rw [conv] at letter
  generalize c.popped x = y at value bounded ⊢
  rw [convert_octal letter, flags_alt, flag, fmtO_eq, ← value] at *
  have digits : numeral 8 false y.toNat = [] ↔ y = 0 := numeral_empty
  have used : (if true = true ∧ (c.directive ((c.width.number w).getD 0) (c.prec.number p)).p
      < (numeral 8 false y.toNat).length + 1 then ((numeral 8 false y.toNat).length : Int) + 1
      else (c.directive ((c.width.number w).getD 0) (c.prec.number p)).p)
      = ((numeral 8 false y.toNat).length + 1 : Nat) := by
    rw [if_pos ⟨rfl, by change precisionInt _ < _; rw [clamped]; omega⟩]
    rfl
  rw [used] at bounded ⊢
  have fits := fits_precision (@flags_left c ((c.width.number w).getD 0) (c.prec.number p))
    flags_zero (counts.trans some'.symm)
  have yields := @putInteger_yields _ _ n _ _ _ ((numeral 8 false y.toNat).length + 1) (.inr rfl)
    _ rfl fits y [] digits start
  refine ⟨_, ?_, yields.exactly bounded⟩
  rw [length_number, List.length_nil]
  change max ((c.width.number w).getD 0).natAbs _ = _
  omega

/-- A conversion whose octal precision is an `int` writes the prescribed field. -/
theorem convert_exactly (small : c.conv = .o → Flag.alt ∈ c.flags → ∀ ds, c.prec = .digits ds →
      (ofDigits ds : Int) ≤ intMax)
    {n : Int} (start : 0 ≤ n)
    : Exactly n (c.integerText w p x) (convert env n
        (c.directive ((c.width.number w).getD 0) (c.prec.number p)) (some (.i (c.popped x)))) := by
  have bounded := convert_bounded integer env n ((c.width.number w).getD 0) (c.prec.number p)
    (c.popped x)
  refine Yields.exactly ?_ bounded
  have text := integer.textOf (⟨fun _ _ _ _ _ => [], []⟩ : Texts F) p x
  by_cases plainOctal : c.conv = .o ∧ Flag.alt ∉ c.flags
  · obtain ⟨conv, noAlt⟩ := plainOctal
    have letter := @letter_narrow c ((c.width.number w).getD 0) (c.prec.number p) integer.narrow
      integer.legal.1
    have flag : (c.layout ((c.width.number w).getD 0) (c.prec.number p)).alt = false :=
      decide_eq_false noAlt
    rw [textOf_narrow integer.narrow] at text
    rw [conv] at letter text
    rw [convert_octal letter, fmtO_eq, flags_alt]
    rw [← Option.some.inj text, Layout.octal, flag]
    exact integer_yields start _ []
  · have octal : c.conv = .o → ∀ m, layoutPrecision (c.prec.number p) = some m →
        (m : Int) ≤ intMax := by
      intro conv m precision
      have alt : Flag.alt ∈ c.flags := by
        by_contra noAlt
        exact plainOctal ⟨conv, noAlt⟩
      cases prec : c.prec with
      | digits ds =>
        have fits := small conv alt ds prec
        rw [prec] at precision
        cases precision
        omega
      | next =>
        have fits := toInt_le_intMax p
        rw [prec] at precision
        simp only [Amount.number, layoutPrecision, Option.bind_some] at precision
        split at precision
        · cases precision
        · cases precision
          omega
      | _ =>
        rw [prec] at precision
        cases precision
    have outcome := @convert_number F env n c ((c.width.number w).getD 0) (c.prec.number p)
      (some (.i (c.popped x))) ⟨fun _ _ _ _ _ => [], []⟩ integer.narrow (integer.takes x)
      integer.kind octal start
    have accepted : (Field.conv c ((c.width.number w).getD 0) (c.prec.number p)
        (some (.i (c.popped x) : Arg F))).refused = false := by
      refine refused_other ⟨fun k upper is => ?_, fun is => ?_, fun is => ?_⟩ <;>
      · have kind := integer.kind
        rw [is] at kind
        cases kind
    unfold Field.Outcome at outcome
    rw [Field.printed, accepted, Field.text, text] at outcome
    obtain ⟨written, writes, yields⟩ := outcome
    rw [Field.written, integer.narrow, Bool.false_and, Bool.false_and, text] at writes
    rw [← Option.some.inj writes] at yields
    exact yields

/-- Where the precision is forgotten, a field is written that should have been too long. -/
theorem forgets_not_conforms {n : Int} (start : 0 ≤ n) (forgets : c.ForgetsPrecision n w x)
    : ¬ c.Conforms env n (c.integerArgs w p x) (c.integerText w p x) := by
  obtain ⟨conv, alt, ⟨ds, prec, large⟩, fits⟩ := forgets
  intro conforms
  obtain ⟨text, length, exactly⟩ := @octal_forgets F c w p integer env x conv alt ds prec large n
    start
  have long := octal_long w p x conv prec
  have core : ∃ core : Core F, core.l10n = false ∧ core.ap = c.integerArgs w p x ++ [] :=
    ⟨⟨false, fun _ => none, fun _ => none, c.integerArgs w p x ++ []⟩, rfl, rfl⟩
  obtain ⟨core, plain, args⟩ := core
  have prescribed := conforms 1 n 0 [] core [] [] (by omega) start (by omega) plain args (by simp)
  have actual := integer.conforms env x exactly 1 n 0 [] core [] [] (by omega) start (by omega)
    plain args (by simp)
  rw [if_neg (by omega)] at prescribed
  rw [if_pos (by omega)] at actual
  obtain ⟨core', -, -, written⟩ := actual
  rw [prescribed, show itemUnits [] = [] from rfl, printLoop_nil, if_neg (by omega)] at written
  cases written

/-- An integer conversion writes and counts what the C standard prescribes, or ends with `EOVERFLOW`,
exactly if it does not forget an octal precision.
-/
theorem integer_conforms_iff {n : Int} (start : 0 ≤ n)
    : c.Conforms env n (c.integerArgs w p x) (c.integerText w p x)
      ↔ ¬ c.ForgetsPrecision n w x := by
  constructor
  · intro conforms forgets
    exact forgets_not_conforms integer env x start forgets conforms
  · intro remembers
    by_cases octal : c.conv = .o ∧ Flag.alt ∈ c.flags ∧ ∃ ds, c.prec = .digits ds
        ∧ intMax < ofDigits ds
    · obtain ⟨conv, alt, ds, prec, large⟩ := octal
      obtain ⟨text, length, exactly⟩ := @octal_forgets F c w p integer env x conv alt ds prec large n
        start
      have long := octal_long w p x conv prec
      have past : ¬ n + text.length ≤ intMax := fun fits =>
        remembers ⟨conv, alt, ⟨ds, prec, large⟩, by omega⟩
      refine integer.conforms env x ?_
      unfold Exactly at exactly ⊢
      rw [if_neg past] at exactly
      rw [if_neg (by omega)]
      exact exactly
    · refine integer.conforms env x (convert_exactly integer env x (fun conv alt ds prec => ?_) start)
      by_contra large
      exact octal ⟨conv, alt, ds, prec, by omega⟩

end

/-- The conversion `%05d`. -/
def zeroFilled : Conversion := ⟨none, [.zero], .digits [5], .none, .none, .d⟩

theorem zeroFilled_integer : zeroFilled.IsInteger 0 where
  conv := .inl rfl
  pos := rfl
  modifier := by decide
  width := ⟨⟨by decide, by decide⟩, fun _ => Amount.noConfusion⟩
  prec := ⟨trivial, fun _ => Amount.noConfusion⟩
  small := by decide

theorem integer_conforms_zeroFilled
    : zeroFilled.Conforms (⟨fun _ _ _ _ _ => ([], 0), []⟩ : Env Unit) 0
        (zeroFilled.integerArgs 0 0 42) (zeroFilled.integerText 0 0 42) := by
  apply (@integer_conforms_iff Unit zeroFilled 0 0 zeroFilled_integer _ 42 0 (Int.le_refl 0)).mpr
  rintro ⟨conv, -⟩
  exact Conv.noConfusion conv

/-- The conversion `%#.2147483648o`. -/
def longOctal : Conversion := ⟨none, [.alt], .none, .digits [2, 1, 4, 7, 4, 8, 3, 6, 4, 8], .none, .o⟩

theorem longOctal_integer : longOctal.IsInteger 0 where
  conv := .inr (.inr (.inr (.inl rfl)))
  pos := rfl
  modifier := by decide
  width := ⟨trivial, fun _ => Amount.noConfusion⟩
  prec := ⟨show ∀ d ∈ [2, 1, 4, 7, 4, 8, 3, 6, 4, 8], d < 10 by decide, fun _ => Amount.noConfusion⟩
  small := by decide

/-- The number 8 is written, instead of the error `EOVERFLOW`. -/
theorem longOctal_not_conforms
    : ¬ longOctal.Conforms (⟨fun _ _ _ _ _ => ([], 0), []⟩ : Env Unit) 0
        (longOctal.integerArgs 0 0 8) (longOctal.integerText 0 0 8) := by
  refine forgets_not_conforms longOctal_integer _ 8 (le_refl 0) ⟨rfl, by decide, ⟨_, rfl, by decide⟩, ?_⟩
  decide

end Nglibc.Stdio
