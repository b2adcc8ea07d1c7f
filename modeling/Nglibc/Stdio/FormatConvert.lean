import Nglibc.Stdio.FormatFields

/-! The `switch` of `printf_core`: every conversion gives the text of its field, or is refused. -/

namespace Nglibc.Stdio

variable {F : Type} {env : Env F} {cnt : Int}

/-- The texts that the environment makes are those that the format asks for. -/
structure Env.Gives (env : Env F) (texts : Texts F) : Prop where
  strerror : env.strerror = texts.message
  fits : ∀ (x : F) (w : Nat) (p : Int) (fl : Flags) (t : Char), (w : Int) ≤ intMax → p ≤ intMax →
    ((texts.fp x w (if p < 0 then none else some p.toNat) fl t).length : Int) ≤ intMax →
    (env.fmtFp x w p fl t).1.flatten = texts.fp x w (if p < 0 then none else some p.toNat) fl t
    ∧ (env.fmtFp x w p fl t).2 = (texts.fp x w (if p < 0 then none else some p.toNat) fl t).length
  overflows : ∀ (x : F) (w : Nat) (p : Int) (fl : Flags) (t : Char), (w : Int) ≤ intMax →
    p ≤ intMax →
    intMax < (texts.fp x w (if p < 0 then none else some p.toNat) fl t).length →
    (env.fmtFp x w p fl t).2 < 0

/-- The flags of a directive, where `-` excludes `0`. -/
def Directive.flags (d : Directive) : Flags :=
  if d.fl.left then { d.fl with zero := false } else d.fl

/-- A precision above `INT_MAX` is refused in floating point. Behind a wide string it is taken
for none.
-/
def Field.refused : Field F → Bool
  | .byte _ => false
  | .conv c _ p arg =>
    match layoutPrecision p with
    | none => false
    | some n =>
      decide (intMax < n) && match c.conv with
        | .fp _ _ => true
        | .s | .bigS =>
          match c.wideArg arg with
          | none => false
          | some ws => decide (encodeWide none ws ≠ encodeWide (some n) ws)
        | _ => false

def Field.printed (texts : Texts F) (field : Field F) : Option (List UInt8) :=
  if field.refused then none else field.text texts

def Field.written (texts : Texts F) : Field F → Option (List UInt8)
  | .byte b => some [b]
  | .conv c w p arg =>
    if c.wide && (c.layout w p).zero && !(c.layout w p).left then c.wideText (c.layout w p) arg
    else c.textOf texts w p arg

inductive Kind where
  | number
  | pointer
  | floating
  deriving DecidableEq

def Arg.kind : Arg F → Kind
  | .i _ => .number
  | .p _ => .pointer
  | .f _ => .floating

def ArgType.kind : ArgType → Kind
  | .ptr | .uiptr => .pointer
  | .dbl | .ldbl => .floating
  | _ => .number

def Conversion.Takes (c : Conversion) (arg : Option (Arg F)) : Prop :=
  match argType c.modifier c.conv with
  | none => False
  | some .noarg => arg = none
  | some type => ∃ a, arg = some a ∧ a.kind = type.kind

/-! The cases of the switch -/

variable {d : Directive}

theorem convert_signed (letter : d.letter = 'd' ∨ d.letter = 'i') (x : BitVec 64)
    : convert env cnt d (some (.i x))
      = putInteger cnt d.flags d.w d.p d.xp (if x.msb then -x else x) (signText d.flags x.msb)
        (fmtU (if x.msb then -x else x)) := by
  rcases letter with letter | letter <;>
  · unfold convert
    rw [letter]
    rfl

theorem convert_octal (letter : d.letter = 'o') (x : BitVec 64)
    : convert env cnt d (some (.i x)) = putInteger cnt d.flags d.w
        (if d.flags.alt ∧ d.p < (fmtO x).length + 1 then ((fmtO x).length : Int) + 1 else d.p)
        d.xp x [] (fmtO x) := by
  unfold convert
  rw [letter]
  rfl

theorem convert_unsigned (letter : d.letter = 'u') (x : BitVec 64)
    : convert env cnt d (some (.i x)) = putInteger cnt d.flags d.w d.p d.xp x [] (fmtU x) := by
  unfold convert
  rw [letter]
  rfl

variable {upper : Bool} {result : Except Fault (List (List UInt8) × Int)}

theorem convert_hex (letter : d.letter = if upper then 'X' else 'x') (x : BitVec 64)
    : convert env cnt d (some (.i x)) = putInteger cnt d.flags d.w d.p d.xp x
        (if x ≠ 0 ∧ d.flags.alt then
          ['0'.toUInt8, if upper then 'X'.toUInt8 else 'x'.toUInt8] else [])
        (fmtX x (if upper then 0 else 32)) := by
  cases upper <;>
  · unfold convert
    rw [letter]
    rfl

theorem convert_pointer (letter : d.letter = 'p') (p : Pointer)
    : convert env cnt d (some (.p p)) = putInteger cnt { d.flags with alt := true } d.w
        (if toSizeT d.p > 2 * 8 then d.p else 2 * 8) d.xp p.addr
        (if p.addr ≠ 0 then ['0'.toUInt8, 'x'.toUInt8] else []) (fmtX p.addr 32) := by
  unfold convert
  rw [letter]
  simp only [and_true]
  rfl

theorem convert_char (letter : d.letter = 'c') (x : BitVec 64)
    : convert env cnt d (some (.i x))
      = putField cnt { d.flags with zero := false } d.w 1 [] [UInt8.ofBitVec (x.setWidth 8)] := by
  unfold convert
  rw [letter]
  rfl

theorem convert_message (letter : d.letter = 'm') (arg : Option (Arg F))
    : convert env cnt d arg = putString cnt d.flags d.w d.p env.strerror := by
  unfold convert
  rw [letter]
  rfl

theorem convert_stored (letter : d.letter = 'n') (arg : Option (Arg F))
    : convert env cnt d arg = .ok ([], 0) := by
  unfold convert
  rw [letter]
  cases arg with
  | none => rfl
  | some a => cases a <;> rfl

theorem convert_string (letter : d.letter = 's') (p : Pointer)
    : convert env cnt d (some (.p p)) = if p.addr = 0 then putString cnt d.flags d.w d.p nullText
        else
          match p.target with
          | .bytes b => putString cnt d.flags d.w d.p b
          | _ => .error .undefined := by
  unfold convert
  rw [letter]
  rfl

theorem convert_wideChar (letter : d.letter = 'C') (x : BitVec 64)
    : convert env cnt d (some (.i x)) = putWide d.flags d.w (-1) [x.setWidth 32] := by
  unfold convert
  rw [letter]
  rfl

theorem convert_wideString (letter : d.letter = 'S') (p : Pointer)
    : convert env cnt d (some (.p p)) = match p.target with
        | .wide ws => putWide d.flags d.w d.p ws
        | _ => .error .undefined := by
  unfold convert
  rw [letter]
  rfl

theorem convert_fp {kind : Fin 4} (letter : d.letter = (Conv.fp kind upper).letter) (x : F)
    : convert env cnt d (some (.f x)) = if d.xp ∧ d.p < 0 then .error (.errno .eoverflow)
        else if (env.fmtFp x d.w d.p d.flags d.letter).2 < 0 then .error (.errno .eoverflow)
        else .ok (env.fmtFp x d.w d.p d.flags d.letter) := by
  match kind with
  | 0 | 1 | 2 | 3 =>
    cases upper <;>
    · unfold convert
      rw [letter]
      rfl

/-! Fields -/

variable {c : Conversion} {w : Int} {p : Option Int} {arg : Option (Arg F)} {texts : Texts F}

theorem letter_narrow (narrow : c.wide = false) (legal : argType c.modifier c.conv ≠ none)
    : (c.directive w p).letter = c.conv.letter := by
  obtain ⟨pos, flags, width, prec, modifier, conv⟩ := c
  cases conv with
  | c => cases modifier <;> first | rfl | exact absurd rfl legal | cases narrow
  | s => cases modifier <;> first | rfl | exact absurd rfl legal | cases narrow
  | fp kind upper =>
    match kind with
    | 0 | 1 | 2 | 3 => cases upper <;> simp [Directive.letter, Conversion.directive, Conv.letter]
  | _ => simp [Directive.letter, Conversion.directive, Conv.letter]

theorem flags_left : (c.directive w p).flags.left = (c.layout w p).left := by
  unfold Directive.flags
  split <;> rfl

theorem flags_zero
    : (c.directive w p).flags.zero = ((c.layout w p).zero && !(c.layout w p).left) := by
  change (if (c.layout w p).left = true then _ else _ : Flags).zero = _
  split
  · rename_i left
    rw [left]
    simp
  · rename_i left
    rw [Bool.not_eq_true] at left
    rw [left]
    simp [Conversion.directive, Conversion.flagSet, Conversion.layout]

theorem flags_alt : (c.directive w p).flags.alt = (c.layout w p).alt := by
  unfold Directive.flags
  split <;> rfl

theorem layout_prec : (c.layout w p).prec = layoutPrecision p := rfl

private theorem signText_eq (x : BitVec 64)
    : signText (c.directive w p).flags x.msb = if x.toInt < 0 then ['-'.toUInt8]
        else if (c.layout w p).plus then ['+'.toUInt8]
        else if (c.layout w p).space then [' '.toUInt8]
        else [] := by
  have mark : (c.directive w p).flags.markPos = (c.layout w p).plus := by
    unfold Directive.flags
    split <;> rfl
  have space : (c.directive w p).flags.padPos = (c.layout w p).space := by
    unfold Directive.flags
    split <;> rfl
  have negative : x.msb = true ↔ x.toInt < 0 := BitVec.msb_eq_toInt ▸ by simp
  unfold signText
  rw [mark, space]
  by_cases below : x.toInt < 0
  · rw [if_pos (negative.mpr below), if_pos below]
  · rw [if_neg (fun h => below (negative.mp h)), if_neg below]

theorem natAbs_toInt (x : BitVec 64)
    : (if x.msb then -x else x).toNat = x.toInt.natAbs := by
  have negative : x.msb = decide (2 ^ 63 ≤ x.toNat) := BitVec.msb_eq_decide x
  have value := BitVec.toInt_eq_toNat_cond x
  by_cases high : 2 ^ 63 ≤ x.toNat
  · rw [negative, decide_eq_true high, if_pos rfl, BitVec.toNat_neg, value]
    omega
  · rw [negative, decide_eq_false high, if_neg Bool.false_ne_true, value]
    omega

theorem numeral_empty {base : Nat} {x : BitVec 64}
    : numeral base upper x.toNat = [] ↔ x = 0 := by
  rw [numeral_eq_nil]
  exact ⟨fun h => BitVec.eq_of_toNat_eq (by simpa using h), fun h => by rw [h]; rfl⟩

theorem integer_yields (start : 0 ≤ cnt) (x : BitVec 64) (pre : List UInt8) {base : Nat}
    : Yields cnt ((c.layout w p).number (c.layout w p).least pre (numeral base upper x.toNat))
        ((c.layout w p).number (c.layout w p).least pre (numeral base upper x.toNat))
        (putInteger cnt (c.directive w p).flags (c.directive w p).w (c.directive w p).p
          (c.directive w p).xp x pre (numeral base upper x.toNat)) := by
  exact number_yields layout_prec flags_left flags_zero x pre numeral_empty start

def Field.Outcome (texts : Texts F) (cnt : Int) (field : Field F)
    (result : Except Fault (List (List UInt8) × Int))
    : Prop :=
  match field.printed texts with
  | none => ∃ e, result = .error e
  | some text => ∃ written, field.written texts = some written ∧ Yields cnt text written result

theorem outcome_narrow (narrow : c.wide = false) (accepted : (Field.conv c w p arg).refused = false)
    {text : List UInt8} (same : c.textOf texts w p arg = some text) (yields : Yields cnt text text result)
    : (Field.conv c w p arg).Outcome texts cnt result := by
  have printed : (Field.conv c w p arg).printed texts = some text := by
    rw [Field.printed, accepted]
    exact same
  have written : (Field.conv c w p arg).written texts = some text := by
    rw [Field.written, narrow]
    exact same
  unfold Field.Outcome
  rw [printed]
  exact ⟨text, written, yields⟩

theorem refused_other (other : (∀ kind upper, c.conv ≠ .fp kind upper) ∧ c.conv ≠ .bigS
      ∧ (c.conv = .s → c.modifier = .none))
    : (Field.conv c w p arg).refused = false := by
  obtain ⟨pos, flags, width, prec, modifier, conv⟩ := c
  unfold Field.refused
  dsimp only
  cases layoutPrecision p with
  | none => rfl
  | some n =>
    cases conv with
    | fp kind upper => exact absurd rfl (other.1 kind upper)
    | bigS => exact absurd rfl other.2.1
    | s =>
      obtain rfl : modifier = .none := other.2.2 rfl
      simp [Conversion.wideArg]
    | _ => simp

theorem refused_precision
    (small : ∀ n, layoutPrecision p = some n → (n : Int) ≤ intMax)
    : (Field.conv c w p arg).refused = false := by
  unfold Field.refused
  dsimp only
  cases precision : layoutPrecision p with
  | none => rfl
  | some n =>
    have bound := small n precision
    simp [show ¬ intMax < (n : Int) by omega]

theorem refused_floating {k : Fin 4} (conv : c.conv = .fp k upper) {n : Nat}
    (precision : layoutPrecision p = some n) (large : intMax < n)
    : (Field.conv c w p arg).refused = true := by
  unfold Field.refused
  dsimp only
  rw [precision, conv]
  simp [large]

theorem textOf_narrow (narrow : c.wide = false)
    : c.textOf texts w p arg = match c.conv, arg with
        | .d, some (.i x) | .i, some (.i x) => some ((c.layout w p).signed x.toInt)
        | .o, some (.i x) => some ((c.layout w p).octal x.toNat)
        | .u, some (.i x) =>
          some ((c.layout w p).number (c.layout w p).least [] (numeral 10 false x.toNat))
        | .x, some (.i x) => some ((c.layout w p).hex false x.toNat)
        | .bigX, some (.i x) => some ((c.layout w p).hex true x.toNat)
        | .p, some (.p q) => some ((c.layout w p).pointer q.addr.toNat)
        | .n, some (.p _) => some []
        | .m, none => some ((c.layout w p).string texts.message)
        | .c, some (.i x) => some ((c.layout w p).justify [UInt8.ofBitVec (x.setWidth 8)])
        | .s, some (.p q) =>
          if q.addr = 0 then some ((c.layout w p).string nullText)
          else
            match q.target with
            | .bytes b => some ((c.layout w p).string b)
            | _ => none
        | .fp _ _, some (.f x) =>
          some (texts.fp x (c.layout w p).width (c.layout w p).prec
            { c.flagSet (w < 0) with
              zero := (c.flagSet (w < 0)).zero && !(c.flagSet (w < 0)).left } c.conv.letter)
        | _, _ => none := by
  unfold Conversion.textOf
  rw [narrow]
  rfl

def Conv.kind : Conv → Option Kind
  | .m => none
  | .p | .n | .s | .bigS => some .pointer
  | .fp _ _ => some .floating
  | _ => some .number

theorem argType_kind {m : Modifier} {conv : Conv} {type : ArgType}
    (legal : argType m conv = some type)
    : type = .noarg ∧ conv.kind = none ∨ type ≠ .noarg ∧ conv.kind = some type.kind := by
  cases conv <;> cases m <;> cases legal <;> first
    | exact .inl ⟨rfl, rfl⟩
    | exact .inr ⟨ArgType.noConfusion, rfl⟩

/-- The argument that a conversion takes. -/
theorem Conversion.Takes.kind (takes : c.Takes arg)
    : argType c.modifier c.conv ≠ none ∧
      match c.conv.kind with
      | none => arg = none
      | some .number => ∃ x, arg = some (.i x)
      | some .pointer => ∃ q, arg = some (.p q)
      | some .floating => ∃ x, arg = some (.f x) := by
  unfold Conversion.Takes at takes
  cases legal : argType c.modifier c.conv with
  | none =>
    rw [legal] at takes
    exact takes.elim
  | some type =>
    rw [legal] at takes
    refine ⟨Option.some_ne_none _, ?_⟩
    rcases argType_kind legal with ⟨rfl, kind⟩ | ⟨some', kind⟩
    · rw [kind]
      exact takes
    · have shape : ∃ a : Arg F, arg = some a ∧ a.kind = type.kind := by
        cases type <;> first | exact takes | exact absurd rfl some'
      obtain ⟨a, rfl, same⟩ := shape
      rw [kind, ← same]
      cases a with
      | i x => exact ⟨x, rfl⟩
      | p q => exact ⟨q, rfl⟩
      | f x => exact ⟨x, rfl⟩

theorem hex_prefix (alt : Bool) (x : BitVec 64) (pre : List UInt8)
    : (if x ≠ 0 ∧ alt = true then pre else []) = if alt = true ∧ x.toNat ≠ 0 then pre else [] := by
  have same : x ≠ 0 ↔ x.toNat ≠ 0 := by
    rw [Ne, BitVec.toNat_eq]
    rfl
  simp only [same, and_comm]

/-- A number in hexadecimal. -/
theorem hex_yields (upper : Bool) (start : 0 ≤ cnt) (x : BitVec 64)
    : Yields cnt ((c.layout w p).hex upper x.toNat) ((c.layout w p).hex upper x.toNat)
        (putInteger cnt (c.directive w p).flags (c.directive w p).w (c.directive w p).p
          (c.directive w p).xp x
          (if x ≠ 0 ∧ (c.directive w p).flags.alt then
            ['0'.toUInt8, if upper then 'X'.toUInt8 else 'x'.toUInt8] else [])
          (fmtX x (if upper then 0 else 32))) := by
  rw [fmtX_eq, flags_alt, hex_prefix]
  exact integer_yields start x _

/-- The conversions of numbers. -/
theorem convert_number (narrow : c.wide = false) (takes : c.Takes arg)
    (number : c.conv.kind = some .number)
    (octal : c.conv = .o → ∀ n, layoutPrecision p = some n → (n : Int) ≤ intMax) (start : 0 ≤ cnt)
    : (Field.conv c w p arg).Outcome texts cnt (convert env cnt (c.directive w p) arg) := by
  obtain ⟨legal, shape⟩ := takes.kind
  rw [number] at shape
  obtain ⟨x, rfl⟩ := shape
  have letter := @letter_narrow c w p narrow legal
  have text := @textOf_narrow F c w p (some (.i x)) texts narrow
  have accepted : (Field.conv c w p (some (.i x) : Option (Arg F))).refused = false := by
    refine refused_other ⟨fun k upper is => ?_, fun is => ?_, fun is => ?_⟩ <;>
    · rw [is] at number
      cases number
  cases conv : c.conv with
  | d =>
    rw [conv] at text letter
    refine outcome_narrow narrow accepted text ?_
    rw [convert_signed (.inl letter), fmtU_eq, signText_eq, Layout.signed, ← natAbs_toInt]
    exact integer_yields start _ _
  | i =>
    rw [conv] at text letter
    refine outcome_narrow narrow accepted text ?_
    rw [convert_signed (.inr letter), fmtU_eq, signText_eq, Layout.signed, ← natAbs_toInt]
    exact integer_yields start _ _
  | o =>
    rw [conv] at text letter
    refine outcome_narrow narrow accepted text ?_
    rw [convert_octal letter, fmtO_eq, Layout.octal, flags_alt]
    cases (c.layout w p).alt with
    | true =>
      simp only [true_and, if_true]
      exact octal_yields layout_prec flags_left flags_zero x numeral_empty start (octal conv)
    | false =>
      exact integer_yields start x []
  | u =>
    rw [conv] at text letter
    refine outcome_narrow narrow accepted text ?_
    rw [convert_unsigned letter, fmtU_eq]
    exact integer_yields start x []
  | x =>
    rw [conv] at text letter
    refine outcome_narrow narrow accepted text ?_
    rw [convert_hex (show (c.directive w p).letter = if false then 'X' else 'x' from letter)]
    exact hex_yields false start x
  | bigX =>
    rw [conv] at text letter
    refine outcome_narrow narrow accepted text ?_
    rw [convert_hex (show (c.directive w p).letter = if true then 'X' else 'x' from letter)]
    exact hex_yields true start x
  | c =>
    rw [conv] at text letter
    refine outcome_narrow narrow accepted text ?_
    rw [convert_char letter]
    exact justify_yields flags_left _ (Nat.le_refl 1) start
  | bigC =>
    unfold Conversion.wide at narrow
    rw [conv] at narrow
    simp at narrow
  | _ =>
    rw [conv] at number
    cases number

/-- An address. -/
theorem address_yields (start : 0 ≤ cnt) (bound : -(2 ^ 63) ≤ precisionInt p) (x : BitVec 64)
    : Yields cnt ((c.layout w p).pointer x.toNat) ((c.layout w p).pointer x.toNat)
        (putInteger cnt { (c.directive w p).flags with alt := true } (c.directive w p).w
          (if toSizeT (c.directive w p).p > 2 * 8 then (c.directive w p).p else 2 * 8)
          (c.directive w p).xp x (if x ≠ 0 then ['0'.toUInt8, 'x'.toUInt8] else [])
          (fmtX x 32)) := by
  have pre := hex_prefix true x ['0'.toUInt8, 'x'.toUInt8]
  have digits := fmtX_eq x false
  simp only [and_true, true_and, Bool.false_eq_true, if_false] at pre digits
  unfold Layout.pointer Layout.hex
  simp only [true_and, Bool.false_eq_true, if_false]
  rw [pre, digits]
  generalize layout : ({ c.layout w p with
    alt := true, prec := (c.layout w p).prec.map (max 16) } : Layout) = lay
  have precision : lay.prec = (layoutPrecision p).map (max 16) := by
    rw [← layout]
    rfl
  have width : (c.directive w p).w = lay.width := by
    rw [← layout]
    rfl
  generalize flags : ({ (c.directive w p).flags with alt := true } : Flags) = fl
  have left : fl.left = lay.left := by
    rw [← layout, ← flags]
    exact flags_left
  have zero : fl.zero = (lay.zero && !lay.left) := by
    rw [← layout, ← flags]
    exact flags_zero
  rw [width]
  exact pointer_yields precision bound left zero x _ numeral_empty start

/-- The conversions of pointers. -/
theorem convert_pointers (narrow : c.wide = false) (takes : c.Takes arg)
    (pointer : c.conv.kind = some .pointer) (bound : -(2 ^ 63) ≤ precisionInt p) (start : 0 ≤ cnt)
    : (Field.conv c w p arg).Outcome texts cnt (convert env cnt (c.directive w p) arg) := by
  obtain ⟨legal, shape⟩ := takes.kind
  rw [pointer] at shape
  obtain ⟨q, rfl⟩ := shape
  have letter := @letter_narrow c w p narrow legal
  have text := @textOf_narrow F c w p (some (.p q)) texts narrow
  have accepted : (Field.conv c w p (some (.p q) : Option (Arg F))).refused = false := by
    refine refused_other ⟨fun k upper is => ?_, fun is => ?_, fun is => ?_⟩
    · rw [is] at pointer
      cases pointer
    · simp [Conversion.wide, is] at narrow
    · unfold Conversion.wide at narrow
      rw [is] at legal narrow
      cases modifier : c.modifier with
      | none => rfl
      | l => simp [modifier] at narrow
      | _ =>
        rw [modifier] at legal
        exact absurd rfl legal
  cases conv : c.conv with
  | p =>
    rw [conv] at text letter
    refine outcome_narrow narrow accepted text ?_
    rw [convert_pointer letter]
    exact address_yields start bound q.addr
  | n =>
    rw [conv] at text letter
    refine outcome_narrow narrow accepted text ?_
    rw [convert_stored letter]
    refine ⟨fun _ => ⟨[], rfl, rfl⟩, fun past => .inr ⟨[], 0, rfl, ?_⟩⟩
    simp only [List.length_nil] at past
    omega
  | s =>
    rw [conv] at text letter
    have converted := @convert_string F env cnt _ letter q
    by_cases null : q.addr = 0
    · simp only [if_pos null] at text converted
      rw [converted]
      exact outcome_narrow narrow accepted text (string_yields layout_prec flags_left _ start)
    · simp only [if_neg null] at text converted
      rw [converted]
      cases target : q.target with
      | bytes b =>
        rw [target] at text
        exact outcome_narrow narrow accepted text (string_yields layout_prec flags_left _ start)
      | _ =>
        rw [target] at text
        unfold Field.Outcome
        rw [Field.printed, accepted]
        dsimp only [Field.text]
        rw [text]
        exact ⟨_, rfl⟩
  | bigS =>
    simp [Conversion.wide, conv] at narrow
  | _ =>
    rw [conv] at pointer
    cases pointer

theorem exclusive_flags (fl : Flags)
    : (if fl.left then { fl with zero := false } else fl)
      = { fl with zero := fl.zero && !fl.left } := by
  obtain ⟨alt, zero, left, padPos, markPos, grouped⟩ := fl
  cases left <;> simp

private theorem floating_yields (gives : env.Gives texts) (x : F) {width : Nat}
    (small : (width : Int) ≤ intMax) {q : Int} (precision : q ≤ intMax) (fl : Flags) (t : Char)
    (start : 0 ≤ cnt)
    : Yields cnt (texts.fp x width (if q < 0 then none else some q.toNat) fl t)
        (texts.fp x width (if q < 0 then none else some q.toNat) fl t)
        (if (env.fmtFp x width q fl t).2 < 0 then .error (.errno .eoverflow)
          else .ok (env.fmtFp x width q fl t)) := by
  have fits := gives.fits x width q fl t small precision
  have overflows := gives.overflows x width q fl t small precision
  generalize texts.fp x width (if q < 0 then none else some q.toNat) fl t = text at fits overflows ⊢
  rcases result : env.fmtFp x width q fl t with ⟨pieces, l⟩
  rw [result] at fits overflows
  dsimp only at fits overflows ⊢
  by_cases short : (text.length : Int) ≤ intMax
  · obtain ⟨same, length⟩ := fits short
    rw [length]
    exact ⟨fun _ => ⟨pieces, rfl, same⟩, fun past => .inr ⟨pieces, _, rfl, by omega⟩⟩
  · rw [if_pos (overflows (by omega))]
    exact ⟨fun room => absurd room (by omega), fun _ => .inl ⟨_, rfl⟩⟩

/-- The conversions in floating point. -/
theorem convert_floating (gives : env.Gives texts) (takes : c.Takes arg) {k : Fin 4}
    (conv : c.conv = .fp k upper) (small : (w.natAbs : Int) ≤ intMax) (start : 0 ≤ cnt)
    : (Field.conv c w p arg).Outcome texts cnt (convert env cnt (c.directive w p) arg) := by
  obtain ⟨legal, shape⟩ := takes.kind
  have narrow : c.wide = false := by
    unfold Conversion.wide
    rw [conv]
    simp
  rw [conv] at shape
  obtain ⟨x, rfl⟩ := shape
  have letter := @letter_narrow c w p narrow legal
  have text := @textOf_narrow F c w p (some (.f x)) texts narrow
  have flags : (c.directive w p).flags = { c.flagSet (w < 0) with
      zero := (c.flagSet (w < 0)).zero && !(c.flagSet (w < 0)).left } :=
    exclusive_flags (c.flagSet (w < 0))
  rw [conv] at letter text
  rw [convert_fp letter, letter]
  rw [← flags] at text
  rcases precision_cases p with ⟨none, negative, counts⟩ | ⟨n, some', counts, value⟩
  · rw [if_neg (fun h => by
      rw [show (c.directive w p).xp = false from counts] at h
      cases h.1)]
    have yields := @floating_yields F env cnt texts gives x w.natAbs small (precisionInt p)
      (by unfold intMax; omega) (c.directive w p).flags (Conv.fp k upper).letter start
    rw [if_pos negative, ← none] at yields
    refine outcome_narrow narrow (refused_precision ?_) text yields
    intro n some'
    rw [none] at some'
    cases some'
  · rcases value with ⟨fits, value⟩ | ⟨large, value⟩
    · rw [if_neg (fun h => by
        rw [show (c.directive w p).p = n from value] at h
        omega)]
      have yields := @floating_yields F env cnt texts gives x w.natAbs small (precisionInt p)
        (by omega) (c.directive w p).flags (Conv.fp k upper).letter start
      rw [if_neg (by omega), show (precisionInt p).toNat = n by omega, ← some'] at yields
      refine outcome_narrow narrow (refused_precision ?_) text yields
      intro n' same
      rw [some'] at same
      cases same
      exact fits
    · rw [if_pos ⟨counts, by rw [show (c.directive w p).p = -1 from value]; decide⟩]
      unfold Field.Outcome Field.printed
      rw [refused_floating conv some' large]
      exact ⟨_, rfl⟩

private theorem convert_error (gives : env.Gives texts) (takes : c.Takes arg) (conv : c.conv = .m)
    (start : 0 ≤ cnt)
    : (Field.conv c w p arg).Outcome texts cnt (convert env cnt (c.directive w p) arg) := by
  obtain ⟨legal, shape⟩ := takes.kind
  have narrow : c.wide = false := by
    unfold Conversion.wide
    rw [conv]
    simp
  rw [conv] at shape
  have none : arg = none := shape
  subst none
  have letter := @letter_narrow c w p narrow legal
  have text := @textOf_narrow F c w p none texts narrow
  rw [conv] at letter text
  rw [convert_message letter, gives.strerror]
  refine outcome_narrow narrow ?_ text (string_yields layout_prec flags_left _ start)
  exact refused_other ⟨by simp [conv], by simp [conv], by simp [conv]⟩

/-! Wide strings and characters -/

section

variable (wide : c.wide = true)
include wide

theorem letter_wide (legal : argType c.modifier c.conv ≠ none)
    : (c.directive w p).letter = if c.conv = .c ∨ c.conv = .bigC then 'C' else 'S' := by
  obtain ⟨pos, flags, width, prec, modifier, conv⟩ := c
  cases conv <;> cases modifier <;> first | rfl | exact absurd rfl legal | cases wide

theorem textOf_wide
    : c.textOf texts w p arg = (c.wideText (c.layout w p) arg).map (c.layout w p).justify := by
  unfold Conversion.textOf
  rw [if_pos wide]

theorem wideArg_char (char : c.conv = .c ∨ c.conv = .bigC) (x : BitVec 64)
    : c.wideArg (some (.i x) : Option (Arg F)) = some [x.setWidth 32] := by
  obtain ⟨pos, flags, width, prec, modifier, conv⟩ := c
  rcases char with rfl | rfl
  · cases modifier <;> first | rfl | cases wide
  · cases modifier <;> rfl

theorem wideArg_string (string : c.conv = .s ∨ c.conv = .bigS) (q : Pointer)
    : c.wideArg (some (.p q) : Option (Arg F)) = match q.target with
        | .wide ws => some ws
        | _ => none := by
  obtain ⟨pos, flags, width, prec, modifier, conv⟩ := c
  rcases string with rfl | rfl
  · cases modifier <;> first | rfl | cases wide
  · cases modifier <;> rfl

/-- What is written of a wide string or character. -/
theorem outcome_wide (accepted : (Field.conv c w p arg).refused = false)
    (yields : WideYields cnt (c.layout w p) (c.wideText (c.layout w p) arg) result)
    : (Field.conv c w p arg).Outcome texts cnt result := by
  have printed : (Field.conv c w p arg).printed texts
      = (c.wideText (c.layout w p) arg).map (c.layout w p).justify := by
    rw [Field.printed, accepted]
    exact textOf_wide wide
  have written : (Field.conv c w p arg).written texts
      = if (c.layout w p).zero = true ∧ (c.layout w p).left = false then
          c.wideText (c.layout w p) arg
        else (c.wideText (c.layout w p) arg).map (c.layout w p).justify := by
    rw [Field.written, wide, textOf_wide wide]
    cases (c.layout w p).zero <;> cases (c.layout w p).left <;> rfl
  unfold Field.Outcome
  rw [printed, written]
  cases text : c.wideText (c.layout w p) arg with
  | none =>
    rw [text] at yields
    exact yields
  | some bytes =>
    rw [text] at yields
    refine ⟨_, ?_, yields⟩
    split <;> rfl

end

/-- A limit that is not reached. By induction on the string. -/
theorem encodeWide_unreached {ws : List (BitVec 32)} {n : Nat} {bytes : List UInt8}
    (encoded : encodeWide none ws = some bytes) (short : bytes.length ≤ n)
    : encodeWide (some n) ws = some bytes := by
  induction ws generalizing n bytes with
  | nil => exact encoded
  | cons wc ws ih =>
    by_cases end' : wc = 0
    · rw [encodeWide, if_pos (.inl end')] at encoded ⊢
      exact encoded
    · rw [encodeWide_cons _ end']
        at encoded
      rw [encodeWide_cons _ end']
      cases valid : scalar wc with
      | none =>
        rw [valid] at encoded
        cases encoded
      | some ch =>
        have length := length_encode ch
        rw [valid] at encoded
        obtain ⟨more, found, rfl⟩ := Option.map_eq_some_iff.mp encoded
        rw [List.length_append] at short
        rw [if_neg (fun zero => by cases zero; omega)]
        dsimp only
        rw [if_pos (by omega), ih found (by omega)]
        rfl

private theorem putWide_refused {fl : Flags} {q : Int} (negative : q < 0) (bound : -(2 ^ 63) ≤ q) {n : Nat}
    (large : intMax < n) {ws : List (BitVec 32)}
    (longer : encodeWide none ws ≠ encodeWide (some n) ws) (w : Int)
    : ∃ e, putWide fl w q ws = .error e := by
  have huge : 2 ^ 63 ≤ toSizeT q := by
    unfold toSizeT
    omega
  rcases wideBytes_unlimited (toSizeT q) ws with ⟨pieces, run, long, -⟩ | rest
  · exact ⟨_, putWide_long run (by unfold intMax; omega)⟩
  · generalize result : wideBytes (toSizeT q) ws = r at rest
    generalize encoded : encodeWide none ws = text at rest longer
    cases rest with
    | failed e => exact ⟨e, putWide_error result⟩
    | text pieces =>
      refine ⟨_, putWide_long result ?_⟩
      by_contra short
      exact longer (encodeWide_unreached encoded (by omega)).symm

theorem refused_string (string : c.conv = .s ∨ c.conv = .bigS) {ws : List (BitVec 32)}
    (argument : c.wideArg arg = some ws) {n : Nat} (precision : layoutPrecision p = some n)
    (large : intMax < n)
    : (Field.conv c w p arg).refused = decide (encodeWide none ws ≠ encodeWide (some n) ws) := by
  unfold Field.refused
  dsimp only
  rw [precision]
  rcases string with conv | conv <;>
  · rw [conv]
    simp only [argument, large, decide_true, Bool.true_and]

theorem outcome_none (none : c.textOf texts w p arg = none) {e : Fault}
    : (Field.conv c w p arg).Outcome texts cnt (.error e) := by
  have printed : (Field.conv c w p arg).printed texts = .none := by
    unfold Field.printed
    split
    · rfl
    · exact none
  unfold Field.Outcome
  rw [printed]
  exact ⟨e, rfl⟩

/-- The conversions of wide strings and characters. -/
theorem convert_wides (wide : c.wide = true) (takes : c.Takes arg)
    (bound : -(2 ^ 63) ≤ precisionInt p) (start : 0 ≤ cnt)
    : (Field.conv c w p arg).Outcome texts cnt (convert env cnt (c.directive w p) arg) := by
  obtain ⟨legal, shape⟩ := takes.kind
  have letter := @letter_wide c w p wide legal
  by_cases char : c.conv = .c ∨ c.conv = .bigC
  · have kind : c.conv.kind = some .number := by rcases char with conv | conv <;> rw [conv] <;> rfl
    rw [kind] at shape
    obtain ⟨x, rfl⟩ := shape
    rw [if_pos char] at letter
    have text : c.wideText (c.layout w p) (some (.i x) : Option (Arg F))
        = encodeWide none [x.setWidth 32] := by
      unfold Conversion.wideText
      rw [wideArg_char wide char, if_neg (by rcases char with conv | conv <;> simp [conv])]
      rfl
    rw [convert_wideChar letter]
    refine outcome_wide wide ?_ ?_
    · exact refused_other (by rcases char with conv | conv <;> simp [conv])
    · rw [text]
      exact wide_unlimited flags_left flags_zero (by decide) (by decide) _ start
  · have string : c.conv = .s ∨ c.conv = .bigS := by
      unfold Conversion.wide at wide
      simp only [decide_eq_true_eq] at wide
      rcases wide with conv | conv | ⟨-, conv | conv⟩
      · exact absurd (.inr conv) char
      · exact .inr conv
      · exact absurd (.inl conv) char
      · exact .inl conv
    have kind : c.conv.kind = some .pointer := by
      rcases string with conv | conv <;> rw [conv] <;> rfl
    rw [kind] at shape
    obtain ⟨q, rfl⟩ := shape
    rw [if_neg char] at letter
    have argument := @wideArg_string F c wide string q
    rw [convert_wideString letter]
    cases target : q.target with
    | wide ws =>
      rw [target] at argument
      have text : c.wideText (c.layout w p) (some (.p q) : Option (Arg F))
          = encodeWide (layoutPrecision p) ws := by
        unfold Conversion.wideText
        rw [argument, if_pos string]
        rfl
      rcases precision_cases p with ⟨none, negative, -⟩ | ⟨n, some', -, value⟩
      · refine outcome_wide wide (refused_precision (by rw [none]; exact nofun)) ?_
        rw [text, none]
        exact wide_unlimited flags_left flags_zero negative bound ws start
      · rcases value with ⟨small, value⟩ | ⟨large, value⟩
        · refine outcome_wide wide (refused_precision (by rw [some']; simpa using small)) ?_
          rw [text, some', show (c.directive w p).p = n from value]
          exact wide_limited flags_left flags_zero small ws start
        · have refused := @refused_string F c w p (some (.p q)) string ws argument n some' large
          rw [show (c.directive w p).p = -1 from value]
          by_cases same : encodeWide none ws = encodeWide (some n) ws
          · refine outcome_wide wide (by rw [refused]; simpa using same) ?_
            rw [text, some', ← same]
            exact wide_unlimited flags_left flags_zero (by decide) (by decide) ws start
          · unfold Field.Outcome Field.printed
            rw [refused, decide_eq_true same]
            exact putWide_refused (by decide) (by decide) large same _
    | _ =>
      rw [target] at argument
      refine outcome_none ?_
      rw [textOf_wide wide, Conversion.wideText, argument]
      rfl

/-- Whether the text of a conversion comes from the environment. -/
def Conv.environmental : Conv → Bool
  | .m | .fp _ _ => true
  | _ => false

/-- Every conversion. -/
theorem convert_outcome (gives : c.conv.environmental = true → env.Gives texts) (takes : c.Takes arg)
    (small : (w.natAbs : Int) ≤ intMax) (bound : -(2 ^ 63) ≤ precisionInt p)
    (octal : c.conv = .o → ∀ n, layoutPrecision p = some n → (n : Int) ≤ intMax) (start : 0 ≤ cnt)
    : (Field.conv c w p arg).Outcome texts cnt (convert env cnt (c.directive w p) arg) := by
  by_cases wide : c.wide = true
  · exact convert_wides wide takes bound start
  · rw [Bool.not_eq_true] at wide
    cases conv : c.conv with
    | m => exact convert_error (gives (by rw [conv]; rfl)) takes conv start
    | fp k upper => exact convert_floating (gives (by rw [conv]; rfl)) takes conv small start
    | p => exact convert_pointers wide takes (by rw [conv]; rfl) bound start
    | n => exact convert_pointers wide takes (by rw [conv]; rfl) bound start
    | s => exact convert_pointers wide takes (by rw [conv]; rfl) bound start
    | bigS => exact convert_pointers wide takes (by rw [conv]; rfl) bound start
    | _ => exact convert_number wide takes (by rw [conv]; rfl) octal start

end Nglibc.Stdio
