import Mathlib.Data.Nat.Digits.Defs
import Nglibc.Stdio.Printf

/-! Formats by their parts, and the text that a format gives with its arguments. It is written
without reference to `printf_core`.
-/

namespace Nglibc.Stdio

variable {F : Type}

inductive Flag where
  | alt
  | zero
  | left
  | space
  | plus
  | group
  deriving DecidableEq

/-- A width or a precision: none, a number by its decimal digits, the next argument (`*`), or
the argument with a number (`*m$`).
-/
inductive Amount where
  | none
  | digits (ds : List Nat)
  | next
  | numbered (k : Nat)
  deriving DecidableEq

inductive Modifier where
  | none
  | hh
  | h
  | l
  | ll
  | j
  | z
  | t
  | bigL
  deriving DecidableEq

/-- The conversions; the letters of those in floating point are `a`, `e`, `f` and `g`. -/
inductive Conv where
  | d
  | i
  | o
  | u
  | x
  | bigX
  | c
  | s
  | p
  | n
  | bigC
  | bigS
  | m
  | fp (kind : Fin 4) (upper : Bool)
  deriving DecidableEq

/-- A conversion specification; `pos` is the number of its argument. -/
structure Conversion where
  pos : Option Nat
  flags : List Flag
  width : Amount
  prec : Amount
  modifier : Modifier
  conv : Conv
  deriving DecidableEq

/-- A format is a list of code units other than `%`, of pairs `%%` and of conversions. -/
inductive Item where
  | literal (u : Nat)
  | percent
  | conv (c : Conversion)
  deriving DecidableEq

def Flag.unit : Flag → Nat
  | .alt => '#'.toNat
  | .zero => '0'.toNat
  | .left => '-'.toNat
  | .space => ' '.toNat
  | .plus => '+'.toNat
  | .group => 39

def digitUnit (d : Nat) : Nat := '0'.toNat + d

def decimal (k : Nat) : List Nat := (Nat.digits 10 k).reverse.map digitUnit

def Amount.units : Amount → List Nat
  | .none => []
  | .digits ds => ds.map digitUnit
  | .next => ['*'.toNat]
  | .numbered k => '*'.toNat :: (decimal k ++ ['$'.toNat])

def Modifier.units : Modifier → List Nat
  | .none => []
  | .hh => ['h'.toNat, 'h'.toNat]
  | .h => ['h'.toNat]
  | .l => ['l'.toNat]
  | .ll => ['l'.toNat, 'l'.toNat]
  | .j => ['j'.toNat]
  | .z => ['z'.toNat]
  | .t => ['t'.toNat]
  | .bigL => ['L'.toNat]

def Conv.letter : Conv → Char
  | .d => 'd'
  | .i => 'i'
  | .o => 'o'
  | .u => 'u'
  | .x => 'x'
  | .bigX => 'X'
  | .c => 'c'
  | .s => 's'
  | .p => 'p'
  | .n => 'n'
  | .bigC => 'C'
  | .bigS => 'S'
  | .m => 'm'
  | .fp 0 false => 'a'
  | .fp 1 false => 'e'
  | .fp 2 false => 'f'
  | .fp 3 false => 'g'
  | .fp 0 true => 'A'
  | .fp 1 true => 'E'
  | .fp 2 true => 'F'
  | .fp 3 true => 'G'

def precisionUnits (p : Amount) : List Nat :=
  if p = .none then [] else '.'.toNat :: p.units

def positionUnits : Option Nat → List Nat
  | none => []
  | some k => decimal k ++ ['$'.toNat]

def Conversion.units (c : Conversion) : List Nat :=
  positionUnits c.pos ++ (c.flags.map Flag.unit ++ (c.width.units ++ (precisionUnits c.prec
    ++ (c.modifier.units ++ [c.conv.letter.toNat]))))

def Item.units : Item → List Nat
  | .literal u => [u]
  | .percent => ['%'.toNat, '%'.toNat]
  | .conv c => '%'.toNat :: c.units

def itemUnits (items : List Item) : List Nat := items.flatMap Item.units

def itemBytes (items : List Item) : List UInt8 := (itemUnits items).map UInt8.ofNat

def argType : Modifier → Conv → Option ArgType
  | .none, .d | .none, .i => some .int
  | .hh, .d | .hh, .i => some .char
  | .h, .d | .h, .i => some .short
  | .l, .d | .l, .i => some .long
  | .ll, .d | .ll, .i => some .llong
  | .j, .d | .j, .i => some .imax
  | .z, .d | .z, .i | .t, .d | .t, .i => some .pdiff
  | .none, .o | .none, .u | .none, .x | .none, .bigX => some .uint
  | .hh, .o | .hh, .u | .hh, .x | .hh, .bigX => some .uchar
  | .h, .o | .h, .u | .h, .x | .h, .bigX => some .ushort
  | .l, .o | .l, .u | .l, .x | .l, .bigX => some .ulong
  | .ll, .o | .ll, .u | .ll, .x | .ll, .bigX => some .ullong
  | .j, .o | .j, .u | .j, .x | .j, .bigX => some .umax
  | .z, .o | .z, .u | .z, .x | .z, .bigX => some .sizet
  | .t, .o | .t, .u | .t, .x | .t, .bigX => some .sizet
  | .none, .c => some .char
  | .l, .c | .none, .bigC => some .int
  | .none, .s | .l, .s | .none, .bigS => some .ptr
  | .none, .p => some .uiptr
  | .none, .m => some .noarg
  | .none, .n | .hh, .n | .h, .n | .l, .n | .ll, .n | .j, .n | .z, .n | .t, .n => some .ptr
  | .none, .fp _ _ | .l, .fp _ _ => some .dbl
  | .bigL, .fp _ _ => some .ldbl
  | _, _ => none

/-- What a format says about one text: flags, with `left` also for a negative width, the least
width, and the precision if there is one.
-/
structure Layout where
  alt : Bool
  zero : Bool
  left : Bool
  space : Bool
  plus : Bool
  width : Nat
  prec : Option Nat

def spaces (n : Nat) : List UInt8 := List.replicate n ' '.toUInt8

def zeros (n : Nat) : List UInt8 := List.replicate n '0'.toUInt8

def Layout.justify (lay : Layout) (text : List UInt8) : List UInt8 :=
  let n := lay.width - text.length
  if lay.left then text ++ spaces n else spaces n ++ text

def digitChar (upper : Bool) (d : Nat) : UInt8 :=
  if d < 10 then '0'.toUInt8 + UInt8.ofNat d
  else (if upper then 'A'.toUInt8 else 'a'.toUInt8) + UInt8.ofNat (d - 10)

def numeral (base : Nat) (upper : Bool) (x : Nat) : List UInt8 :=
  (Nat.digits base x).reverse.map (digitChar upper)

/-- A number behind a sign or `0x`, with at least `least` digits. The flag `0` fills with zeros
unless there is a precision or the flag `-`.
-/
def Layout.number (lay : Layout) (least : Nat) (pre digits : List UInt8) : List UInt8 :=
  let body := zeros (least - digits.length) ++ digits
  if lay.zero ∧ ¬ lay.left ∧ lay.prec = none then
    pre ++ zeros (lay.width - (pre.length + body.length)) ++ body
  else lay.justify (pre ++ body)

def Layout.least (lay : Layout) : Nat := lay.prec.getD 1

def Layout.signed (lay : Layout) (x : Int) : List UInt8 :=
  let sign :=
    if x < 0 then ['-'.toUInt8]
    else if lay.plus then ['+'.toUInt8]
    else if lay.space then [' '.toUInt8]
    else []
  lay.number lay.least sign (numeral 10 false x.natAbs)

/-- With the flag `#` the first digit of an octal number is 0. -/
def Layout.octal (lay : Layout) (x : Nat) : List UInt8 :=
  let digits := numeral 8 false x
  lay.number (if lay.alt then max lay.least (digits.length + 1) else lay.least) [] digits

def Layout.hex (lay : Layout) (upper : Bool) (x : Nat) : List UInt8 :=
  let pre :=
    if lay.alt ∧ x ≠ 0 then ['0'.toUInt8, if upper then 'X'.toUInt8 else 'x'.toUInt8] else []
  lay.number lay.least pre (numeral 16 upper x)

/-- A pointer is written as with `%#x`; this implementation gives a precision at least 16
digits.
-/
def Layout.pointer (lay : Layout) (x : Nat) : List UInt8 :=
  Layout.hex { lay with alt := true, prec := lay.prec.map (max 16) } false x

def stringBytes (b : List UInt8) : List UInt8 := b.takeWhile (fun b => b ≠ 0)

def Layout.string (lay : Layout) (b : List UInt8) : List UInt8 := lay.justify (match lay.prec with
    | none => stringBytes b
    | some n => (stringBytes b).take n)

def scalar (wc : BitVec 32) : Option Char :=
  if valid : wc.toNat.isValidChar then some (Char.ofNatAux wc.toNat valid) else none

/-- The bytes of the whole characters of a wide string that fit in `limit` bytes. -/
def encodeWide : Option Nat → List (BitVec 32) → Option (List UInt8)
  | _, [] => some []
  | limit, wc :: rest =>
    if wc = 0 ∨ limit = some 0 then some []
    else
      match scalar wc with
      | none => none
      | some c =>
        let bytes := String.utf8EncodeChar c
        match limit with
        | none => (encodeWide none rest).map (fun more => bytes ++ more)
        | some n =>
          if bytes.length ≤ n then
            (encodeWide (some (n - bytes.length)) rest).map (fun more => bytes ++ more)
          else some []

/-- The texts that are not made here: of a number in floating point with the width, the
precision and the flags, and of the last error.
-/
structure Texts (F : Type) where
  fp : F → Nat → Option Nat → Flags → Char → List UInt8
  message : List UInt8

def Conversion.flagSet (c : Conversion) (negative : Bool) : Flags where
  alt := decide (Flag.alt ∈ c.flags)
  zero := decide (Flag.zero ∈ c.flags)
  left := decide (Flag.left ∈ c.flags) || negative
  padPos := decide (Flag.space ∈ c.flags)
  markPos := decide (Flag.plus ∈ c.flags)
  grouped := decide (Flag.group ∈ c.flags)

/-- The layout of a conversion with the values of its width and precision. A negative width is
the flag `-`, and a negative precision is none.
-/
def Conversion.layout (c : Conversion) (w : Int) (p : Option Int) : Layout where
  alt := decide (Flag.alt ∈ c.flags)
  zero := decide (Flag.zero ∈ c.flags)
  left := decide (Flag.left ∈ c.flags) || decide (w < 0)
  space := decide (Flag.space ∈ c.flags)
  plus := decide (Flag.plus ∈ c.flags)
  width := w.natAbs
  prec := p.bind (fun p => if p < 0 then none else some p.toNat)

def Conversion.wideArg (c : Conversion) (arg : Option (Arg F)) : Option (List (BitVec 32)) :=
  match c.modifier, c.conv, arg with
  | .l, .c, some (.i x) | _, .bigC, some (.i x) => some [x.setWidth 32]
  | .l, .s, some (.p p) | _, .bigS, some (.p p) =>
    match p.target with
    | .wide ws => some ws
    | _ => none
  | _, _, _ => none

def Conversion.wide (c : Conversion) : Bool :=
  c.conv = .bigC ∨ c.conv = .bigS ∨ c.modifier = .l ∧ (c.conv = .c ∨ c.conv = .s)

/-- The text of a wide character or a wide string before it is padded. A precision only counts
for strings.
-/
def Conversion.wideText (c : Conversion) (lay : Layout) (arg : Option (Arg F))
    : Option (List UInt8) :=
  (c.wideArg arg).bind
    (encodeWide (if c.conv = .s ∨ c.conv = .bigS then lay.prec else none))

def Conversion.textOf (texts : Texts F) (c : Conversion) (w : Int) (p : Option Int)
    (arg : Option (Arg F))
    : Option (List UInt8) :=
  let lay := c.layout w p
  if c.wide then (c.wideText lay arg).map lay.justify
  else
    match c.conv, arg with
    | .d, some (.i x) | .i, some (.i x) => some (lay.signed x.toInt)
    | .o, some (.i x) => some (lay.octal x.toNat)
    | .u, some (.i x) => some (lay.number lay.least [] (numeral 10 false x.toNat))
    | .x, some (.i x) => some (lay.hex false x.toNat)
    | .bigX, some (.i x) => some (lay.hex true x.toNat)
    | .p, some (.p p) => some (lay.pointer p.addr.toNat)
    | .n, some (.p _) => some []
    | .m, none => some (lay.string texts.message)
    | .c, some (.i x) => some (lay.justify [UInt8.ofBitVec (x.setWidth 8)])
    | .s, some (.p p) =>
      if p.addr = 0 then some (lay.string nullText)
      else
        match p.target with
        | .bytes b => some (lay.string b)
        | _ => none
    | .fp _ _, some (.f x) =>
      let fl := c.flagSet (w < 0)
      some (texts.fp x lay.width lay.prec { fl with zero := fl.zero && !fl.left }
        c.conv.letter)
    | _, _ => none

/-- The type under which an argument with a number is read where the format refers to it as
some type.
-/
abbrev TypeReading := Nat → ArgType → ArgType

def ownType : TypeReading := fun _ type => type

def ofDigits (ds : List Nat) : Nat := ds.foldl (fun n d => 10 * n + d) 0

def Amount.value (reading : TypeReading)
    : Amount → List (Va F) → Option (Option Int × List (Va F))
  | .none, ap => some (.none, ap)
  | .digits ds, ap => some (some (ofDigits ds), ap)
  | .next, .int n :: ap => some (some n.toInt, ap)
  | .next, _ => .none
  | .numbered k, ap =>
    match popArg (reading k .int) (ap.drop (k - 1)) with
    | some (.i n, _) => some (some (n.setWidth 32).toInt, ap)
    | _ => .none

/-- The argument of a conversion, if it takes one: the next one, or the one with its number. -/
def Conversion.argument (reading : TypeReading) (c : Conversion) (ap : List (Va F))
    : Option (Option (Arg F) × List (Va F)) :=
  match argType c.modifier c.conv, c.pos with
  | none, _ => none
  | some .noarg, _ => some (none, ap)
  | some type, none => (popArg type ap).map (fun (arg, ap) => (some arg, ap))
  | some type, some k =>
    (popArg (reading k type) (ap.drop (k - 1))).map (fun (arg, _) => (some arg, ap))

/-- A byte, or a conversion with its width, its precision and its argument. -/
inductive Field (F : Type) where
  | byte (b : UInt8)
  | conv (c : Conversion) (w : Int) (p : Option Int) (arg : Option (Arg F))

def Field.text (texts : Texts F) : Field F → Option (List UInt8)
  | .byte b => some [b]
  | .conv c w p arg => c.textOf texts w p arg

def Conversion.field (reading : TypeReading) (c : Conversion) (ap : List (Va F))
    : Option (Field F × List (Va F)) := do
  let (w, ap) ← c.width.value reading ap
  let (p, ap) ← c.prec.value reading ap
  let (arg, ap) ← c.argument reading ap
  pure (.conv c (w.getD 0) p arg, ap)

def fields (reading : TypeReading) : List Item → List (Va F) → Option (List (Field F))
  | [], _ => some []
  | .literal u :: rest, ap =>
    (fields reading rest ap).map (fun more => .byte (UInt8.ofNat u) :: more)
  | .percent :: rest, ap =>
    (fields reading rest ap).map (fun more => .byte '%'.toUInt8 :: more)
  | .conv c :: rest, ap => do
    let (field, ap) ← c.field reading ap
    let more ← fields reading rest ap
    pure (field :: more)

def collect (text : Field F → Option (List UInt8)) : List (Field F) → Option (List UInt8)
  | [] => some []
  | field :: rest => do
    let first ← text field
    let more ← collect text rest
    pure (first ++ more)

/-- The formatted text, `none` if the arguments do not match the format. -/
def formatText (texts : Texts F) (reading : TypeReading) (items : List Item) (ap : List (Va F))
    : Option (List UInt8) :=
  (fields reading items ap).bind (collect (Field.text texts))

def Amount.references : Amount → List (Option Nat × ArgType)
  | .next => [(.none, .int)]
  | .numbered k => [(some k, .int)]
  | _ => []

def Conversion.argReferences (c : Conversion) : List (Option Nat × ArgType) :=
  match argType c.modifier c.conv with
  | none | some .noarg => []
  | some type => [(c.pos, type)]

def Conversion.references (c : Conversion) : List (Option Nat × ArgType) :=
  c.width.references ++ c.prec.references ++ c.argReferences

def Item.references : Item → List (Option Nat × ArgType)
  | .conv c => c.references
  | _ => []

def references (items : List Item) : List (Option Nat × ArgType) := items.flatMap Item.references

/-- A width has no leading zero, which would be a flag. -/
def Amount.IsWidth : Amount → Prop
  | .digits ds => (∀ d ∈ ds, d < 10) ∧ ds.headD 0 ≠ 0
  | _ => True

def Amount.IsPrecision : Amount → Prop
  | .digits ds => ∀ d ∈ ds, d < 10
  | _ => True

/-- A number in digits that is an `int`. -/
def Amount.Fits : Amount → Prop
  | .digits ds => (ofDigits ds : Int) ≤ intMax
  | _ => True

structure Conversion.WellFormed (c : Conversion) : Prop where
  width : c.width.IsWidth
  prec : c.prec.IsPrecision
  legal : argType c.modifier c.conv ≠ none
  unnumbered : argType c.modifier c.conv = some .noarg → c.pos = none

/-- A literal is a byte other than `%` and the terminator. -/
def Item.WellFormed : Item → Prop
  | .literal u => u ≠ '%'.toNat ∧ 0 < u ∧ u < 256
  | .percent => True
  | .conv c => c.WellFormed

/-- The arguments of a format have no numbers, or all of them have numbers from 1 on without a
gap.
-/
def Numbering (refs : List (Option Nat × ArgType)) : Prop := (∀ r ∈ refs, r.1 = none)
    ∨ (∀ r ∈ refs, ∃ k, r.1 = some (k + 1) ∧ ∀ j ≤ k, ∃ q ∈ refs, q.1 = some (j + 1))

def lastType (refs : List (Option Nat × ArgType)) : TypeReading := fun k type =>
  refs.foldl (fun last r => if r.1 = some k then r.2 else last) type

end Nglibc.Stdio
