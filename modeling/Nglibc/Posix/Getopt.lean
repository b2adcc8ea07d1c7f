import Mathlib.Tactic

/-! Scanning the options of a command line without long options. -/

namespace Nglibc.Getopt

abbrev Word := List UInt8

def dash : UInt8 := 45
def colon : UInt8 := 58
def semicolon : UInt8 := 59
def questionMark : UInt8 := 63

inductive Ordering
  | requireOrder
  | permute
  | returnInOrder
  deriving DecidableEq

/-- `struct _getopt_data`, where `none` is `NULL`. -/
structure GetoptData where
  optind : Nat
  opterr : Bool
  optopt : UInt8
  optarg : Option Word
  initialized : Bool
  nextchar : Option Word
  ordering : Ordering
  firstNonopt : Nat
  lastNonopt : Nat

/-- What is printed to `stderr`, each with the program name and the option. -/
inductive Message
  | invalidOption (program : Word) (c : UInt8)
  | requiresArgument (program : Word) (c : UInt8)

def swap (argv : List Word) (i j : Nat) : List Word :=
  match argv[i]?, argv[j]? with
  | some a, some b => (argv.set i b).set j a
  | _, _ => argv

/-- The inner loops of `exchange`: the segments of the given length at `i` and `j` change places. -/
def swapSegments : Nat → List Word → Nat → Nat → List Word
  | 0, argv, _, _ => argv
  | len + 1, argv, i, j => swapSegments len (swap argv i j) (i + 1) (j + 1)

/-- The outer loop of `exchange`. -/
def exchangeLoop (argv : List Word) (bottom middle top : Nat) : List Word :=
  if top > middle ∧ middle > bottom then
    if top - middle > middle - bottom then
      let len := middle - bottom
      exchangeLoop (swapSegments len argv bottom (top - (middle - bottom))) bottom middle (top - len)
    else
      let len := top - middle
      exchangeLoop (swapSegments len argv bottom middle) (bottom + len) middle top
  else argv
  termination_by top - bottom

def exchange (argv : List Word) (d : GetoptData) : List Word × GetoptData :=
  (exchangeLoop argv d.firstNonopt d.lastNonopt d.optind, { d with
      firstNonopt := d.firstNonopt + (d.optind - d.lastNonopt)
      lastNonopt := d.optind })

/-- `NONOPTION_P` for an element. -/
def Nonoption (w : Word) : Prop := w.head? ≠ some dash ∨ w.tail = []

instance (w : Word) : Decidable (Nonoption w) := inferInstanceAs (Decidable (_ ∨ _))

/-- `_getopt_initialize`, with whether `POSIXLY_CORRECT` is set or asked for. -/
def getoptInitialize (optstring : Word) (d : GetoptData) (posixlyCorrect : Bool)
    : Word × GetoptData :=
  let optind := if d.optind = 0 then 1 else d.optind
  let d := { d with
    optind, firstNonopt := optind, lastNonopt := optind, nextchar := none, initialized := true }
  if optstring.head? = some dash then (optstring.tail, { d with ordering := .returnInOrder })
  else if optstring.head? = some 43 then (optstring.tail, { d with ordering := .requireOrder })
  else if posixlyCorrect then (optstring, { d with ordering := .requireOrder })
  else (optstring, { d with ordering := .permute })

/-- The loop that skips non-options, from `optind` to the end of `argv`. -/
def skipNonoptions (rest : List Word) (optind : Nat) : Nat :=
  match rest with
  | [] => optind
  | w :: rest => if Nonoption w then skipNonoptions rest (optind + 1) else optind

/-- The part of `_getopt_internal_r` that looks for the next element when the order is permuted. -/
def permuteElements (argv : List Word) (d : GetoptData) : List Word × GetoptData :=
  let (argv, d) :=
    if d.firstNonopt ≠ d.lastNonopt ∧ d.lastNonopt ≠ d.optind then exchange argv d
    else if d.lastNonopt ≠ d.optind then (argv, { d with firstNonopt := d.optind })
    else (argv, d)
  let optind := skipNonoptions (argv.drop d.optind) d.optind
  (argv, { d with optind, lastNonopt := optind })

/-- The part that handles the element `--`, if it comes next. -/
def endOptions (argv : List Word) (d : GetoptData) : List Word × GetoptData :=
  if argv[d.optind]? = some [dash, dash] then
    let d := { d with optind := d.optind + 1 }
    let (argv, d) :=
      if d.firstNonopt ≠ d.lastNonopt ∧ d.lastNonopt ≠ d.optind then exchange argv d
      else if d.firstNonopt = d.lastNonopt then (argv, { d with firstNonopt := d.optind })
      else (argv, d)
    (argv, { d with lastNonopt := argv.length, optind := argv.length })
  else (argv, d)

/-- The value of a plain `char`, which is signed. -/
def charValue (c : UInt8) : Int := if c < 128 then c.toNat else c.toNat - 256

structure Result where
  value : Int
  argv : List Word
  data : GetoptData
  message : Option Message

/-- The part that handles the next option character. An access behind a string gives `none`. -/
def nextOption (argv : List Word) (optstring : Word) (printErrors : Bool) (d : GetoptData)
    : Option Result :=
  match d.nextchar with
  | none | some [] => none
  | some (c :: rest) =>
    let d := { d with nextchar := some rest, optind := if rest = [] then d.optind + 1 else d.optind }
    let invalid : Result := {
      value := charValue questionMark
      argv
      data := { d with optopt := c }
      message := if printErrors then some (.invalidOption (argv.headD []) c) else none }
    match optstring.dropWhile (· ≠ c) with
    | [] => some invalid
    | _ :: after =>
      if c = colon ∨ c = semicolon then some invalid
      else if after.head? = some colon then
        if after.tail.head? = some colon then
          if rest ≠ [] then
            some {
              value := charValue c
              argv
              data := { d with optarg := some rest, optind := d.optind + 1, nextchar := none }
              message := none }
          else
            some {
              value := charValue c
              argv
              data := { d with optarg := none, nextchar := none }
              message := none }
        else if rest ≠ [] then
          some {
            value := charValue c
            argv
            data := { d with optarg := some rest, optind := d.optind + 1, nextchar := none }
            message := none }
        else if d.optind = argv.length then
          some {
            value := charValue (if optstring.head? = some colon then colon else questionMark)
            argv
            data := { d with optopt := c, nextchar := none }
            message := if printErrors then some (.requiresArgument (argv.headD []) c) else none }
        else
          match argv[d.optind]? with
          | none => none
          | some arg =>
            some {
              value := charValue c
              argv
              data := { d with optarg := some arg, optind := d.optind + 1, nextchar := none }
              message := none }
      else some { value := charValue c, argv, data := d, message := none }

/-- The part that handles the element at `optind`, once `--` and skipped non-options are behind it. -/
def handleElement (argv : List Word) (optstring : Word) (printErrors : Bool) (d : GetoptData)
    : Option Result :=
  if d.optind = argv.length then
    let d := if d.firstNonopt ≠ d.lastNonopt then { d with optind := d.firstNonopt } else d
    some { value := -1, argv, data := d, message := none }
  else
    match argv[d.optind]? with
    | none => none
    | some w =>
      if Nonoption w then
        if d.ordering = .requireOrder then some { value := -1, argv, data := d, message := none }
        else
          some {
            value := 1
            argv
            data := { d with optarg := some w, optind := d.optind + 1 }
            message := none }
      else nextOption argv optstring printErrors { d with nextchar := some w.tail }

/-- The part of `_getopt_internal_r` that advances to the next element. -/
def nextElement (argv : List Word) (optstring : Word) (printErrors : Bool) (d : GetoptData)
    : Option Result :=
  let d := { d with lastNonopt := min d.lastNonopt d.optind, firstNonopt := min d.firstNonopt d.optind }
  let (argv, d) := if d.ordering = .permute then permuteElements argv d else (argv, d)
  let (argv, d) := endOptions argv d
  handleElement argv optstring printErrors d

/-- `_getopt_internal_r` without long options. -/
def getoptInternalR (argv : List Word) (optstring : Word) (d : GetoptData) (posixlyCorrect : Bool)
    : Option Result :=
  if argv.length < 1 then some { value := -1, argv, data := d, message := none }
  else
    let d := { d with optarg := none }
    let (optstring, d) :=
      if d.optind = 0 ∨ ¬ d.initialized then getoptInitialize optstring d posixlyCorrect
      else if optstring.head? = some dash ∨ optstring.head? = some 43 then (optstring.tail, d)
      else (optstring, d)
    let printErrors := d.opterr && optstring.head? ≠ some colon
    match d.nextchar with
    | none | some [] => nextElement argv optstring printErrors d
    | some (_ :: _) => nextOption argv optstring printErrors d

end Nglibc.Getopt
