import Nglibc.Posix.GetoptCalls

/-! Calls up to the first `-1` follow the reading from left to right, and leave the options in front. -/

namespace Nglibc.Getopt

open List

variable {argv : List Word} {optstring : Word} {d : GetoptData} {prog : Word}
  {front others recent rest : List Word} {w : Word}

/-- The calls up to the first `-1`: what they return before it, and `argv` and the state after it. -/
def calls (optstring : Word) : Nat → List Word → GetoptData
    → Option (List Returned × List Word × GetoptData)
  | 0, _, _ => none
  | count + 1, argv, d =>
    (getoptInternalR argv optstring d false).bind fun result =>
      if result.value = -1 then some ([], result.argv, result.data)
      else
        (calls optstring count result.argv result.data).map fun (returned, final) =>
          ((result.value, result.data.optarg) :: returned, final)

theorem calls_value {count : Nat} {returned : List Returned} {final : List Word × GetoptData}
    (run : calls optstring count argv d = some (returned, final))
    : ∀ e ∈ returned, e.1 ≠ -1 := by
  induction count generalizing argv d returned with
  | zero => cases run
  | succ count ih =>
    obtain ⟨result, -, run⟩ := Option.bind_eq_some_iff.mp run
    split at run
    next => cases run; nofun
    next goesOn =>
      obtain ⟨⟨later, final'⟩, run, eq⟩ := Option.map_eq_some_iff.mp run
      cases eq
      exact forall_mem_cons.mpr ⟨goesOn, ih run⟩

/-- The calls from a state return the values, and end with the options in front of `optind`. -/
def Finishes (optstring : Word) (argv : List Word) (d : GetoptData) (prog : Word)
    (returned : List Returned) (options others : List Word) : Prop :=
  ∃ count d', calls optstring count argv d = some (returned, prog :: (options ++ others), d')
    ∧ d'.optind = 1 + options.length

variable {returned : List Returned} {options : List Word}

theorem Finishes.call {result : Result}
    (finishes : Finishes optstring result.argv result.data prog returned options others)
    (call : getoptInternalR argv optstring d false = some result) (goesOn : result.value ≠ -1)
    : Finishes optstring argv d prog ((result.value, result.data.optarg) :: returned) options others := by
  obtain ⟨count, d', run, optind⟩ := finishes
  refine ⟨count + 1, d', ?_, optind⟩
  rw [calls, call, Option.bind_some, if_neg goesOn, run]
  rfl

theorem Finishes.last {d' : GetoptData}
    (call : getoptInternalR argv optstring d false = some {
      value := -1
      argv := prog :: (options ++ others)
      data := d'
      message := none })
    (optind : d'.optind = 1 + options.length)
    : Finishes optstring argv d prog [] options others := by
  refine ⟨1, d', ?_, optind⟩
  rw [calls, call, Option.bind_some, if_pos rfl]

/-- A run depends on the state only through its first call. -/
theorem Finishes.congr {argv' : List Word} {d' : GetoptData}
    (finishes : Finishes optstring argv d prog returned options others)
    (same : getoptInternalR argv' optstring d' false = getoptInternalR argv optstring d false)
    : Finishes optstring argv' d' prog returned options others := by
  obtain ⟨count, final, run, optind⟩ := finishes
  cases count with
  | zero => cases run
  | succ count =>
    refine ⟨count + 1, final, ?_, optind⟩
    rw [calls, same, ← run, calls]

/-- An element takes at most what follows it. -/
theorem readElement_taken (optstring : Word) (rest : List Word) (chars : Word)
    : (readElement optstring rest.head? chars).2 ≤ rest.length := by
  induction chars with
  | nil => exact Nat.zero_le _
  | cons c chars ih =>
    rw [readElement.eq_def]
    simp only
    split
    next => exact ih
    next => exact ih
    next => exact Nat.zero_le _
    next =>
      split
      next => exact Nat.zero_le _
      next =>
        cases rest with
        | nil => exact Nat.zero_le _
        | cons w rest => exact Nat.succ_le_succ (Nat.zero_le _)

variable {c : UInt8} {chars : Word}

/-- The given characters of an element are left; behind the last one the next element follows. -/
def AtCharacters (argv : List Word) (d : GetoptData) (prog : Word) (front others : List Word) (w : Word)
    (rest : List Word) (left : Word) : Prop :=
  (left ≠ [] ∧ Inside argv d prog front others w rest left)
  ∨ left = [] ∧ Between argv d prog front others [w] rest

theorem Inside.char (inside : Inside argv d prog front others w rest (c :: chars)) (optopt : UInt8)
    : AtCharacters argv { d with
        nextchar := some chars
        optind := if chars = [] then d.optind + 1 else d.optind
        optopt } prog front others w rest chars := by
  by_cases ends : chars = []
  · refine .inr ⟨ends, ?_⟩
    subst ends
    exact {
      argv_eq := by rw [inside.argv_eq, append_assoc _ [w]]; rfl
      first := inside.first
      last := inside.last
      optind := congrArg (· + 1) inside.optind
      nextchar := .inr rfl
      initialized := inside.initialized
      ordering := inside.ordering }
  · refine .inl ⟨ends, ?_⟩
    rw [if_neg ends]
    exact { inside with nextchar := rfl, someLeft := ends }

variable {left : Word}

section

variable (inside : Inside argv d prog front others w rest left)
include inside

theorem Inside.lt
    : d.optind < argv.length := by
  simp only [inside.argv_eq, inside.optind, length_cons, length_append]
  omega

/-- Behind the element that is read stands the first of the rest. -/
theorem Inside.next
    : argv[d.optind + 1]? = rest.head? := by
  have layout : argv = prog :: (front ++ others ++ [w]) ++ rest := by
    rw [inside.argv_eq, cons_append, append_assoc _ [w]]
    rfl
  have length : (prog :: (front ++ others ++ [w])).length = d.optind + 1 := by
    simp only [inside.optind, length_cons, length_append, length_nil]
    omega
  rw [layout, getElem?_append_right (Nat.le_of_eq length), length, Nat.sub_self]
  cases rest <;> rfl

theorem Inside.argument {taken : Nat} (most : taken ≤ rest.length) (optarg : Option Word) (optopt : UInt8)
    : Between argv { d with
        nextchar := none
        optind := d.optind + 1 + taken
        optarg
        optopt } prog front others (w :: rest.take taken) (rest.drop taken) where
  argv_eq := by
    rw [inside.argv_eq, append_assoc _ (w :: rest.take taken), cons_append,
      take_append_drop]
  first := inside.first
  last := inside.last
  optind := by
    simp only [inside.optind, length_cons, length_take_of_le most]
    omega
  nextchar := .inl rfl
  initialized := inside.initialized
  ordering := inside.ordering

end

/-- Such a character is returned without argument. -/
theorem readElement_char {value : Int} {next : Option Word}
    (kind : (kindOf optstring c = .invalid ∧ value = charValue questionMark)
      ∨ kindOf optstring c = .plain ∧ value = charValue c)
    : readElement optstring next (c :: chars)
      = ((value, none) :: (readElement optstring next chars).1, (readElement optstring next chars).2) := by
  rw [readElement.eq_def]
  rcases kind with ⟨kind, rfl⟩ | ⟨kind, rfl⟩ <;> simp only [kind]

section Plain

variable (plain : optstring.head? ≠ some dash ∧ optstring.head? ≠ some 43)
include plain

theorem Between.call (between : Between argv d prog front others recent rest)
    : getoptInternalR argv optstring d false
      = nextElement argv optstring (d.opterr && optstring.head? ≠ some colon) { d with optarg := none } := by
  have nonempty : ¬ argv.length < 1 := by
    rw [between.argv_eq, length_cons]
    omega
  have started : ¬ (d.optind = 0 ∨ ¬ d.initialized = true) := by
    rintro (zero | fresh)
    · have := between.optind
      omega
    · exact fresh between.initialized
  rw [getoptInternalR, if_neg nonempty]
  simp only [if_neg started, if_neg (not_or.mpr plain)]
  rcases between.nextchar with nextchar | nextchar <;> rw [nextchar]

theorem Inside.call (inside : Inside argv d prog front others w rest left)
    : getoptInternalR argv optstring d false
      = nextOption argv optstring (d.opterr && optstring.head? ≠ some colon) { d with optarg := none } := by
  have nonempty : ¬ argv.length < 1 := by
    rw [inside.argv_eq, length_cons]
    omega
  have started : ¬ (d.optind = 0 ∨ ¬ d.initialized = true) := by
    rintro (zero | fresh)
    · have := inside.optind
      omega
    · exact fresh inside.initialized
  obtain ⟨c, chars, rfl⟩ := exists_cons_of_ne_nil inside.someLeft
  rw [getoptInternalR, if_neg nonempty]
  simp only [if_neg started, if_neg (not_or.mpr plain)]
  rw [inside.nextchar]

/-- The calls from between two elements follow the reading of the elements that are left. -/
def FollowsReading (optstring prog : Word) (elements : List Word) : Prop :=
  ∀ {argv d front others recent}, Between argv d prog front others recent elements
    → (∀ e ∈ (read optstring elements).returned, e.1 ≠ -1)
    → Finishes optstring argv d prog (read optstring elements).returned
      (front ++ recent ++ (read optstring elements).options) (others ++ (read optstring elements).others)

/-- The calls from inside an element follow its reading; by induction over its characters. -/
theorem AtCharacters.finishes (follows : ∀ taken, FollowsReading optstring prog (rest.drop taken))
    {taken : Nat} (at_ : AtCharacters argv d prog front others w rest left)
    (element : readElement optstring rest.head? left = (returned, taken))
    (values : ∀ e ∈ returned ++ (read optstring (rest.drop taken)).returned, e.1 ≠ -1)
    : Finishes optstring argv d prog (returned ++ (read optstring (rest.drop taken)).returned)
        (front ++ (w :: rest.take taken ++ (read optstring (rest.drop taken)).options))
        (others ++ (read optstring (rest.drop taken)).others) := by
  induction left generalizing argv d returned taken with
  | nil =>
    obtain ⟨some', -⟩ | ⟨-, between⟩ := at_
    · exact absurd rfl some'
    · cases element
      have later := follows 0 between values
      rwa [append_assoc] at later
  | cons c chars ih =>
    obtain ⟨-, inside⟩ | ⟨none', -⟩ := at_
    · have call := inside.call plain
      have inside' : Inside argv { d with optarg := none } prog front others w rest (c :: chars) :=
        { inside with }
      have kinds : (∃ value, (kindOf optstring c = .invalid ∧ value = charValue questionMark)
            ∨ kindOf optstring c = .plain ∧ value = charValue c)
          ∨ kindOf optstring c = .optional ∨ kindOf optstring c = .required := by
        cases kindOf optstring c with
        | invalid => exact .inl ⟨_, .inl ⟨rfl, rfl⟩⟩
        | plain => exact .inl ⟨_, .inr ⟨rfl, rfl⟩⟩
        | optional => exact .inr (.inl rfl)
        | required => exact .inr (.inr rfl)
      rcases kinds with ⟨value, kind⟩ | kind
      · obtain ⟨optopt, message, handled⟩ := nextOption_char
          (d.opterr && optstring.head? ≠ some colon) inside'.nextchar kind
        rw [readElement_char kind] at element
        cases element
        obtain ⟨goesOn, values⟩ := forall_mem_cons.mp values
        exact (ih (inside'.char optopt) rfl values).call (call.trans handled) goesOn
      · obtain ⟨value, argument, taken', single, optopt, message, handled⟩ := nextOption_argument
          (d.opterr && optstring.head? ≠ some colon) inside'.nextchar rfl kind inside.lt
        have most := readElement_taken optstring rest (c :: chars)
        rw [← inside.next, single] at element most
        cases element
        obtain ⟨goesOn, values⟩ := forall_mem_cons.mp values
        have later := follows taken (inside'.argument most argument optopt) values
        rw [append_assoc] at later
        exact later.call (call.trans handled) goesOn
    · cases none'

/-- By strong induction over the elements that are left: the non-options in front of the next option are
skipped, and then it is read.
-/
theorem followsReading (elements : List Word) : FollowsReading optstring prog elements := by
  induction total : elements.length using Nat.strongRecOn generalizing elements with
  | ind total ih =>
    intro argv d front others recent between values
    obtain ⟨skipped, left, rfl, nonoptions, next⟩ := split_nonoptions elements
    have between' : Between argv { d with optarg := none } prog front others recent (skipped ++ left) :=
      { between with }
    rw [read_skip skipped left nonoptions] at values ⊢
    have call := between.call plain
    cases left with
    | nil =>
      rw [append_nil] at between'
      obtain ⟨d', handled, optind⟩ := between'.nextElement_done nonoptions
      have last := Finishes.last (call.trans handled) optind
      simpa [read] using last
    | cons w rest =>
      have option := next w rfl
      by_cases ends : w = [dash, dash]
      · subst ends
        obtain ⟨d', handled, optind⟩ := between'.nextElement_end nonoptions
        have last := Finishes.last (call.trans handled) optind
        simpa [read] using last
      · obtain ⟨argv', d', handled, inside, optarg, opterr⟩ := between'.nextElement_option optstring
          (d.opterr && optstring.head? ≠ some colon) nonoptions option ends
        have follows : ∀ taken, FollowsReading optstring prog (rest.drop taken) := by
          intro taken
          refine ih _ ?_ _ rfl
          rw [← total, length_append, length_cons, length_drop]
          omega
        obtain ⟨⟨returned, taken⟩, element⟩ : ∃ element, readElement optstring rest.head? w.tail = element :=
          ⟨_, rfl⟩
        rw [read, if_neg ends, if_neg option] at values ⊢
        simp only [element] at values ⊢
        have later := AtCharacters.finishes plain follows (.inl ⟨inside.someLeft, inside⟩) element values
        rw [append_assoc others skipped] at later
        refine later.congr (call.trans (handled.trans ?_))
        have cleared : { d' with optarg := none } = d' := by
          cases d'
          exact congrArg (GetoptData.mk _ _ _ · _ _ _ _ _) optarg.symm
        rw [inside.call plain, cleared, opterr]

end Plain

end Nglibc.Getopt

/-! The calls from a fresh state read the whole command line, unless it has the option character whose value
is `-1`.
-/

namespace Nglibc.Getopt

variable {argv : List Word} {optstring : Word} {d : GetoptData}

/-- No call was made yet, or the scan is to start again. -/
def Fresh (d : GetoptData) : Prop := d.optind = 0 ∨ d.optind = 1 ∧ d.initialized = false

/-- The calls from `d` return what the reading of the elements does, and end with the options in front and
`optind` behind them. Both groups keep their order.
-/
def Meets (argv : List Word) (optstring : Word) (d : GetoptData) : Prop :=
  let reading := read optstring argv.tail
  (∃ count d', calls optstring count argv d
      = some (reading.returned, argv.take 1 ++ (reading.options ++ reading.others), d')
    ∧ (argv ≠ [] → d'.optind = 1 + reading.options.length))
  ∧ (reading.options ++ reading.others).Perm argv.tail
  ∧ reading.options.Sublist argv.tail ∧ reading.others.Sublist argv.tail

/-- The first call starts as if the scan were between the program name and the first element. -/
theorem Fresh.start (fresh : Fresh d)
    (plain : optstring.head? ≠ some dash ∧ optstring.head? ≠ some 43) (prog : Word) (elements : List Word)
    : ∃ d', Between (prog :: elements) d' prog [] [] [] elements
      ∧ getoptInternalR (prog :: elements) optstring d false
        = getoptInternalR (prog :: elements) optstring d' false := by
  have start : d.optind = 0 ∨ ¬ d.initialized = true := by
    rcases fresh with zero | ⟨-, fresh⟩
    · exact .inl zero
    · exact .inr (by rw [fresh]; exact Bool.false_ne_true)
  have optind : (if d.optind = 0 then 1 else d.optind) = 1 := by
    rcases fresh with zero | ⟨one, -⟩
    · rw [if_pos zero]
    · rw [one]
      rfl
  have between : Between (prog :: elements) { d with
      optarg := none
      optind := 1
      firstNonopt := 1
      lastNonopt := 1
      nextchar := none
      initialized := true
      ordering := .permute } prog [] [] [] elements := {
    argv_eq := rfl
    first := rfl
    last := rfl
    optind := rfl
    nextchar := .inl rfl
    initialized := rfl
    ordering := rfl }
  have nonempty : ¬ (prog :: elements).length < 1 := Nat.not_lt.mpr (Nat.le_add_left 1 elements.length)
  refine ⟨_, between, ?_⟩
  rw [between.call plain, getoptInternalR, if_neg nonempty]
  simp only [if_pos start, getoptInitialize, optind, if_neg plain.1, if_neg plain.2, Bool.false_eq_true,
    if_false]

/-- An option character with the value `-1` ends the calls early: it is the only one whose `char` is read as
that value.
-/
theorem getopt_permutes (fresh : Fresh d)
    (plain : optstring.head? ≠ some dash ∧ optstring.head? ≠ some 43)
    : Meets argv optstring d ↔ ∀ e ∈ (read optstring argv.tail).returned, e.1 ≠ charValue 255 := by
  constructor
  · rintro ⟨⟨count, d', run, -⟩, -⟩
    exact calls_value run
  · intro values
    refine ⟨?_, read_groups argv.tail⟩
    cases argv with
    | nil =>
      refine ⟨1, d, ?_, fun nonempty => absurd rfl nonempty⟩
      simp [calls, getoptInternalR, read]
    | cons prog elements =>
      obtain ⟨d', between, same⟩ := fresh.start plain prog elements
      have finishes := (followsReading plain elements between values).congr same
      obtain ⟨count, final, run, optind⟩ := finishes
      refine ⟨count, final, run, fun _ => optind⟩

/-- The state of a program that starts, with `opterr` unset. -/
def initial : GetoptData := {
  optind := 1
  opterr := false
  optopt := questionMark
  optarg := none
  initialized := false
  nextchar := none
  ordering := .permute
  firstNonopt := 0
  lastNonopt := 0 }

/-- The elements `a`, `-b`, `c`, `--`, `-d` with the option string `b:`. -/
theorem getopt_permutes_ab : Meets [[112], [97], [45, 98], [99], [45, 45], [45, 100]] [98, 58] initial := by
  have reading : read [98, 58] [[97], [45, 98], [99], [45, 45], [45, 100]]
      = ⟨[(98, some [99])], [[45, 98], [99], [45, 45]], [[97], [45, 100]]⟩ := by
    simp [read, readElement, kindOf, charValue, Nonoption, dash, colon, semicolon]
  refine (getopt_permutes (.inr ⟨rfl, rfl⟩) (by decide)).mpr ?_
  rw [List.tail_cons, reading]
  decide

/-- The option `\xff` is listed, and the call that reads it returns `-1`. -/
theorem getopt_ff : ¬ Meets [[112], [45, 255], [45, 97]] [255, 97] initial := by
  rintro ⟨⟨count, d', run, -⟩, -⟩
  refine calls_value run (charValue 255, none) ?_ rfl
  simp [read, readElement, kindOf, Nonoption, dash, colon, semicolon]

end Nglibc.Getopt
