import Nglibc.Posix.GetoptReading

/-! What one call does, with `argv` as groups of elements: options that stand in front, elements that are
no options, options behind them, and the rest.
-/

namespace Nglibc.Getopt

open List

variable {argv : List Word} {optstring : Word} {d : GetoptData}

/-! One option character -/

variable (printErrors : Bool) {c : UInt8} {rest : Word}

/-- An option character without argument leaves the rest of the element. -/
theorem nextOption_char (nextchar : d.nextchar = some (c :: rest)) {value : Int}
    (kind : (kindOf optstring c = .invalid ∧ value = charValue questionMark)
      ∨ kindOf optstring c = .plain ∧ value = charValue c)
    : ∃ optopt message, nextOption argv optstring printErrors d = some {
        value
        argv
        data := { d with
          nextchar := some rest
          optind := if rest = [] then d.optind + 1 else d.optind
          optopt }
        message } := by
  rw [nextOption, nextchar]
  rw [kindOf] at kind
  cases found : optstring.dropWhile (· ≠ c) with
  | nil =>
    simp only [found, true_and, reduceCtorEq, false_and, or_false] at kind ⊢
    subst kind
    exact ⟨c, _, rfl⟩
  | cons _ after =>
    simp only [found] at kind ⊢
    by_cases special : c = colon ∨ c = semicolon
    · simp only [if_pos special, true_and, reduceCtorEq, false_and, or_false] at kind ⊢
      subst kind
      exact ⟨c, _, rfl⟩
    · simp only [if_neg special] at kind ⊢
      by_cases takes : after.head? = some colon
      · rw [if_pos takes] at kind
        by_cases twice : after.tail.head? = some colon
        · rw [if_pos twice] at kind
          simp at kind
        · rw [if_neg twice] at kind
          simp at kind
      · simp only [if_neg takes, true_and, reduceCtorEq, false_and, false_or] at kind ⊢
        subst kind
        exact ⟨d.optopt, none, rfl⟩

/-- An option character that may have an argument ends the element. -/
theorem nextOption_argument (nextchar : d.nextchar = some (c :: rest)) (optarg : d.optarg = none)
    (kind : kindOf optstring c = .optional ∨ kindOf optstring c = .required)
    (inside : d.optind < argv.length)
    : ∃ value argument taken, readElement optstring argv[d.optind + 1]? (c :: rest)
          = ([(value, argument)], taken)
        ∧ ∃ optopt message, nextOption argv optstring printErrors d = some {
            value
            argv
            data := { d with
              nextchar := none
              optind := d.optind + 1 + taken
              optarg := argument
              optopt }
            message } := by
  rw [nextOption, nextchar, readElement.eq_def]
  simp only
  rw [kindOf] at kind ⊢
  cases found : optstring.dropWhile (· ≠ c) with
  | nil => simp only [found, reduceCtorEq, or_self] at kind
  | cons _ after =>
    simp only [found] at kind ⊢
    by_cases special : c = colon ∨ c = semicolon
    · simp [if_pos special] at kind
    simp only [if_neg special] at kind ⊢
    by_cases takes : after.head? = some colon
    · simp only [if_pos takes]
      by_cases twice : after.tail.head? = some colon
      · simp only [if_pos twice]
        by_cases ends : rest = []
        · refine ⟨_, _, _, rfl, d.optopt, none, ?_⟩
          simp [ends]
        · refine ⟨_, _, _, rfl, d.optopt, none, ?_⟩
          simp [ends]
      · simp only [if_neg twice]
        by_cases ends : rest = []
        · simp only [ends, ne_eq, not_true_eq_false, if_false, if_true]
          by_cases last : d.optind + 1 = argv.length
          · rw [if_pos last, getElem?_eq_none (Nat.le_of_eq last.symm)]
            exact ⟨_, _, _, rfl, c, _, by rw [optarg, missingArgument]⟩
          · rw [if_neg last, getElem?_eq_getElem (by omega)]
            exact ⟨_, _, _, rfl, d.optopt, none, rfl⟩
        · simp only [ne_eq, ends, not_false_eq_true, if_true, if_false]
          exact ⟨_, _, _, rfl, d.optopt, none, rfl⟩
    · simp [if_neg takes] at kind

/-! Advancing to the next element -/

variable {printErrors : Bool} {prog : Word} {front others recent elements skipped : List Word}

/-- A call is over, and no element is partly read. -/
structure Between (argv : List Word) (d : GetoptData) (prog : Word)
    (front others recent elements : List Word) : Prop where
  argv_eq : argv = prog :: (front ++ others ++ recent ++ elements)
  first : d.firstNonopt = 1 + front.length
  last : d.lastNonopt = 1 + front.length + others.length
  optind : d.optind = 1 + front.length + others.length + recent.length
  nextchar : d.nextchar = none ∨ d.nextchar = some []
  initialized : d.initialized = true
  ordering : d.ordering = .permute

theorem skipNonoptions_eq (nonoptions : ∀ w ∈ skipped, Nonoption w)
    (next : ∀ w ∈ elements.head?, ¬ Nonoption w) (i : Nat)
    : skipNonoptions (skipped ++ elements) i = i + skipped.length := by
  induction skipped generalizing i with
  | nil =>
    cases elements with
    | nil => rfl
    | cons w rest => exact if_neg (next w rfl)
  | cons w skipped ih =>
    obtain ⟨first, later⟩ := forall_mem_cons.mp nonoptions
    rw [cons_append, skipNonoptions, if_pos first, ih later, length_cons]
    omega

theorem exchange_eq {before xs ys after : List Word} (layout : argv = before ++ xs ++ ys ++ after)
    (first : d.firstNonopt = before.length) (last : d.lastNonopt = before.length + xs.length)
    (optind : d.optind = before.length + xs.length + ys.length)
    : exchange argv d = (before ++ ys ++ xs ++ after,
        { d with firstNonopt := before.length + ys.length, lastNonopt := d.optind }) := by
  have moved : d.firstNonopt + (d.optind - d.lastNonopt) = before.length + ys.length := by omega
  rw [exchange, moved, layout, first, last, optind, exchangeLoop_eq]

/-- The options behind the non-options go to the front, and further non-options are skipped. -/
theorem Between.permuteElements (between : Between argv d prog front others recent (skipped ++ elements))
    (nonoptions : ∀ w ∈ skipped, Nonoption w) (next : ∀ w ∈ elements.head?, ¬ Nonoption w)
    : permuteElements argv d = (prog :: (front ++ recent ++ (others ++ skipped) ++ elements),
        { d with
          firstNonopt := 1 + (front ++ recent).length
          optind := 1 + (front ++ recent).length + (others ++ skipped).length
          lastNonopt := 1 + (front ++ recent).length + (others ++ skipped).length }) := by
  obtain ⟨argv_eq, first, last, optind, -, -, -⟩ := between
  have exchanged : ∃ lastNonopt, (if d.firstNonopt ≠ d.lastNonopt ∧ d.lastNonopt ≠ d.optind then
        exchange argv d
      else if d.lastNonopt ≠ d.optind then (argv, { d with firstNonopt := d.optind })
      else (argv, d))
      = (prog :: (front ++ recent ++ others) ++ (skipped ++ elements),
        { d with firstNonopt := 1 + (front ++ recent).length, lastNonopt }) := by
    by_cases noRecent : recent = []
    · subst noRecent
      have same : d.lastNonopt = d.optind := by
        rw [last, optind]
        rfl
      refine ⟨d.lastNonopt, ?_⟩
      rw [if_neg (fun both => both.2 same), if_neg (not_not_intro same), argv_eq, append_nil,
        append_nil, ← first]
      rfl
    · have someRecent : 0 < recent.length := length_pos_iff.mpr noRecent
      have different : d.lastNonopt ≠ d.optind := by omega
      by_cases noOthers : others = []
      · subst noOthers
        have same : d.firstNonopt = d.lastNonopt := by
          rw [first, last]
          rfl
        have moved : d.optind = 1 + (front ++ recent).length := by
          rw [optind, length_append]
          omega
        refine ⟨d.lastNonopt, ?_⟩
        rw [if_neg (fun both => both.1 same), if_pos different, argv_eq, append_nil,
          append_nil, moved]
        rfl
      · have someOthers : 0 < others.length := length_pos_iff.mpr noOthers
        have layout : argv = prog :: front ++ others ++ recent ++ (skipped ++ elements) := argv_eq
        have length : (prog :: front).length = 1 + front.length := Nat.add_comm _ _
        refine ⟨d.optind, ?_⟩
        rw [if_pos ⟨by omega, different⟩, exchange_eq layout (first.trans length.symm) (by omega)
          (by omega), length, length_append, Nat.add_assoc]
        simp only [append_assoc, cons_append]
  obtain ⟨lastNonopt, exchanged⟩ := exchanged
  have drop : (prog :: (front ++ recent ++ others) ++ (skipped ++ elements)).drop d.optind
      = skipped ++ elements := by
    have length : d.optind = (prog :: (front ++ recent ++ others)).length := by
      simp only [optind, length_cons, length_append]
      omega
    rw [length, drop_left]
  have position : d.optind + skipped.length
      = 1 + (front ++ recent).length + (others ++ skipped).length := by
    simp only [optind, length_append]
    omega
  rw [Getopt.permuteElements, exchanged]
  simp only [drop, skipNonoptions_eq nonoptions next, position]
  simp only [append_assoc, cons_append]

/-- All options read so far stand in front of the elements that were skipped. -/
structure Permuted (argv : List Word) (d : GetoptData) (prog : Word) (front others elements : List Word)
    : Prop where
  argv_eq : argv = prog :: (front ++ others ++ elements)
  first : d.firstNonopt = 1 + front.length
  last : d.lastNonopt = 1 + front.length + others.length
  optind : d.optind = 1 + front.length + others.length

theorem Between.permuted (between : Between argv d prog front others recent (skipped ++ elements))
    (nonoptions : ∀ w ∈ skipped, Nonoption w) (next : ∀ w ∈ elements.head?, ¬ Nonoption w)
    : ∃ argv' d', Getopt.permuteElements argv d = (argv', d')
      ∧ Permuted argv' d' prog (front ++ recent) (others ++ skipped) elements
      ∧ d'.initialized = d.initialized ∧ d'.ordering = d.ordering ∧ d'.optarg = d.optarg
      ∧ d'.opterr = d.opterr :=
  ⟨_, _, between.permuteElements nonoptions next, ⟨rfl, rfl, rfl, rfl⟩, rfl, rfl, rfl, rfl⟩

theorem Permuted.getElem (permuted : Permuted argv d prog front others elements)
    : argv[d.optind]? = elements.head? := by
  have length : (prog :: (front ++ others)).length = d.optind := by
    rw [permuted.optind, length_cons, length_append]
    omega
  have layout : argv = prog :: (front ++ others) ++ elements := permuted.argv_eq
  rw [layout, getElem?_append_right (Nat.le_of_eq length), length, Nat.sub_self]
  cases elements <;> rfl

theorem Permuted.length (permuted : Permuted argv d prog front others elements)
    : argv.length = d.optind + elements.length := by
  rw [permuted.argv_eq, permuted.optind, length_cons, length_append, length_append]
  omega

variable {rest : List Word}

/-- The element `--` goes behind the options, and what follows it joins the non-options. -/
theorem Permuted.endOptions (permuted : Permuted argv d prog front others ([dash, dash] :: rest))
    : ∃ d', endOptions argv d = (prog :: (front ++ [[dash, dash]] ++ (others ++ rest)), d')
      ∧ d'.firstNonopt = 1 + (front ++ [[dash, dash]]).length ∧ d'.lastNonopt = d'.optind
      ∧ d'.optind = (prog :: (front ++ [[dash, dash]] ++ (others ++ rest))).length := by
  have here : argv[d.optind]? = some [dash, dash] := permuted.getElem
  obtain ⟨argv_eq, first, last, optind⟩ := permuted
  rw [Getopt.endOptions, if_pos here]
  by_cases noOthers : others = []
  · subst noOthers
    have same : d.firstNonopt = d.lastNonopt := first.trans last.symm
    have layout : argv = prog :: (front ++ [[dash, dash]] ++ ([] ++ rest)) := by
      rw [argv_eq, append_nil, append_assoc]
      rfl
    simp only [same, ne_eq, not_true_eq_false, false_and, if_false, if_true]
    refine ⟨_, Prod.ext layout rfl, ?_, rfl, congrArg List.length layout⟩
    simp only [optind, length_append, length_nil, length_singleton]
    omega
  · have someOthers : 0 < others.length := length_pos_iff.mpr noOthers
    have layout : argv = prog :: front ++ others ++ [[dash, dash]] ++ rest := by
      rw [argv_eq]
      simp only [append_assoc, cons_append, nil_append]
    have length : (prog :: front).length = 1 + front.length := Nat.add_comm _ _
    have exchanged := exchange_eq (d := { d with optind := d.optind + 1 }) layout
      (first.trans length.symm) (by simp only; omega)
      (by simp only [length_singleton]; omega)
    have target : prog :: front ++ [[dash, dash]] ++ others ++ rest
        = prog :: (front ++ [[dash, dash]] ++ (others ++ rest)) := by
      simp only [append_assoc, cons_append]
    have different : d.firstNonopt ≠ d.lastNonopt ∧ d.lastNonopt ≠ d.optind + 1 := by omega
    rw [target] at exchanged
    simp only [if_pos different, exchanged]
    refine ⟨_, rfl, ?_, rfl, rfl⟩
    simp only [length, length_append, length_singleton]
    omega

theorem Permuted.endOptions_other (permuted : Permuted argv d prog front others elements)
    (other : elements.head? ≠ some [dash, dash])
    : Getopt.endOptions argv d = (argv, d) := by
  rw [Getopt.endOptions, permuted.getElem, if_neg other]

/-- An option element is being read, with the option characters that are left. -/
structure Inside (argv : List Word) (d : GetoptData) (prog : Word) (front others : List Word) (w : Word)
    (rest : List Word) (left : Word) : Prop where
  argv_eq : argv = prog :: (front ++ others ++ w :: rest)
  first : d.firstNonopt = 1 + front.length
  last : d.lastNonopt = 1 + front.length + others.length
  optind : d.optind = 1 + front.length + others.length
  nextchar : d.nextchar = some left
  someLeft : left ≠ []
  initialized : d.initialized = true
  ordering : d.ordering = .permute

variable {rest : List Word} {w : Word}

theorem Between.nextElement_eq (between : Between argv d prog front others recent elements)
    : nextElement argv optstring printErrors d
      = handleElement (Getopt.endOptions (Getopt.permuteElements argv d).1 (Getopt.permuteElements argv d).2).1
          optstring printErrors
          (Getopt.endOptions (Getopt.permuteElements argv d).1 (Getopt.permuteElements argv d).2).2 := by
  have last : min d.lastNonopt d.optind = d.lastNonopt := by
    have := between.last
    have := between.optind
    omega
  have first : min d.firstNonopt d.optind = d.firstNonopt := by
    have := between.first
    have := between.optind
    omega
  rw [nextElement]
  simp only [last, first]
  rw [if_pos between.ordering]

/-- At the end of `argv` the scan stops, and `optind` goes back to the non-options. -/
theorem handleElement_end (optstring : Word) (printErrors : Bool)
    (atEnd : d.optind = argv.length) (last : d.lastNonopt = d.optind)
    : ∃ d', handleElement argv optstring printErrors d
        = some { value := -1, argv, data := d', message := none }
      ∧ d'.optind = d.firstNonopt := by
  rw [handleElement, if_pos atEnd]
  by_cases noOthers : d.firstNonopt = d.lastNonopt
  · refine ⟨d, ?_, last.symm.trans noOthers.symm⟩
    rw [if_neg (not_not_intro noOthers)]
  · refine ⟨{ d with optind := d.firstNonopt }, ?_, rfl⟩
    rw [if_pos noOthers]

/-- The rest has no option. -/
theorem Between.nextElement_done (between : Between argv d prog front others recent skipped)
    (nonoptions : ∀ w ∈ skipped, Nonoption w)
    : ∃ d', nextElement argv optstring printErrors d = some {
        value := -1
        argv := prog :: (front ++ recent ++ (others ++ skipped))
        data := d'
        message := none }
      ∧ d'.optind = 1 + (front ++ recent).length := by
  have layout : Between argv d prog front others recent (skipped ++ []) := by rwa [append_nil]
  obtain ⟨argv', bounds, permutes, permuted, -⟩ := layout.permuted nonoptions nofun
  obtain ⟨d', handled, optind⟩ := handleElement_end optstring printErrors permuted.length.symm
      (permuted.last.trans permuted.optind.symm)
  have argv_eq := permuted.argv_eq
  rw [append_nil] at argv_eq
  rw [between.nextElement_eq, permutes, permuted.endOptions_other nofun, handled, argv_eq]
  exact ⟨d', rfl, optind.trans permuted.first⟩

theorem Between.nextElement_end
    (between : Between argv d prog front others recent (skipped ++ [dash, dash] :: rest))
    (nonoptions : ∀ w ∈ skipped, Nonoption w)
    : ∃ d', nextElement argv optstring printErrors d = some {
        value := -1
        argv := prog :: (front ++ recent ++ [[dash, dash]] ++ (others ++ skipped ++ rest))
        data := d'
        message := none }
      ∧ d'.optind = 1 + (front ++ recent ++ [[dash, dash]]).length := by
  have option : ¬ Nonoption [dash, dash] := by decide
  obtain ⟨argv', bounds, permutes, permuted, -⟩ :=
    between.permuted nonoptions (fun w first => Option.some.inj first ▸ option)
  obtain ⟨ended, ends, first, last, atEnd⟩ := permuted.endOptions
  obtain ⟨d', handled, optind⟩ := handleElement_end optstring printErrors atEnd last
  rw [between.nextElement_eq, permutes, ends, handled]
  exact ⟨d', rfl, optind.trans first⟩

/-- The next element that is skipped to is an option, and its first character is handled. -/
theorem Between.nextElement_option (optstring : Word) (printErrors : Bool) {w : Word}
    (between : Between argv d prog front others recent (skipped ++ w :: rest))
    (nonoptions : ∀ w ∈ skipped, Nonoption w) (option : ¬ Nonoption w) (notEnd : w ≠ [dash, dash])
    : ∃ argv' d', nextElement argv optstring printErrors d
        = nextOption argv' optstring printErrors d'
      ∧ Inside argv' d' prog (front ++ recent) (others ++ skipped) w rest w.tail
      ∧ d'.optarg = d.optarg ∧ d'.opterr = d.opterr := by
  obtain ⟨argv', bounds, permutes, permuted, kept⟩ :=
    between.permuted nonoptions (fun w first => Option.some.inj first ▸ option)
  have here : argv'[bounds.optind]? = some w := permuted.getElem
  have notDone : bounds.optind ≠ argv'.length := by
    rw [permuted.length, length_cons]
    omega
  have other : (w :: rest).head? ≠ some [dash, dash] := fun same => notEnd (Option.some.inj same)
  have someLeft : w.tail ≠ [] := fun none' => option (.inr none')
  refine ⟨argv', { bounds with nextchar := some w.tail }, ?_, ?_, kept.2.2⟩
  · rw [between.nextElement_eq, permutes, permuted.endOptions_other other, handleElement, if_neg notDone]
    simp only [here, if_neg option]
  · exact {
      argv_eq := permuted.argv_eq
      first := permuted.first
      last := permuted.last
      optind := permuted.optind
      nextchar := rfl
      someLeft
      initialized := kept.1.trans between.initialized
      ordering := kept.2.1.trans between.ordering }

end Nglibc.Getopt
