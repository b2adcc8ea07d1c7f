import Nglibc.Posix.Getopt

/-! `exchange` swaps two adjacent segments of `argv` and keeps the order inside each. -/

namespace Nglibc.Getopt

open List

variable (pre mid post : List Word)

private theorem swap_eq (a b : Word)
    : swap (pre ++ a :: mid ++ b :: post) pre.length (pre.length + 1 + mid.length)
      = pre ++ b :: mid ++ a :: post := by
  have first : (pre ++ a :: mid ++ b :: post)[pre.length]? = some a := by
    rw [append_assoc, getElem?_append_right le_rfl, Nat.sub_self]
    rfl
  have length : (pre ++ a :: mid).length = pre.length + 1 + mid.length := by
    rw [length_append, length_cons]
    omega
  have second : (pre ++ a :: mid ++ b :: post)[pre.length + 1 + mid.length]? = some b := by
    rw [getElem?_append_right (Nat.le_of_eq length), length, Nat.sub_self]
    rfl
  have setFirst : (pre ++ a :: mid ++ b :: post).set pre.length b = pre ++ b :: mid ++ b :: post := by
    rw [append_assoc, set_append_right _ _ le_rfl, Nat.sub_self,
      append_assoc]
    rfl
  have length' : (pre ++ b :: mid).length = pre.length + 1 + mid.length := by
    rw [← length, length_append, length_append, length_cons, length_cons]
  rw [swap, first, second]
  simp only [setFirst]
  rw [set_append_right _ _ (Nat.le_of_eq length'), length', Nat.sub_self]
  rfl

/-- Two segments of one length change places, by induction over them. -/
theorem swapSegments_eq (xs ys : List Word) (same : xs.length = ys.length)
    : swapSegments xs.length (pre ++ xs ++ mid ++ ys ++ post) pre.length
        (pre.length + xs.length + mid.length)
      = pre ++ ys ++ mid ++ xs ++ post := by
  induction xs generalizing ys pre mid with
  | nil =>
    obtain rfl : ys = [] := length_eq_zero_iff.mp same.symm
    rfl
  | cons x xs ih =>
    obtain _ | ⟨y, ys⟩ := ys
    · cases same
    · have inner := ih (pre ++ [y]) (mid ++ [x]) ys (Nat.succ.inj same)
      have before : pre ++ x :: xs ++ mid ++ y :: ys ++ post
          = pre ++ x :: (xs ++ mid) ++ y :: (ys ++ post) := by
        simp only [append_assoc, cons_append]
      have after : pre ++ y :: (xs ++ mid) ++ x :: (ys ++ post)
          = pre ++ [y] ++ xs ++ (mid ++ [x]) ++ ys ++ post := by
        simp only [append_assoc, cons_append, nil_append]
      have position : pre.length + (x :: xs).length + mid.length
          = pre.length + 1 + (xs ++ mid).length := by
        rw [length_cons, length_append]
        omega
      have next : pre.length + 1 + (xs ++ mid).length + 1
          = (pre ++ [y]).length + xs.length + (mid ++ [x]).length := by
        simp only [length_append, length_singleton]
        omega
      have start : pre.length + 1 = (pre ++ [y]).length := by
        rw [length_append, length_singleton]
      rw [length_cons, swapSegments, ← length_cons, before, position, swap_eq, after, next,
        start, inner]
      simp only [append_assoc, cons_append, nil_append]

/-- The outer loop swaps the segments. The shorter one goes to its place, and the rest is again two
adjacent segments; by induction over their length.
-/
theorem exchangeLoop_eq (xs ys : List Word)
    : exchangeLoop (pre ++ xs ++ ys ++ post) pre.length (pre.length + xs.length)
        (pre.length + xs.length + ys.length)
      = pre ++ ys ++ xs ++ post := by
  induction total : xs.length + ys.length using Nat.strongRecOn generalizing xs ys pre post with
  | ind total ih =>
    rw [exchangeLoop]
    split
    next both =>
      split
      next bottomShort =>
        -- The last part of `ys` changes places with `xs`.
        obtain ⟨ys₁, ys₂, rfl, length⟩ : ∃ ys₁ ys₂, ys = ys₁ ++ ys₂ ∧ ys₂.length = xs.length := by
          refine ⟨ys.take (ys.length - xs.length), ys.drop (ys.length - xs.length),
            (take_append_drop _ _).symm, ?_⟩
          rw [length_drop]
          omega
        have swapped := swapSegments_eq pre ys₁ post xs ys₂ length.symm
        have inner := ih (ys₂.length + ys₁.length)
          (by rw [length_append] at total both; omega) pre (xs ++ post) ys₂ ys₁ rfl
        rw [length] at inner
        simp only [length_append, length, Nat.add_sub_cancel_left]
        have top : pre.length + xs.length + (ys₁.length + xs.length) - xs.length
            = pre.length + xs.length + ys₁.length := by omega
        rw [top]
        simp only [append_assoc] at swapped inner ⊢
        rw [swapped, inner]
      next topShort =>
        -- The first part of `xs` changes places with `ys`.
        obtain ⟨xs₁, xs₂, rfl, length⟩ : ∃ xs₁ xs₂, xs = xs₁ ++ xs₂ ∧ xs₁.length = ys.length := by
          refine ⟨xs.take ys.length, xs.drop ys.length, (take_append_drop _ _).symm, ?_⟩
          rw [length_take]
          omega
        have swapped := swapSegments_eq pre xs₂ post xs₁ ys length
        have inner := ih (xs₂.length + xs₁.length)
          (by rw [length_append] at total both; omega) (pre ++ ys) post xs₂ xs₁ rfl
        simp only [length_append, length, Nat.add_sub_cancel_left] at swapped inner ⊢
        have middle : pre.length + ys.length + xs₂.length = pre.length + (ys.length + xs₂.length) := by
          omega
        rw [middle] at swapped inner
        simp only [append_assoc] at swapped inner ⊢
        rw [swapped, inner]
    next oneEmpty =>
      have empty : xs = [] ∨ ys = [] := by
        rcases Nat.eq_zero_or_pos ys.length with none' | some'
        · exact .inr (length_eq_zero_iff.mp none')
        · refine .inl (length_eq_zero_iff.mp ?_)
          omega
      rcases empty with rfl | rfl <;> simp

end Nglibc.Getopt

/-! The reading of a command line from left to right, and what one call does with an option character
in its terms.
-/

namespace Nglibc.Getopt

inductive Kind
  | invalid
  | plain
  | required
  | optional

/-- How the option string describes an option character. -/
def kindOf (optstring : Word) (c : UInt8) : Kind :=
  match optstring.dropWhile (· ≠ c) with
  | [] => .invalid
  | _ :: after =>
    if c = colon ∨ c = semicolon then .invalid
    else if after.head? = some colon then
      if after.tail.head? = some colon then .optional else .required
    else .plain

abbrev Returned := Int × Option Word

def missingArgument (optstring : Word) : Int :=
  charValue (if optstring.head? = some colon then colon else questionMark)

/-- The option characters of an element in front of `next`, and how many elements behind it the last
one taken.
-/
def readElement (optstring : Word) (next : Option Word) : Word → List Returned × Nat
  | [] => ([], 0)
  | c :: rest =>
    match kindOf optstring c with
    | .invalid =>
      let (returned, taken) := readElement optstring next rest
      ((charValue questionMark, none) :: returned, taken)
    | .plain =>
      let (returned, taken) := readElement optstring next rest
      ((charValue c, none) :: returned, taken)
    | .optional => ([(charValue c, if rest = [] then none else some rest)], 0)
    | .required =>
      if rest ≠ [] then ([(charValue c, some rest)], 0)
      else
        match next with
        | some argument => ([(charValue c, some argument)], 1)
        | none => ([(missingArgument optstring, none)], 0)

/-- What the calls return, the elements of options with their arguments, and the other elements. -/
structure Reading where
  returned : List Returned
  options : List Word
  others : List Word

def read (optstring : Word) : List Word → Reading
  | [] => ⟨[], [], []⟩
  | w :: rest =>
    if w = [dash, dash] then ⟨[], [w], rest⟩
    else if Nonoption w then
      let r := read optstring rest
      { r with others := w :: r.others }
    else
      let (returned, taken) := readElement optstring rest.head? w.tail
      let r := read optstring (rest.drop taken)
      ⟨returned ++ r.returned, w :: rest.take taken ++ r.options, r.others⟩
  termination_by elements => elements.length
  decreasing_by
    · simp
    · simp only [List.length_drop, List.length_cons]
      omega

variable {optstring : Word}

theorem read_groups (elements : List Word)
    : ((read optstring elements).options ++ (read optstring elements).others).Perm elements
      ∧ (read optstring elements).options.Sublist elements
      ∧ (read optstring elements).others.Sublist elements := by
  fun_induction read optstring elements with
  | case1 => exact ⟨.refl _, .refl _, .refl _⟩
  | case2 rest => exact ⟨.refl _, List.Sublist.cons_cons _ (List.nil_sublist _), List.sublist_cons_self _ _⟩
  | case3 w rest notEnd nonoption r ih =>
    obtain ⟨perm, options, others⟩ := ih
    exact ⟨List.perm_middle.trans (perm.cons w), options.cons w, others.cons_cons w⟩
  | case4 w rest notEnd option returned taken element r ih =>
    obtain ⟨perm, options, others⟩ := ih
    have split := List.take_append_drop taken rest
    refine ⟨?_, ?_, ?_⟩
    · rw [List.append_assoc]
      refine List.Perm.cons w ?_
      refine (perm.append_left _).trans ?_
      rw [split]
    · refine List.Sublist.cons_cons w ?_
      refine (options.append_left _).trans ?_
      rw [split]
    · exact (others.trans (List.drop_sublist _ _)).cons w

/-- Elements that are no options are passed over. -/
theorem read_skip (skipped rest : List Word) (nonoptions : ∀ w ∈ skipped, Nonoption w)
    : read optstring (skipped ++ rest)
      = ⟨(read optstring rest).returned, (read optstring rest).options,
          skipped ++ (read optstring rest).others⟩ := by
  induction skipped with
  | nil => rfl
  | cons w skipped ih =>
    obtain ⟨first, later⟩ := List.forall_mem_cons.mp nonoptions
    have notEnd : w ≠ [dash, dash] := by
      rintro rfl
      exact absurd first (by decide)
    rw [List.cons_append, read, if_neg notEnd, if_pos first, ih later]
    rfl

theorem split_nonoptions (elements : List Word)
    : ∃ skipped left, elements = skipped ++ left
      ∧ (∀ w ∈ skipped, Nonoption w) ∧ ∀ w ∈ left.head?, ¬ Nonoption w := by
  induction elements with
  | nil => exact ⟨[], [], rfl, nofun, nofun⟩
  | cons w elements ih =>
    by_cases nonoption : Nonoption w
    · obtain ⟨skipped, left, rfl, nonoptions, next⟩ := ih
      exact ⟨w :: skipped, left, rfl, List.forall_mem_cons.mpr ⟨nonoption, nonoptions⟩, next⟩
    · exact ⟨[], w :: elements, rfl, nofun, fun w' first => Option.some.inj first ▸ nonoption⟩

end Nglibc.Getopt
