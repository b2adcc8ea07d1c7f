import Mathlib.Algebra.GroupWithZero.Nat
import Nglibc.Elf.DstSubstitute

/-! The path that `is_trusted_path_normalize` compares with the trusted directories, and the one
that it should compare: behind an empty name, ".." only takes back this name.
-/

namespace Nglibc.Elf

open List

variable {l : Loader} {text name rest : List UInt8} {stack names : List (List UInt8)} {size : Nat}

def elements : List UInt8 → List UInt8 × List (List UInt8)
  | [] => ([], [])
  | c :: text =>
    if c = slash then ([], (elements text).1 :: (elements text).2)
    else (c :: (elements text).1, (elements text).2)

def slashed (names : List (List UInt8)) : List UInt8 := names.flatMap fun name => slash :: name

theorem slashed_cons : slashed (name :: names) = slash :: (name ++ slashed names) := rfl

theorem elements_text (text : List UInt8)
    : (elements text).1 ++ slashed (elements text).2 = text
      ∧ slash ∉ (elements text).1 ∧ ∀ name ∈ (elements text).2, slash ∉ name := by
  induction text with
  | nil => exact ⟨rfl, not_mem_nil, forall_mem_nil _⟩
  | cons c text ih =>
    obtain ⟨whole, first, more⟩ := ih
    rw [elements]
    split_ifs with same
    · refine ⟨?_, not_mem_nil, forall_mem_cons.mpr ⟨first, more⟩⟩
      rw [slashed_cons, whole, same, nil_append]
    · refine ⟨congrArg (c :: ·) whole, ?_, more⟩
      exact not_mem_cons_of_ne_of_not_mem (Ne.symm same) first

theorem elements_absolute (absolute : text.head? = some slash)
    : slashed (elements text).2 = text := by
  cases text with
  | nil => cases absolute
  | cons c text =>
    cases absolute
    exact (elements_text (slash :: text)).1

/-- A name on top of those that a path has so far, last one first. -/
def lexicalStep (stack : List (List UInt8)) (name : List UInt8) : List (List UInt8) :=
  if name = [dot, dot] then stack.tail
  else if name = [dot] ∨ name = [] then stack
  else name :: stack

/-- The names of an absolute path without "." and "..". -/
def lexicalNames (text : List UInt8) : List (List UInt8) :=
  ((elements text).2.foldl lexicalStep []).reverse

/-- What the code writes for a name: an empty name stays until there is another name. -/
def writtenStep (stack : List (List UInt8)) (name : List UInt8) : List (List UInt8) :=
  if name = [dot, dot] then stack.tail
  else if name = [dot] then stack
  else if stack.head? = some [] then name :: stack.tail
  else name :: stack

/-- The names of the path that the code compares with the trusted directories. -/
def writtenNames (text : List UInt8) : List (List UInt8) :=
  (((elements text).2.foldl writtenStep []).filter fun name => name ≠ []).reverse

def Loader.Trusts (l : Loader) (names : List (List UInt8)) : Prop :=
  ∃ dir ∈ l.systemDirs, dir.names <+: names

def encode (stack : List (List UInt8)) : List UInt8 :=
  stack.flatMap fun name => name.reverse ++ [slash]

theorem encode_cons : encode (name :: stack) = name.reverse ++ slash :: encode stack := by
  simp [encode]

/-- Stacks that the loop builds: there is no slash in a name, and only the last name is empty. -/
structure Stacked (stack : List (List UInt8)) : Prop where
  noSlash : ∀ name ∈ stack, slash ∉ name
  filled : ∀ name ∈ stack.tail, name ≠ []

theorem Stacked.step (stacked : Stacked stack) (noSlash : slash ∉ name)
    : Stacked (writtenStep stack name) := by
  have popped : Stacked stack.tail :=
    ⟨fun name member => stacked.noSlash name (mem_of_mem_tail member),
      fun name member => stacked.filled name (mem_of_mem_tail member)⟩
  unfold writtenStep
  split_ifs with up here top
  · exact popped
  · exact stacked
  · exact ⟨forall_mem_cons.mpr ⟨noSlash, popped.noSlash⟩, stacked.filled⟩
  · refine ⟨forall_mem_cons.mpr ⟨noSlash, stacked.noSlash⟩, ?_⟩
    intro other member
    cases stack with
    | nil => cases member
    | cons first more =>
      rcases mem_cons.mp member with rfl | member
      · exact fun empty => top (by rw [empty]; rfl)
      · exact stacked.filled other member

def Boundary (rest : List UInt8) : Prop := rest = [] ∨ rest.head? = some slash

theorem boundary_slashed (names : List (List UInt8)) : Boundary (slashed names) := by
  cases names with
  | nil => exact .inl rfl
  | cons name names => exact .inr rfl

section

variable (boundary : Boundary rest)
include boundary

theorem Boundary.headD : rest.headD 0 = slash ∨ rest.headD 0 = 0 := by
  rcases boundary with rfl | first
  · exact .inr rfl
  · cases rest with
    | nil => cases first
    | cons c rest => exact .inl (Option.some.inj first)

theorem Boundary.ne_dot : rest.headD 0 ≠ dot := by
  rcases boundary.headD with here | here
  · rw [here]; decide
  · rw [here]; decide

theorem Boundary.up_iff (noSlash : slash ∉ name) (noNul : 0 ∉ name)
    : ((name ++ rest).headD 0 = dot ∧ (name ++ rest).getD 1 0 = dot
        ∧ ((name ++ rest).getD 2 0 = slash ∨ (name ++ rest).getD 2 0 = 0)) ↔ name = [dot, dot] := by
  have next := boundary.headD
  have notDot := boundary.ne_dot
  match name with
  | [] => exact ⟨fun dots => absurd dots.1 notDot, fun same => nomatch same⟩
  | [a] => cases rest <;> simp_all
  | [a, b] => cases rest <;> simp_all
  | a :: b :: c :: more =>
    simp only [mem_cons, not_or] at noSlash noNul
    simp [Ne.symm noSlash.2.2.1, Ne.symm noNul.2.2.1]

theorem Boundary.here_iff (noSlash : slash ∉ name) (noNul : 0 ∉ name)
    : ((name ++ rest).headD 0 = dot
        ∧ ((name ++ rest).getD 1 0 = slash ∨ (name ++ rest).getD 1 0 = 0)) ↔ name = [dot] := by
  have next := boundary.headD
  have notDot := boundary.ne_dot
  match name with
  | [] => exact ⟨fun dots => absurd dots.1 notDot, fun same => nomatch same⟩
  | [a] => cases rest <;> simp_all
  | a :: b :: more =>
    simp only [mem_cons, not_or] at noSlash noNul
    simp [Ne.symm noSlash.2.1, Ne.symm noNul.2.1]

end

theorem normalizeLoop_copy (fuel : Nat) (noSlash : slash ∉ name) (wnp : List UInt8)
    (room : wnp.length + name.length ≤ size)
    : normalizeLoop size (name.length + fuel) (name ++ rest) wnp
      = normalizeLoop size fuel rest (name.reverse ++ wnp) := by
  induction name generalizing wnp with
  | nil => rw [length_nil, Nat.zero_add]; rfl
  | cons c name ih =>
    have other : c ≠ slash := fun same => noSlash (same ▸ mem_cons_self)
    rw [length_cons] at room
    rw [length_cons, Nat.add_right_comm, cons_append, normalizeLoop,
      if_neg (fun h => other h.1), if_neg (fun h => other h.1), if_neg (fun h => other h.1),
      if_pos (by omega), ih (fun member => noSlash (mem_cons_of_mem _ member)) _
        (by rw [length_cons]; omega), reverse_cons, append_assoc]
    rfl

theorem encode_pop (stacked : Stacked stack)
    : ((encode stack).dropWhile fun c => c != slash).tail = encode stack.tail := by
  cases stack with
  | nil => rfl
  | cons name stack =>
    have clean : ∀ c ∈ name.reverse, (c != slash) = true := by
      intro c member
      rw [bne_iff_ne]
      rintro rfl
      exact stacked.noSlash name mem_cons_self (mem_reverse.mp member)
    rw [encode_cons, dropWhile_append_of_pos clean]
    rfl

/-- The last byte of a stack is a slash exactly if its last name is empty. -/
theorem encode_head (stacked : Stacked stack)
    : (encode stack).head? = some slash ↔ stack.head? = some [] := by
  cases stack with
  | nil => exact ⟨fun h => (nomatch h), fun h => (nomatch h)⟩
  | cons name stack =>
    rw [encode_cons]
    cases reversed : name.reverse with
    | nil =>
      rw [reverse_eq_nil_iff.mp reversed]
      exact ⟨fun _ => rfl, fun _ => rfl⟩
    | cons c more =>
      have member : c ∈ name := mem_reverse.mp (reversed ▸ mem_cons_self)
      constructor
      · intro same
        exact absurd (Option.some.inj same ▸ member) (stacked.noSlash name mem_cons_self)
      · intro same
        rw [Option.some.inj same] at member
        cases member

theorem length_encode_step
    : (encode (writtenStep stack name)).length ≤ (encode stack).length + name.length + 1 := by
  have popped : (encode stack.tail).length ≤ (encode stack).length := by
    cases stack with
    | nil => exact Nat.le_refl _
    | cons first stack =>
      rw [encode_cons, List.length_append, List.length_cons, List.tail_cons]
      omega
  unfold writtenStep
  split_ifs
  · omega
  · omega
  · rw [encode_cons, length_append, length_cons, length_reverse]
    omega
  · rw [encode_cons, length_append, length_cons, length_reverse]
    omega

/-- The rounds of the loop for a slash and the name behind it. -/
theorem normalizeLoop_name {fuel : Nat} (stacked : Stacked stack) (boundary : Boundary rest)
    (noSlash : slash ∉ name) (noNul : 0 ∉ name)
    (fuelled : (slash :: (name ++ rest)).length < fuel)
    (room : (encode stack).length + name.length + 1 ≤ size)
    : ∃ fuel', rest.length < fuel'
      ∧ normalizeLoop size fuel (slash :: (name ++ rest)) (encode stack)
        = normalizeLoop size fuel' rest (encode (writtenStep stack name)) := by
  rw [length_cons, length_append] at fuelled
  obtain ⟨fuel, rfl⟩ : ∃ n, fuel = name.length + n + 1 := ⟨fuel - name.length - 1, by omega⟩
  rw [normalizeLoop]
  unfold writtenStep
  by_cases up : name = [dot, dot]
  · rw [if_pos ⟨rfl, (boundary.up_iff noSlash noNul).mpr up⟩, encode_pop stacked]
    refine ⟨name.length + fuel, by omega, ?_⟩
    rw [up]
    rfl
  rw [if_neg (fun h => up ((boundary.up_iff noSlash noNul).mp h.2)), if_neg up]
  by_cases here : name = [dot]
  · rw [if_pos ⟨rfl, (boundary.here_iff noSlash noNul).mpr here⟩]
    refine ⟨name.length + fuel, by omega, ?_⟩
    rw [here]
    rfl
  rw [if_neg (fun h => here ((boundary.here_iff noSlash noNul).mp h.2)), if_neg here]
  refine ⟨fuel, by omega, ?_⟩
  by_cases top : stack.head? = some []
  · rw [if_pos top, normalizeLoop_copy fuel noSlash _ (by omega)]
    obtain ⟨stack, rfl⟩ : ∃ below, stack = [] :: below := head?_eq_some_iff.mp top
    rw [encode_cons, encode_cons]
    rfl
  · rw [if_neg (fun h => top ((encode_head stacked).mp h.2)), if_neg top, if_pos (by omega),
      normalizeLoop_copy fuel noSlash _ (by rw [length_cons]; omega), encode_cons]

private theorem normalizeLoop_slashed {fuel : Nat} (stacked : Stacked stack)
    (clean : ∀ name ∈ names, slash ∉ name ∧ 0 ∉ name)
    (fuelled : (slashed names).length < fuel)
    (room : (encode stack).length + (slashed names).length ≤ size)
    : normalizeLoop size fuel (slashed names) (encode stack)
      = some (encode (names.foldl writtenStep stack)) := by
  induction names generalizing stack fuel with
  | nil =>
    obtain ⟨fuel, rfl⟩ : ∃ n, fuel = n + 1 := ⟨fuel - 1, by omega⟩
    rfl
  | cons name names ih =>
    obtain ⟨noSlash, noNul⟩ := clean name mem_cons_self
    rw [slashed_cons, length_cons, length_append] at room
    have space : (encode stack).length + name.length + 1 ≤ size := by omega
    obtain ⟨fuel', enough, round⟩ :=
      normalizeLoop_name stacked (boundary_slashed names) noSlash noNul fuelled space
    have longer := @length_encode_step name stack
    rw [slashed_cons, round]
    exact ih (stacked.step noSlash)
      (fun name member => clean name (mem_cons_of_mem _ member)) enough (by omega)

theorem directoryText_eq (names : List (List UInt8))
    : directoryText names = slashed names ++ [slash] := by
  unfold directoryText
  induction names with
  | nil => rfl
  | cons name names ih =>
    rw [slashed_cons, cons_append, append_assoc, ← ih, flatMap_cons, append_assoc]
    rfl

theorem reverse_encode (stack : List (List UInt8))
    : (encode stack).reverse = slashed stack.reverse := by
  induction stack with
  | nil => rfl
  | cons name stack ih =>
    rw [encode_cons, reverse_append, reverse_cons, ih]
    simp [slashed]

theorem Stacked.directoryText (stacked : Stacked stack)
    : (if (encode stack).head? = some slash then encode stack else slash :: encode stack).reverse
      = Elf.directoryText (stack.filter fun name => name ≠ []).reverse := by
  have filled : stack.tail.filter (fun name => name ≠ []) = stack.tail :=
    filter_eq_self.mpr fun name member => by simpa using stacked.filled name member
  rw [directoryText_eq]
  split_ifs with top
  · obtain ⟨below, rfl⟩ := head?_eq_some_iff.mp ((encode_head stacked).mp top)
    rw [tail_cons] at filled
    rw [filter_cons_of_neg (by simp), filled, encode_cons, ← reverse_encode]
    simp
  · have none : stack.filter (fun name => name ≠ []) = stack := by
      cases stack with
      | nil => rfl
      | cons name stack =>
        have here : name ≠ [] := fun empty =>
          top ((encode_head stacked).mpr (by rw [empty]; rfl))
        rw [tail_cons] at filled
        rw [filter_cons_of_pos (by simpa using here), filled]
    rw [none, reverse_cons, reverse_encode]

private theorem slash_split {x y u v : List UInt8} (clean : slash ∉ x) (clean' : slash ∉ y)
    : x ++ slash :: u <+: y ++ slash :: v ↔ x = y ∧ u <+: v := by
  induction x generalizing y with
  | nil =>
    cases y with
    | nil => simp
    | cons d y =>
      have other : d ≠ slash := fun same => clean' (same ▸ mem_cons_self)
      simp [Ne.symm other]
  | cons c x ih =>
    have other : c ≠ slash := fun same => clean (same ▸ mem_cons_self)
    cases y with
    | nil => simp [other]
    | cons d y =>
      have step := ih (fun member => clean (mem_cons_of_mem _ member)) (y := y)
        fun member => clean' (mem_cons_of_mem _ member)
      simp only [cons_append, cons_prefix_cons, step, List.cons.injEq, and_assoc]

private theorem directoryText_prefix {more : List (List UInt8)} (clean : ∀ name ∈ names, slash ∉ name)
    (clean' : ∀ name ∈ more, slash ∉ name)
    : directoryText names <+: directoryText more ↔ names <+: more := by
  unfold directoryText
  rw [cons_prefix_cons, and_iff_right rfl]
  induction names generalizing more with
  | nil => simp
  | cons name names ih =>
    cases more with
    | nil => simp
    | cons first more =>
      rw [flatMap_cons, flatMap_cons, append_assoc, append_assoc,
        singleton_append, singleton_append,
        slash_split (clean name mem_cons_self) (clean' first mem_cons_self),
        ih (fun name member => clean name (mem_cons_of_mem _ member))
          (fun name member => clean' name (mem_cons_of_mem _ member)),
        cons_prefix_cons]

theorem length_encode_foldl
    : (encode (names.foldl writtenStep stack)).length
      ≤ (encode stack).length + (slashed names).length := by
  induction names generalizing stack with
  | nil => exact Nat.le_add_right _ _
  | cons name names ih =>
    have first := @length_encode_step name stack
    have more := @ih (writtenStep stack name)
    rw [slashed_cons, length_cons, length_append, foldl_cons]
    omega

theorem foldl_stacked (stacked : Stacked stack) (clean : ∀ name ∈ names, slash ∉ name)
    : Stacked (names.foldl writtenStep stack) := by
  induction names generalizing stack with
  | nil => exact stacked
  | cons name names ih =>
    exact ih (stacked.step (clean name mem_cons_self))
      fun name member => clean name (mem_cons_of_mem _ member)

theorem cString_terminated {text : List UInt8} (noNul : 0 ∉ text) (behind : List UInt8)
    : cString (text ++ 0 :: behind) = some text := by
  have clean : ∀ c ∈ text, (c != 0) = true := by
    intro c member
    rw [bne_iff_ne]
    rintro rfl
    exact noNul member
  unfold cString
  rw [if_pos (mem_append_right _ mem_cons_self),
    takeWhile_append_of_pos clean, takeWhile_cons_of_neg (by simp), append_nil]

/-- `is_trusted_path_normalize` for the string in a buffer and any directories, each one a text with
a slash at its end.
-/
def isTrustedPathNormalize (systemDirs : List (List UInt8)) (buffer : List UInt8) (len : Nat)
    : Option Bool :=
  if len = 0 then some false
  else
    (cString buffer).bind fun path =>
      (normalizeLoop (len + 2) (path.length + 1) path []).bind fun wnp =>
        let full := if wnp.head? = some slash then wnp else slash :: wnp
        if full.length ≤ len + 2 then
          some (systemDirs.any fun dir => dir.isPrefixOf full.reverse)
        else none

/-- The verdict on an absolute path that is terminated. -/
theorem isTrustedPathNormalize_terminated (systemDirs : List (List UInt8))
    (absolute : text.head? = some slash) (noNul : 0 ∉ text) (behind : List UInt8)
    : ∃ trusted, isTrustedPathNormalize systemDirs (text ++ 0 :: behind) text.length = some trusted
      ∧ (trusted = true ↔ ∃ dir ∈ systemDirs, dir <+: directoryText (writtenNames text)) := by
  obtain ⟨-, -, noSlash⟩ := elements_text text
  have whole := elements_absolute absolute
  have start : Stacked [] := ⟨forall_mem_nil _, forall_mem_nil _⟩
  have nonempty : text.length ≠ 0 := by
    cases text with
    | nil => cases absolute
    | cons c text => exact Nat.succ_ne_zero _
  have clean : ∀ name ∈ (elements text).2, slash ∉ name ∧ 0 ∉ name := by
    refine fun name member => ⟨noSlash name member, fun nul => noNul ?_⟩
    rw [← whole]
    exact mem_flatMap.mpr ⟨name, member, mem_cons_of_mem _ nul⟩
  have run : normalizeLoop (text.length + 2) (text.length + 1) text []
      = some (encode ((elements text).2.foldl writtenStep [])) := by
    have loop := @normalizeLoop_slashed [] (elements text).2 (text.length + 2) (text.length + 1)
      start clean
    rw [whole] at loop
    exact loop (by omega) (by simp [encode])
  have stacked := foldl_stacked start noSlash
  have short := @length_encode_foldl [] (elements text).2
  rw [whole] at short
  unfold isTrustedPathNormalize
  rw [if_neg nonempty, cString_terminated noNul, Option.bind_some, run, Option.bind_some]
  dsimp only
  rw [stacked.directoryText, if_pos]
  · refine ⟨_, rfl, ?_⟩
    simp only [any_eq_true, isPrefixOf_iff_prefix]
    rfl
  · have empty : (encode []).length = 0 := rfl
    split_ifs
    · omega
    · rw [length_cons]
      omega

theorem Loader.isTrustedPathNormalize_terminated (l : Loader) (absolute : text.head? = some slash)
    (noNul : 0 ∉ text) (behind : List UInt8)
    : ∃ trusted, l.isTrustedPathNormalize (text ++ 0 :: behind) text.length = some trusted
      ∧ (trusted = true ↔ l.Trusts (writtenNames text)) := by
  obtain ⟨trusted, run, meaning⟩ := Elf.isTrustedPathNormalize_terminated
    (l.systemDirs.map fun dir => directoryText dir.names) absolute noNul behind
  refine ⟨trusted, ?_, meaning.trans ?_⟩
  · rw [← run]
    unfold Loader.isTrustedPathNormalize Elf.isTrustedPathNormalize
    simp only [any_map]
    rfl
  · obtain ⟨-, -, noSlash⟩ := elements_text text
    have stacked : Stacked ((elements text).2.foldl writtenStep []) :=
      foldl_stacked ⟨forall_mem_nil _, forall_mem_nil _⟩ noSlash
    simp only [mem_map, exists_exists_and_eq_and]
    refine exists_congr fun dir => and_congr_right fun _ => ?_
    refine directoryText_prefix (fun name member => (dir.valid name member).2) ?_
    intro name member
    exact stacked.noSlash name (mem_of_mem_filter (mem_reverse.mp member))

/-- The names without each ".." behind an empty name; `behindEmpty` tells whether the last name
other than "." is empty.
-/
def withoutHidden : Bool → List (List UInt8) → List (List UInt8)
  | _, [] => []
  | behindEmpty, name :: names =>
    if name = [dot, dot] then
      if behindEmpty then withoutHidden false names else name :: withoutHidden false names
    else if name = [dot] then withoutHidden behindEmpty names
    else name :: withoutHidden (decide (name = [])) names

/-- Without the hidden names, what the code compares is the right path. -/
theorem filter_foldl_writtenStep (stacked : Stacked stack) (clean : ∀ name ∈ names, slash ∉ name)
    : (names.foldl writtenStep stack).filter (fun name => name ≠ [])
      = (withoutHidden (decide (stack.head? = some [])) names).foldl lexicalStep
          (stack.filter fun name => name ≠ []) := by
  induction names generalizing stack with
  | nil => rfl
  | cons name names ih =>
    obtain ⟨noSlash, clean⟩ := forall_mem_cons.mp clean
    rw [foldl_cons, ih (stacked.step noSlash) clean, withoutHidden]
    have filled := stacked.filled
    unfold writtenStep lexicalStep
    cases stack with
    | nil => split_ifs <;> simp_all [filter_cons]
    | cons top rest =>
      have below : rest.head? ≠ some [] := fun empty => filled [] (mem_of_mem_head? empty) rfl
      split_ifs <;> simp_all [filter_cons]

theorem writtenNames_eq (text : List UInt8)
    : writtenNames text = ((withoutHidden false (elements text).2).foldl lexicalStep []).reverse :=
  congrArg List.reverse (filter_foldl_writtenStep
    ⟨forall_mem_nil _, forall_mem_nil _⟩ (elements_text text).2.2)

/-- No ".." of the path is behind an empty name. -/
def NothingHidden (text : List UInt8) : Prop :=
  withoutHidden false (elements text).2 = (elements text).2.filter fun name => name ≠ [dot]

theorem foldl_filter_dot (names stack : List (List UInt8))
    : (names.filter fun name => name ≠ [dot]).foldl lexicalStep stack
      = names.foldl lexicalStep stack := by
  induction names generalizing stack with
  | nil => rfl
  | cons name names ih =>
    by_cases current : name = [dot]
    · rw [filter_cons_of_neg (by simp [current]), ih, foldl_cons, lexicalStep,
        if_neg (by rw [current]; decide), if_pos (.inl current)]
    · rw [filter_cons_of_pos (by simp [current]), foldl_cons, foldl_cons, ih]

theorem NothingHidden.names_eq (nothing : NothingHidden text)
    : writtenNames text = lexicalNames text := by
  rw [writtenNames_eq, nothing, foldl_filter_dot, lexicalNames]

/-- The check stays in its buffer, and trusts exactly the paths that are a trusted directory, or
below it, when they have no "." and "..".
-/
def NormalizesLexically (systemDirs : List (List UInt8)) (text : List UInt8) : Prop :=
  ∀ behind, ∃ trusted,
    isTrustedPathNormalize systemDirs (text ++ 0 :: behind) text.length = some trusted
    ∧ (trusted = true ↔ ∃ dir ∈ systemDirs, dir <+: directoryText (lexicalNames text))

/-- The verdict is right exactly if it makes no difference to leave out each ".." behind an empty
name, and so for each path without such a "..".
-/
theorem normalizesLexically_iff (systemDirs : List (List UInt8))
    (absolute : text.head? = some slash) (noNul : 0 ∉ text)
    : (NormalizesLexically systemDirs text ↔ ((∃ dir ∈ systemDirs, dir <+: directoryText
              ((withoutHidden false (elements text).2).foldl lexicalStep []).reverse)
            ↔ ∃ dir ∈ systemDirs, dir <+: directoryText (lexicalNames text)))
      ∧ (NothingHidden text → NormalizesLexically systemDirs text) := by
  rw [← writtenNames_eq]
  have enough : ((∃ dir ∈ systemDirs, dir <+: directoryText (writtenNames text))
        ↔ ∃ dir ∈ systemDirs, dir <+: directoryText (lexicalNames text)) →
      NormalizesLexically systemDirs text := by
    intro agree behind
    obtain ⟨trusted, run, meaning⟩ :=
      isTrustedPathNormalize_terminated systemDirs absolute noNul behind
    exact ⟨trusted, run, meaning.trans agree⟩
  refine ⟨⟨fun right => ?_, enough⟩, fun nothing => enough (by rw [nothing.names_eq])⟩
  obtain ⟨trusted, run, meaning⟩ := right []
  obtain ⟨trusted', run', meaning'⟩ :=
    isTrustedPathNormalize_terminated systemDirs absolute noNul []
  cases run.symm.trans run'
  exact meaning'.symm.trans meaning

theorem normalizesLexically_lib
    : NormalizesLexically [[47, 108, 105, 98, 47]] [47, 108, 105, 98, 47, 46, 46] :=
  (normalizesLexically_iff _ rfl (by decide)).1.mpr (by decide)

/-- "/lib//../x" is taken for "/lib/x". -/
theorem not_normalizesLexically
    : ¬ NormalizesLexically [[47, 108, 105, 98, 47]] [47, 108, 105, 98, 47, 47, 46, 46, 47, 120] := by
  intro right
  obtain ⟨trusted, run, meaning⟩ := right []
  have verdict : isTrustedPathNormalize [[47, 108, 105, 98, 47]]
    [47, 108, 105, 98, 47, 47, 46, 46, 47, 120, 0] 10 = some true := by decide
  cases run.symm.trans verdict
  exact absurd (meaning.mp rfl) (by decide)

end Nglibc.Elf
