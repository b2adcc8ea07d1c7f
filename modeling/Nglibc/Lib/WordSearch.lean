import Nglibc.Lib.Words

/-! Searching for a word with a critical factorization: which places a mismatch rules out. The word is
`x[0..n)`, the text `y` has no end.
-/

namespace Nglibc.Words

variable {α : Type*} {x y : Nat → α} {n c p d i j : Nat}

/-- The word stands in the text at `q`. -/
def MatchesAt (x y : Nat → α) (n q : Nat) : Prop := ∀ i < n, y (q + i) = x i

def FirstMatch (x y : Nat → α) (n : Nat) : Option Nat → Prop
  | some q => MatchesAt x y n q ∧ ∀ q' < q, ¬ MatchesAt x y n q'
  | none => ∀ q, ¬ MatchesAt x y n q

/-- The right half of the word stands in the text from its cut at `c` up to `i`. -/
def MatchesRight (x y : Nat → α) (c i j : Nat) : Prop := ∀ t, c ≤ t → t < i → y (j + t) = x t

/-- Another place is a local period at the cut as far as the right half was matched. -/
theorem MatchesAt.period (factorizes : Factorizes x n c p) (right : MatchesRight x y c i j)
    (pos : 0 < d) (read : c + d ≤ i ∨ i = n) (found : MatchesAt x y n (j + d))
    : Period x 0 n d := by
  refine (factorizes.critical d ⟨pos, ?_⟩).2
  intro t before from_ inside
  have here := right (t + d) from_ (by omega)
  have there := found t (by omega)
  rw [Nat.add_assoc, Nat.add_comm d t] at there
  exact there.symm.trans here

theorem Factorizes.not_matchesAt (factorizes : Factorizes x n c p) (right : MatchesRight x y c i j)
    (inside : i < n) (differ : y (j + i) ≠ x i) (pos : 0 < d) (short : c + d ≤ i)
    : ¬ MatchesAt x y n (j + d) := by
  intro found
  have period := found.period factorizes right pos (.inl short)
  have there := found (i - d) (by omega)
  have repeats := period.2 (i - d) (Nat.zero_le _) (by omega)
  have place : j + d + (i - d) = j + i := by omega
  have back : i - d + d = i := by omega
  rw [place] at there
  rw [back] at repeats
  exact differ (there.trans repeats)

/-- `shift` is no longer than any period of the word, and `remembered` letters of the word may be taken
for granted behind it: none, or all but one period.
-/
structure SafeShift (x : Nat → α) (n shift remembered : Nat) : Prop where
  pos : 0 < shift
  inside : shift ≤ n
  least : ∀ d, Period x 0 n d → shift ≤ d
  memory : remembered = 0 ∨ remembered = n - shift ∧ Period x 0 n shift

/-- The left half is the end of a period of the right half. -/
def Repeats (x : Nat → α) (c p : Nat) : Prop := ∀ i < c, x i = x (i + p)

section

variable (factorizes : Factorizes x n c p)
include factorizes

theorem Factorizes.period_le : c + p ≤ n := by
  have inside := factorizes.inside
  have short := factorizes.right.2 (period_length inside)
  omega

theorem Factorizes.period_of_repeats (repeats : Repeats x c p)
    : Period x 0 n p := by
  refine ⟨factorizes.right.1.1, ?_⟩
  intro i _ inside
  rcases Nat.lt_or_ge i c with left | right
  · exact repeats i left
  · exact factorizes.right.1.2 i right inside

theorem Factorizes.safeShift_periodic (repeats : Repeats x c p)
    : SafeShift x n p (n - p) where
  pos := factorizes.right.1.1
  inside := (Nat.le_add_left p c).trans factorizes.period_le
  least := fun _ period => factorizes.right.2 (period.mono (Nat.zero_le c) le_rfl)
  memory := .inr ⟨rfl, factorizes.period_of_repeats repeats⟩

/-- A period of the word that fits into the right half is a multiple of the period of that half: the
rest of the division would be a shorter local period.
-/
theorem Factorizes.dvd_period (period : Period x 0 n d) (short : d ≤ n - c)
    : p ∣ d := by
  have pos := factorizes.right.1.1
  by_contra notMultiple
  have rest : 0 < d % p := Nat.pos_of_ne_zero fun zero => notMultiple (Nat.dvd_of_mod_eq_zero zero)
  have split : d % p + d / p * p = d := by
    rw [Nat.mul_comm]
    exact Nat.mod_add_div d p
  have shorter : LocalPeriod x n c (d % p) := by
    refine ⟨rest, ?_⟩
    intro i before from_ inside
    have whole := period.2 i (Nat.zero_le i) (by omega)
    have steps := factorizes.right.1.steps (d / p) from_ (by omega)
    have place : i + d % p + d / p * p = i + d := by omega
    rw [place] at steps
    exact whole.trans steps.symm
  have least := factorizes.right.2 ((factorizes.critical _ shorter).2.mono (Nat.zero_le c) le_rfl)
  exact Nat.not_le.mpr (Nat.mod_lt d pos) least

/-- If the left half does not repeat the right one, no period of the word is as short as one of its
halves.
-/
theorem Factorizes.long_period (distinct : ¬ Repeats x c p) (period : Period x 0 n d)
    : max c (n - c) < d := by
  have behind := (factorizes.critical d (period.localPeriod c)).1
  refine max_lt behind (Nat.lt_of_not_le fun short => distinct ?_)
  obtain ⟨count, rfl⟩ := factorizes.dvd_period period short
  have some_ : 0 < count := Nat.pos_of_ne_zero fun zero => by
    rw [zero] at behind
    exact Nat.not_lt_zero c behind
  obtain ⟨more, rfl⟩ : ∃ more, count = more + 1 := ⟨count - 1, by omega⟩
  rw [Nat.mul_succ] at period behind short
  intro i before
  have whole := period.2 i (Nat.zero_le i) (by omega)
  rcases Nat.lt_or_ge (i + p) c with left | right
  · -- both letters are repeated in the right half
    have shifted := period.2 (i + p) (Nat.zero_le _) (by omega)
    have next := factorizes.right.1.2 (i + (p * more + p)) (by omega) (by omega)
    have place : i + p + (p * more + p) = i + (p * more + p) + p := by omega
    rw [place] at shifted
    exact whole.trans (next.trans shifted.symm)
  · have steps := factorizes.right.1.steps more right (by rw [Nat.mul_comm]; omega)
    have place : i + p + more * p = i + (p * more + p) := by
      rw [Nat.mul_comm]
      omega
    rw [place] at steps
    exact whole.trans steps.symm

theorem Factorizes.safeShift_distinct (distinct : ¬ Repeats x c p)
    : SafeShift x n (max c (n - c) + 1) 0 where
  pos := Nat.succ_pos _
  inside := by
    have cut := factorizes.inside
    have left : 0 < c := Nat.pos_of_ne_zero fun zero =>
      distinct fun i before => absurd before (by rw [zero]; exact Nat.not_lt_zero i)
    exact max_lt cut (Nat.sub_lt (Nat.lt_trans left cut) left)
  least := fun _ period => factorizes.long_period distinct period
  memory := .inl rfl

end

theorem SafeShift.not_matchesAt {shift remembered : Nat} (safe : SafeShift x n shift remembered)
    (factorizes : Factorizes x n c p) (right : MatchesRight x y c n j) (pos : 0 < d) (short : d < shift)
    : ¬ MatchesAt x y n (j + d) := fun found =>
  Nat.not_le.mpr short (safe.least d (found.period factorizes right pos (.inr rfl)))

/-- What is remembered at `j` of the right half one shift before. -/
def Remembers (x y : Nat → α) (n c shift memory j : Nat) : Prop :=
  memory = 0 ∨ memory = n - shift ∧ Period x 0 n shift ∧ shift ≤ j ∧ MatchesRight x y c n (j - shift)

theorem Remembers.matches {shift memory t : Nat} (factorizes : Factorizes x n c p)
    (remembers : Remembers x y n c shift memory j) (below : t < memory)
    : y (j + t) = x t := by
  rcases remembers with rfl | ⟨rfl, period, before, right⟩
  · exact absurd below (Nat.not_lt_zero t)
  have cut := (factorizes.critical shift (period.localPeriod c)).1
  have here := right (t + shift) (by omega) (by omega)
  have place : j - shift + (t + shift) = j + t := by omega
  rw [place] at here
  exact here.trans (period.2 t (Nat.zero_le t) (by omega)).symm

/-- If the last letter of the window does not match, nothing starts at a remembered letter. -/
theorem Remembers.not_matchesAt {shift memory : Nat} (factorizes : Factorizes x n c p)
    (remembers : Remembers x y n c shift memory j) (short : d < memory)
    (differ : y (j + (n - 1)) ≠ x (n - 1))
    : ¬ MatchesAt x y n (j + d) := by
  rcases remembers with rfl | ⟨rfl, period, before, right⟩
  · exact absurd short (Nat.not_lt_zero d)
  intro found
  have start : j - shift + (shift + d) = j + d := by omega
  have longer : Period x 0 n (shift + d) := by
    refine MatchesAt.period (d := shift + d) factorizes right (Nat.add_pos_left period.1 d) (.inr rfl) ?_
    rw [start]
    exact found
  have there := found (n - 1 - d) (by omega)
  have place : j + d + (n - 1 - d) = j + (n - 1) := by omega
  have one := period.2 (n - 1 - d - shift) (Nat.zero_le _) (by omega)
  have two := longer.2 (n - 1 - d - shift) (Nat.zero_le _) (by omega)
  have first : n - 1 - d - shift + shift = n - 1 - d := by omega
  have second : n - 1 - d - shift + (shift + d) = n - 1 := by omega
  rw [place] at there
  rw [first] at one
  rw [second] at two
  exact differ (there.trans (one.symm.trans two))

/-- No place before `q` matches. -/
def NoneBefore (x y : Nat → α) (n q : Nat) : Prop := ∀ q' < q, ¬ MatchesAt x y n q'

/-- The search goes on `shift` places later. -/
theorem NoneBefore.add {shift : Nat} (none : NoneBefore x y n j)
    (skipped : ∀ d < shift, ¬ MatchesAt x y n (j + d))
    : NoneBefore x y n (j + shift) := by
  intro q before
  rcases Nat.lt_or_ge q j with early | from_
  · exact none q early
  · obtain ⟨d, rfl⟩ := Nat.exists_eq_add_of_le from_
    exact skipped d (Nat.lt_of_add_lt_add_left before)

end Nglibc.Words
