import Mathlib.Tactic

/-! Combinatorics on words: periods, local periods, maximal suffixes, and the critical factorization
that two maximal suffixes under opposite orders give. A word is a function on indices together with
the index `n` of its end; a factor starts at `s`.
-/

namespace Nglibc.Words

variable {α : Type*} {x : Nat → α} {s n c d e p t : Nat}

/-- `d` is a period of the factor `x[s..n)`; distances from its length on are periods trivially. -/
def Period (x : Nat → α) (s n d : Nat) : Prop := 0 < d ∧ ∀ i, s ≤ i → i + d < n → x i = x (i + d)

/-- `d` is a local period of `x[0..n)` at the cut `c`: a word of length `d` ends at the cut and another
copy of it starts there, as far as the two lie inside of `x`.
-/
def LocalPeriod (x : Nat → α) (n c d : Nat) : Prop :=
  0 < d ∧ ∀ i < c, c ≤ i + d → i + d < n → x i = x (i + d)

theorem Period.localPeriod (period : Period x 0 n d) (c : Nat) : LocalPeriod x n c d :=
  ⟨period.1, fun i _ _ inside => period.2 i (Nat.zero_le i) inside⟩

theorem Period.mono {n' : Nat} (period : Period x s n d) (start : s ≤ t) (stop : n' ≤ n)
    : Period x t n' d :=
  ⟨period.1, fun i from_ inside =>
    period.2 i (start.trans from_) (Nat.lt_of_lt_of_le inside stop)⟩

theorem period_length (nonempty : s < n) : Period x s n (n - s) := by
  refine ⟨Nat.sub_pos_of_lt nonempty, ?_⟩
  intro i from_ inside
  omega

theorem Period.steps (period : Period x s n d) (count : Nat) {i : Nat} (from_ : s ≤ i)
    (inside : i + count * d < n)
    : x i = x (i + count * d) := by
  induction count with
  | zero => simp
  | succ count ih =>
    have sum : i + (count + 1) * d = i + count * d + d := by
      rw [Nat.succ_mul, Nat.add_assoc]
    rw [sum] at inside ⊢
    have before : i + count * d < n := Nat.lt_of_le_of_lt (Nat.le_add_right _ _) inside
    exact (ih before).trans (period.2 _ (from_.trans (Nat.le_add_right _ _)) inside)

/-- The suffix at `t` differs from the suffix at `s` and is smaller where they first differ. -/
def Below (lt : α → α → Prop) (x : Nat → α) (n t s : Nat) : Prop :=
  ∃ l, t + l < n ∧ s + l < n ∧ (∀ i < l, x (t + i) = x (s + i)) ∧ lt (x (t + l)) (x (s + l))

/-- No suffix of `x[s..n)` exceeds it where they first differ. -/
def Tops (lt : α → α → Prop) (x : Nat → α) (s n : Nat) : Prop :=
  ∀ t l, s ≤ t → t + l < n → (∀ i < l, x (t + i) = x (s + i)) → ¬ lt (x (s + l)) (x (t + l))

/-- The suffix at `s` is the greatest one: the longer ones are smaller at the first difference, and no
shorter one exceeds it.
-/
structure MaxSuffix (lt : α → α → Prop) (x : Nat → α) (n s : Nat) : Prop where
  longer : ∀ t < s, Below lt x n t s
  shorter : Tops lt x s n

variable {lt : α → α → Prop} [IsStrictTotalOrder α lt]

/-- Transitivity, at the earlier one of the two differences. -/
theorem Below.trans {u : Nat} (first : Below lt x n t s) (second : Below lt x n s u)
    : Below lt x n t u := by
  obtain ⟨l, tIn, sIn, same, less⟩ := first
  obtain ⟨l', sIn', uIn, same', less'⟩ := second
  rcases Nat.lt_trichotomy l l' with earlier | equal | later
  · refine ⟨l, tIn, Nat.lt_trans (Nat.add_lt_add_left earlier u) uIn, ?_, ?_⟩
    · intro i below
      exact (same i below).trans (same' i (Nat.lt_trans below earlier))
    · rw [← same' l earlier]
      exact less
  · subst equal
    exact ⟨l, tIn, uIn, fun i below => (same i below).trans (same' i below), trans_of lt less less'⟩
  · refine ⟨l', Nat.lt_trans (Nat.add_lt_add_left later t) tIn, uIn, ?_, ?_⟩
    · intro i below
      exact (same i (Nat.lt_trans below later)).trans (same' i below)
    · rw [same l' later]
      exact less'

/-- Two suffixes agree as far as they go together, or differ at a first place. -/
theorem agree_or_differ (x : Nat → α) (n t s : Nat)
    : (∀ i, t + i < n → s + i < n → x (t + i) = x (s + i))
      ∨ ∃ l, t + l < n ∧ s + l < n ∧ (∀ i < l, x (t + i) = x (s + i)) ∧ x (t + l) ≠ x (s + l) := by
  classical
  by_cases agree : ∀ i, t + i < n → s + i < n → x (t + i) = x (s + i)
  · exact .inl agree
  · have differ : ∃ l, t + l < n ∧ s + l < n ∧ x (t + l) ≠ x (s + l) := by
      push Not at agree
      exact agree
    obtain ⟨tIn, sIn, other⟩ := Nat.find_spec differ
    refine .inr ⟨Nat.find differ, tIn, sIn, ?_, other⟩
    intro i below
    by_contra different
    exact Nat.find_min differ below ⟨Nat.lt_trans (Nat.add_lt_add_left below t) tIn,
      Nat.lt_trans (Nat.add_lt_add_left below s) sIn, different⟩

/-- Inside of a factor that its suffixes do not exceed, a suffix is a prefix of it or below it. -/
theorem Tops.prefix_or_below (tops : Tops lt x s n) (start : s ≤ t)
    : (∀ i, t + i < n → x (t + i) = x (s + i)) ∨ Below lt x n t s := by
  rcases agree_or_differ x n t s with agree | ⟨l, tIn, sIn, same, other⟩
  · exact .inl fun i inside =>
      agree i inside (Nat.lt_of_le_of_lt (Nat.add_le_add_right start i) inside)
  · refine .inr ⟨l, tIn, sIn, same, ?_⟩
    rcases trichotomous_of lt (x (t + l)) (x (s + l)) with less | equal | greater
    · exact less
    · exact absurd equal other
    · exact absurd greater (tops t l start tIn same)

/-- What is read of a suffix that may be the greatest one: none of its own suffixes exceeds it so far,
and `p` is its smallest period.
-/
structure Window (lt : α → α → Prop) (x : Nat → α) (s m p : Nat) : Prop where
  nonempty : s < m
  tops : Tops lt x s m
  period : Period x s m p
  smallest : ∀ d, Period x s m d → p ≤ d

theorem Window.single (x : Nat → α) (s : Nat) : Window lt x s (s + 1) 1 where
  nonempty := Nat.lt_succ_self s
  tops := by
    intro t l start inside _
    have first : t = s ∧ l = 0 := by omega
    obtain ⟨rfl, rfl⟩ := first
    exact irrefl_of lt _
  period := by
    refine ⟨Nat.one_pos, ?_⟩
    intro i from_ inside
    omega
  smallest := fun _ period => period.1

variable {m : Nat}

omit [IsStrictTotalOrder α lt] in
/-- The letter behind a border of a window is no greater than the letter one period before the end:
the border also starts one period earlier.
-/
theorem Window.not_exceeded (window : Window lt x s m p) {l : Nat} (start : s < t)
    (place : t + l = m) (same : ∀ i < l, x (t + i) = x (s + i))
    : ¬ lt (x (s + l)) (x (m - p)) := by
  have border : Period x s m (t - s) := by
    refine ⟨Nat.sub_pos_of_lt start, ?_⟩
    intro i from_ inside
    have equal := same (i - s) (by omega)
    have first : t + (i - s) = i + (t - s) := by omega
    have second : s + (i - s) = i := by omega
    rw [first, second] at equal
    exact equal.symm
  have early : p ≤ t - s := window.smallest _ border
  have pos := window.period.1
  have end_ : t - p + l = m - p := by omega
  have exceeds := window.tops (t - p) l (by omega) (by omega) ?_
  · rw [end_] at exceeds
    exact exceeds
  · intro i below
    have moved : t - p + i + p = t + i := by omega
    have equal := window.period.2 (t - p + i) (by omega) (by omega)
    rw [moved] at equal
    exact equal.trans (same i below)

/-- A letter that does not exceed the one a period before it leaves the suffix unexceeded. -/
theorem Window.tops_succ (window : Window lt x s m p) (notGreater : ¬ lt (x (m - p)) (x m))
    : Tops lt x s (m + 1) := by
  intro t l start inside same
  rcases Nat.lt_or_ge (t + l) m with old | new
  · exact window.tops t l start old same
  have place : t + l = m := by omega
  rcases Nat.eq_or_lt_of_le start with rfl | later
  · exact irrefl_of lt _
  intro greater
  rw [place] at greater
  rcases trichotomous_of lt (x m) (x (m - p)) with less | equal | exceeds
  · exact window.not_exceeded later place same (trans_of lt greater less)
  · exact window.not_exceeded later place same (equal ▸ greater)
  · exact notGreater exceeds

theorem Window.equal (window : Window lt x s m p) (same : x (m - p) = x m)
    : Window lt x s (m + 1) p where
  nonempty := Nat.lt_succ_of_lt window.nonempty
  tops := window.tops_succ (same ▸ irrefl_of lt _)
  period := by
    refine ⟨window.period.1, ?_⟩
    intro i from_ inside
    rcases Nat.lt_or_ge (i + p) m with old | new
    · exact window.period.2 i from_ old
    · have place : i + p = m := by omega
      have start : i = m - p := by omega
      rw [place, start]
      exact same
  smallest := fun d period => window.smallest d (period.mono le_rfl (Nat.le_succ m))

theorem Window.smaller (window : Window lt x s m p) (less : lt (x m) (x (m - p)))
    : Window lt x s (m + 1) (m + 1 - s) where
  nonempty := Nat.lt_succ_of_lt window.nonempty
  tops := window.tops_succ (asymm_of lt less)
  period := period_length (Nat.lt_succ_of_lt window.nonempty)
  smallest := by
    intro d period
    by_contra short
    have border : ∀ i < m - (s + d), x (s + d + i) = x (s + i) := by
      intro i below
      have moved : s + i + d = s + d + i := Nat.add_right_comm s i d
      have equal := period.2 (s + i) (Nat.le_add_right s i) (by omega)
      rw [moved] at equal
      exact equal.symm
    have pos := period.1
    have last : x (m - d) = x m := by
      have equal := period.2 (m - d) (by omega) (by omega)
      have end_ : m - d + d = m := by omega
      rw [end_] at equal
      exact equal
    have place : s + (m - (s + d)) = m - d := by omega
    have exceeds := window.not_exceeded (t := s + d) (by omega) (by omega) border
    rw [place, last] at exceeds
    exact exceeds less

/-- The next letter is greater: what starts at the last whole repetition of the period exceeds
everything that starts before it.
-/
theorem Window.restart (window : Window lt x s m p) {count k : Nat} (inside : m < n)
    (longer : ∀ t < s, Below lt x n t s) (place : s + count * p + k = m)
    (_ : 0 < count) (greater : lt (x (s + k)) (x m))
    : ∀ t < s + count * p, Below lt x n t (s + count * p) := by
  have repeated : ∀ i < k, x (s + i) = x (s + count * p + i) := by
    intro i below
    have moved : s + i + count * p = s + count * p + i := Nat.add_right_comm s i _
    rw [← moved]
    exact window.period.steps count (Nat.le_add_right s i) (by omega)
  have base : Below lt x n s (s + count * p) := by
    refine ⟨k, by omega, by omega, repeated, ?_⟩
    rw [place]
    exact greater
  intro t before
  rcases Nat.lt_or_ge t s with earlier | from_
  · exact (longer t earlier).trans base
  rcases window.tops.prefix_or_below from_ with agree | ⟨l, tIn, sIn, same, less⟩
  · -- the suffix repeats the window beyond the place of the greater letter
    refine ⟨k, by omega, by omega, ?_, ?_⟩
    · intro i below
      exact (agree i (by omega)).trans (repeated i below)
    · rw [agree k (by omega), place]
      exact greater
  · exact Below.trans ⟨l, Nat.lt_trans tIn inside, Nat.lt_trans sIn inside, same, less⟩ base

/-- No local period at the start of the greatest suffix is as short as what is before it. -/
theorem MaxSuffix.not_localPeriod (max : MaxSuffix lt x n c) (short : d ≤ c)
    : ¬ LocalPeriod x n c d := by
  intro period
  obtain ⟨l, tIn, cIn, same, less⟩ := max.longer (c - d) (Nat.sub_lt_of_pos_le period.1 short)
  have shifted : ∀ i, c + i < n → i < d → x (c - d + i) = x (c + i) := by
    intro i inside below
    have moved : c - d + i + d = c + i := by omega
    rw [← moved]
    exact period.2 _ (by omega) (by omega) (by omega)
  have far : d ≤ l := by
    by_contra near
    rw [shifted l cIn (Nat.not_le.mp near)] at less
    exact irrefl_of lt _ less
  obtain ⟨k, rfl⟩ := Nat.exists_eq_add_of_le far
  -- the part of the difference behind the copy is one between two suffixes of the greatest suffix
  refine max.shorter (c + d) k (Nat.le_add_right c d) ?_ ?_ ?_
  · rw [Nat.add_assoc]
    exact cIn
  · intro i below
    have equal := same (d + i) (Nat.add_lt_add_left below d)
    have left : c - d + (d + i) = c + i := by omega
    rw [left, ← Nat.add_assoc] at equal
    exact equal.symm
  · have left : c - d + (d + k) = c + k := by omega
    rw [left, ← Nat.add_assoc] at less
    exact less

/-- The critical factorization theorem: the later one of the starts of the greatest suffixes under an
order and under its opposite cuts `x` so that every local period at the cut is a period of `x`.
-/
theorem MaxSuffix.critical {rev : Nat} (max : MaxSuffix lt x n c)
    (maxRev : MaxSuffix (Function.swap lt) x n rev) (later : rev ≤ c)
    (period : LocalPeriod x n c d)
    : Period x 0 n d := by
  have long : c < d := Nat.lt_of_not_le fun short => max.not_localPeriod short period
  refine ⟨period.1, ?_⟩
  intro i _ inside
  by_cases left : i < c
  · exact period.2 i left (long.le.trans (Nat.le_add_left d i)) inside
  rcases agree_or_differ x n (c + d) c with agree | ⟨l, dIn, cIn, same, other⟩
  · have equal := agree (i - c) (by omega) (by omega)
    have first : c + d + (i - c) = i + d := by omega
    have second : c + (i - c) = i := by omega
    rw [first, second] at equal
    exact equal.symm
  -- a first difference in the right half contradicts one of the two maximal suffixes
  exfalso
  rcases trichotomous_of lt (x (c + l)) (x (c + d + l)) with less | equal | greater
  · exact max.shorter (c + d) l (Nat.le_add_right c d) dIn same less
  · exact other equal.symm
  · have front : ∀ i < c - rev + l, x (rev + d + i) = x (rev + i) := by
      intro i below
      by_cases inFront : rev + i < c
      · have moved : rev + d + i = rev + i + d := Nat.add_right_comm rev d i
        rw [moved]
        exact (period.2 (rev + i) inFront (by omega) (by omega)).symm
      · have equal := same (rev + i - c) (by omega)
        have first : c + d + (rev + i - c) = rev + d + i := by omega
        have second : c + (rev + i - c) = rev + i := by omega
        rw [first, second] at equal
        exact equal
    have place : rev + d + (c - rev + l) = c + d + l := by omega
    have base : rev + (c - rev + l) = c + l := by omega
    refine maxRev.shorter (rev + d) (c - rev + l) (Nat.le_add_right rev d) ?_ front ?_
    · rw [place]
      exact dIn
    · rw [place, base]
      exact greater

/-- A cut of `x` at `suffix`, before the end of the smallest period, at which every local period is a
period of `x`; `period` is the smallest period of the right half.
-/
structure Factorizes (x : Nat → α) (n suffix period : Nat) : Prop where
  inside : suffix < n
  right : IsLeast {d | Period x suffix n d} period
  critical : ∀ d, LocalPeriod x n suffix d → suffix < d ∧ Period x 0 n d

theorem exists_least_period (x : Nat → α) (nonempty : s < n)
    : ∃ p, IsLeast {d | Period x s n d} p := by
  classical
  have some_ : ∃ d, Period x s n d := ⟨_, period_length nonempty⟩
  exact ⟨Nat.find some_, Nat.find_spec some_, fun d period => Nat.find_min' some_ period⟩

end Nglibc.Words
