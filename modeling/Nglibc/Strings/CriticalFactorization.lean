import Nglibc.Lib.Words

/-! `critical_factorization` of `string/str-two-way.h`: two scans for the greatest suffix of the needle,
under the order of the letters and under its opposite.
-/

namespace Nglibc.Strings

open Nglibc.Words

/-- A sum of two `size_t`. -/
def sizeAdd (a b : Nat) : Nat := (a + b) % 2 ^ 64

/-- A difference of two `size_t`. -/
def sizeSub (a b : Nat) : Nat := (a + 2 ^ 64 - b) % 2 ^ 64

def sizeMax : Nat := 2 ^ 64 - 1

/-- The variables of one scan. `maxSuffix` is the index before the suffix, `j` and `k` the candidate and
the offset into its period, `p` the period.
-/
structure SuffixScan where
  maxSuffix : Nat
  j : Nat
  k : Nat
  p : Nat
  deriving DecidableEq, Repr

def SuffixScan.init : SuffixScan := { maxSuffix := sizeMax, j := 0, k := 1, p := 1 }

variable {β α : Type}

/-- The body of the loop on the letters `a` and `b`. The reverse scan has the comparison the other way. -/
def SuffixScan.step [DecidableEq α] (less : α → α → Bool) (a b : α) (scan : SuffixScan) : SuffixScan :=
  if less a b then
    let j := sizeAdd scan.j scan.k
    { scan with j, k := 1, p := sizeSub j scan.maxSuffix }
  else if a = b then
    if scan.k ≠ scan.p then { scan with k := sizeAdd scan.k 1 }
    else { scan with j := sizeAdd scan.j scan.p, k := 1 }
  else { maxSuffix := scan.j, j := sizeAdd scan.j 1, k := 1, p := 1 }

def SuffixScan.run [DecidableEq α] (canonElement : β → α) (less : α → α → Bool) (needle : List β)
    : Nat → SuffixScan → Option SuffixScan
  | 0, _ => none
  | fuel + 1, scan =>
    if sizeAdd scan.j scan.k < needle.length then do
      let a ← needle[sizeAdd scan.j scan.k]?
      let b ← needle[sizeAdd scan.maxSuffix scan.k]?
      run canonElement less needle fuel (scan.step less (canonElement a) (canonElement b))
    else some scan

/-- `critical_factorization`: the index of the right half and `*period`. -/
def criticalFactorization [LinearOrder α] (canonElement : β → α) (needle : List β)
    : Option (Nat × Nat) := do
  let fuel := 2 * needle.length
  let scan ← SuffixScan.init.run canonElement (fun a b => decide (a < b)) needle fuel
  let rev ← SuffixScan.init.run canonElement (fun a b => decide (b < a)) needle fuel
  if sizeAdd rev.maxSuffix 1 < sizeAdd scan.maxSuffix 1 then
    some (sizeAdd scan.maxSuffix 1, scan.p)
  else some (sizeAdd rev.maxSuffix 1, rev.p)

/-- The word of a needle: its letters after `CANON_ELEMENT`. -/
def letters [Inhabited β] (canonElement : β → α) (needle : List β) (i : Nat) : α :=
  canonElement (needle.getD i default)

/-- The invariant of a scan: the suffix at `s` is the greatest one as far as it was read, and `j` is
behind some whole periods of it.
-/
structure SuffixScan.Holds (lt : α → α → Prop) (x : Nat → α) (n : Nat) (scan : SuffixScan) (s : Nat)
    : Prop where
  maxSuffix : sizeAdd scan.maxSuffix 1 = s
  bounded : scan.maxSuffix < 2 ^ 64
  blocks : ∃ count, 0 < count ∧ s + count * scan.p = scan.j + 1
  offset : 1 ≤ scan.k ∧ scan.k ≤ scan.p
  inside : scan.j + scan.k ≤ n
  longer : ∀ t < s, Below lt x n t s
  window : Window lt x s (scan.j + scan.k) scan.p

variable {lt : α → α → Prop} [IsStrictTotalOrder α lt] {x : Nat → α} {n s : Nat} {scan : SuffixScan}

theorem SuffixScan.init_holds (nonempty : 0 < n) : SuffixScan.init.Holds lt x n 0 where
  maxSuffix := rfl
  bounded := by decide
  blocks := ⟨1, Nat.one_pos, rfl⟩
  offset := ⟨le_rfl, le_rfl⟩
  inside := nonempty
  longer := fun t before => absurd before (Nat.not_lt_zero t)
  window := Window.single x 0

omit [IsStrictTotalOrder α lt] in
theorem SuffixScan.Holds.start (holds : scan.Holds lt x n s) : s ≤ scan.j := by
  obtain ⟨count, some_, blocks⟩ := holds.blocks
  have ahead : scan.p ≤ count * scan.p := Nat.le_mul_of_pos_left _ some_
  have pos := holds.window.period.1
  omega

omit [IsStrictTotalOrder α lt] in
/-- `needle[max_suffix + k]` is the letter one period before the end of the window. -/
theorem SuffixScan.Holds.compared (holds : scan.Holds lt x n s) (fits : n < 2 ^ 64)
    : sizeAdd scan.maxSuffix scan.k = s + scan.k - 1
      ∧ x (s + scan.k - 1) = x (scan.j + scan.k - scan.p) := by
  have start := holds.start
  obtain ⟨count, some_, blocks⟩ := holds.blocks
  have offset := holds.offset
  have inside := holds.inside
  constructor
  · have place := holds.maxSuffix
    have bounded := holds.bounded
    unfold sizeAdd at place ⊢
    omega
  · obtain ⟨more, rfl⟩ : ∃ more, count = more + 1 := ⟨count - 1, by omega⟩
    rw [Nat.succ_mul] at blocks
    have equal := holds.window.period.steps more (i := s + scan.k - 1) (by omega) (by omega)
    have place : s + scan.k - 1 + more * scan.p = scan.j + scan.k - scan.p := by omega
    rw [place] at equal
    exact equal

/-- How far a scan is: the sum grows at every step. -/
def SuffixScan.progress (scan : SuffixScan) : Nat := sizeAdd scan.maxSuffix 1 + scan.j + scan.k

/-- One step of a scan keeps the invariant and makes progress; by the outcome of the comparison. -/
theorem SuffixScan.Holds.step [DecidableEq α] {less : α → α → Bool}
    (compares : ∀ a b, less a b = true ↔ lt a b) (fits : n < 2 ^ 64) (holds : scan.Holds lt x n s)
    (more : scan.j + scan.k < n)
    : ∃ s', (scan.step less (x (scan.j + scan.k)) (x (s + scan.k - 1))).Holds lt x n s'
      ∧ scan.progress < (scan.step less (x (scan.j + scan.k)) (x (s + scan.k - 1))).progress := by
  obtain ⟨count, some_, blocks⟩ := holds.blocks
  have offset := holds.offset
  have place := holds.maxSuffix
  have bounded := holds.bounded
  obtain ⟨_, periodic⟩ := holds.compared fits
  have ahead : scan.p ≤ count * scan.p := Nat.le_mul_of_pos_left _ some_
  unfold SuffixScan.step
  by_cases smaller : less (x (scan.j + scan.k)) (x (s + scan.k - 1)) = true
  · -- the suffix is smaller: everything so far is the period
    rw [if_pos smaller]
    have window := holds.window.smaller (periodic ▸ (compares _ _).mp smaller)
    have j : sizeAdd scan.j scan.k = scan.j + scan.k := Nat.mod_eq_of_lt (Nat.lt_trans more fits)
    have p : sizeSub (scan.j + scan.k) scan.maxSuffix = scan.j + scan.k + 1 - s := by
      unfold sizeAdd at place
      unfold sizeSub
      omega
    simp only [j, p]
    refine ⟨s, ⟨place, bounded, ⟨1, Nat.one_pos, ?_⟩, ⟨le_rfl, ?_⟩, more, holds.longer, window⟩, ?_⟩
    · rw [Nat.one_mul]
      exact Nat.add_sub_cancel' (by omega)
    · simp only
      omega
    · simp only [SuffixScan.progress, place]
      omega
  rw [if_neg smaller]
  by_cases same : x (scan.j + scan.k) = x (s + scan.k - 1)
  · rw [if_pos same]
    have window := holds.window.equal (periodic.symm.trans same.symm)
    by_cases repeated : scan.k ≠ scan.p
    · rw [if_pos repeated]
      have k : sizeAdd scan.k 1 = scan.k + 1 := Nat.mod_eq_of_lt (by omega)
      simp only [k]
      refine ⟨s, ⟨place, bounded, ⟨count, some_, blocks⟩, ⟨Nat.le_add_left 1 _, ?_⟩, more, holds.longer,
        window⟩, ?_⟩
      · exact Nat.lt_of_le_of_ne offset.2 repeated
      · simp only [SuffixScan.progress]
        omega
    · rw [if_neg repeated]
      have whole : scan.k = scan.p := not_not.mp repeated
      have j : sizeAdd scan.j scan.p = scan.j + scan.p := Nat.mod_eq_of_lt (by omega)
      rw [whole] at window more
      simp only [j]
      refine ⟨s, ⟨place, bounded, ⟨count + 1, Nat.succ_pos _, ?_⟩, ⟨le_rfl, offset.1.trans offset.2⟩,
        more, holds.longer, window⟩, ?_⟩
      · rw [Nat.succ_mul]
        simp only
        omega
      · simp only [SuffixScan.progress]
        omega
  · -- the suffix is greater: the scan starts over behind the last whole period
    rw [if_neg same]
    have greater : lt (x (s + scan.k - 1)) (x (scan.j + scan.k)) := by
      rcases trichotomous_of lt (x (scan.j + scan.k)) (x (s + scan.k - 1)) with below | equal | above
      · exact absurd ((compares _ _).mpr below) smaller
      · exact absurd equal same
      · exact above
    have j : sizeAdd scan.j 1 = scan.j + 1 := Nat.mod_eq_of_lt (by omega)
    simp only [j]
    have longer := holds.window.restart (k := scan.k - 1) more holds.longer (by omega) some_ (by
      rw [← Nat.add_sub_assoc offset.1]
      exact greater)
    rw [blocks] at longer
    refine ⟨scan.j + 1, ⟨j, by simp only; omega, ⟨1, Nat.one_pos, rfl⟩, ⟨le_rfl, le_rfl⟩, ?_, longer,
      Window.single x _⟩, ?_⟩
    · simp only
      omega
    · simp only [SuffixScan.progress, place, j]
      omega

theorem getElem?_letters [Inhabited β] {needle : List β} {i : Nat} (inside : i < needle.length)
    : ∃ b, needle[i]? = some b ∧ ∀ canonElement : β → α, canonElement b = letters canonElement needle i := by
  refine ⟨needle[i], List.getElem?_eq_getElem inside, ?_⟩
  intro canonElement
  rw [letters, List.getD_eq_getElem?_getD, List.getElem?_eq_getElem inside, Option.getD_some]

/-- A scan that holds the invariant ends with the greatest suffix and its smallest period, by induction
on the fuel.
-/
theorem SuffixScan.run_holds [DecidableEq α] [Inhabited β] {canonElement : β → α}
    {less : α → α → Bool} {needle : List β} (compares : ∀ a b, less a b = true ↔ lt a b)
    (fits : needle.length < 2 ^ 64) (fuel : Nat)
    (holds : scan.Holds lt (letters canonElement needle) needle.length s)
    (enough : 2 * needle.length ≤ scan.progress + fuel)
    : ∃ scan' s', scan.run canonElement less needle fuel = some scan'
      ∧ scan'.Holds lt (letters canonElement needle) needle.length s'
      ∧ scan'.j + scan'.k = needle.length := by
  induction fuel generalizing scan s with
  | zero =>
    have start := holds.start
    have inside := holds.inside
    have offset := holds.offset
    rw [progress, holds.maxSuffix] at enough
    omega
  | succ fuel ih =>
    have inside := holds.inside
    have sum : sizeAdd scan.j scan.k = scan.j + scan.k :=
      Nat.mod_eq_of_lt (Nat.lt_of_le_of_lt inside fits)
    rw [run, sum]
    by_cases more : scan.j + scan.k < needle.length
    · have start := holds.start
      obtain ⟨a, readA, letterA⟩ := getElem?_letters (α := α) more
      obtain ⟨b, readB, letterB⟩ := @getElem?_letters β α _ needle (s + scan.k - 1) (by omega)
      rw [if_pos more, (holds.compared fits).1, readA, readB]
      simp only [Option.bind_eq_bind, Option.bind_some]
      rw [letterA canonElement, letterB canonElement]
      obtain ⟨s', holds', grows⟩ := holds.step compares fits more
      exact ih holds' (by omega)
    · rw [if_neg more]
      exact ⟨scan, s, rfl, holds, Nat.le_antisymm inside (Nat.not_lt.mp more)⟩

omit [IsStrictTotalOrder α lt] in
theorem SuffixScan.Holds.maxSuffix_of_end (holds : scan.Holds lt x n s) (ends : scan.j + scan.k = n)
    : MaxSuffix lt x n s :=
  ⟨holds.longer, ends ▸ holds.window.tops⟩

theorem SuffixScan.Holds.factorizes {rev : Nat} (holds : scan.Holds lt x n s)
    (ends : scan.j + scan.k = n) (maxRev : MaxSuffix (Function.swap lt) x n rev) (later : rev ≤ s)
    : Factorizes x n s scan.p where
  inside := ends ▸ holds.window.nonempty
  right := ⟨ends ▸ holds.window.period, fun d period => holds.window.smallest d (ends ▸ period)⟩
  critical := by
    have max := holds.maxSuffix_of_end ends
    intro d period
    exact ⟨Nat.lt_of_not_le fun short => max.not_localPeriod short period,
      max.critical maxRev later period⟩

/-- `critical_factorization` ends without an access out of bounds and factorizes its needle. -/
theorem criticalFactorization_factorizes [LinearOrder α] [Inhabited β] (canonElement : β → α)
    {needle : List β} (nonempty : 0 < needle.length) (fits : needle.length < 2 ^ 64)
    : ∃ suffix period, criticalFactorization canonElement needle = some (suffix, period)
      ∧ Factorizes (letters canonElement needle) needle.length suffix period := by
  have enough : 2 * needle.length ≤ SuffixScan.init.progress + 2 * needle.length :=
    Nat.le_add_left _ _
  obtain ⟨scan, s, run, holds, ends⟩ := @SuffixScan.run_holds _ _ (· < ·) _ _ _ _ _
    canonElement (fun a b => decide (a < b)) _ (fun a b => decide_eq_true_iff)
    fits (2 * needle.length) (SuffixScan.init_holds nonempty) enough
  obtain ⟨rev, r, runRev, holdsRev, endsRev⟩ := @SuffixScan.run_holds _ _
    (Function.swap (· < · : α → α → Prop)) _ _ _ _ _
    canonElement (fun a b => decide (b < a)) _ (fun a b => decide_eq_true_iff)
    fits (2 * needle.length) (SuffixScan.init_holds nonempty) enough
  unfold criticalFactorization
  simp only [run, runRev, Option.bind_eq_bind, Option.bind_some, holds.maxSuffix, holdsRev.maxSuffix]
  by_cases later : r < s
  · rw [if_pos later]
    exact ⟨s, scan.p, rfl, holds.factorizes ends (holdsRev.maxSuffix_of_end endsRev) later.le⟩
  · rw [if_neg later]
    exact ⟨r, rev.p, rfl, holdsRev.factorizes endsRev (holds.maxSuffix_of_end ends)
      (Nat.not_lt.mp later)⟩

/-- `critical_factorization` gives the index of a right half, at most the smallest period of the needle,
and the smallest period of that half; the smallest local period at the cut is the smallest period of the
needle. A result is only given when every access was in bounds.
-/
theorem criticalFactorization_critical [LinearOrder α] [Inhabited β] (canonElement : β → α)
    {needle : List β} (nonempty : needle ≠ []) (fits : needle.length < 2 ^ 64)
    : ∃ suffix period smallest, criticalFactorization canonElement needle = some (suffix, period)
      ∧ suffix < needle.length
      ∧ IsLeast {d | Period (letters canonElement needle) suffix needle.length d} period
      ∧ IsLeast {d | Period (letters canonElement needle) 0 needle.length d} smallest
      ∧ suffix ≤ smallest
      ∧ IsLeast {d | LocalPeriod (letters canonElement needle) needle.length suffix d} smallest := by
  have pos := List.length_pos_of_ne_nil nonempty
  obtain ⟨suffix, period, run, factorizes⟩ := criticalFactorization_factorizes canonElement pos fits
  obtain ⟨smallest, least⟩ := exists_least_period (letters canonElement needle) pos
  have local_ := least.1.localPeriod suffix
  refine ⟨suffix, period, smallest, run, factorizes.inside, factorizes.right, least,
    (factorizes.critical _ local_).1.le, local_, ?_⟩
  intro d localPeriod
  exact least.2 (factorizes.critical d localPeriod).2

def abaab : List UInt8 := ['a', 'b', 'a', 'a', 'b'].map Char.toUInt8

/-- The needle "abaab" is cut behind its second letter. -/
theorem criticalFactorization_critical_abaab
    : ∃ suffix period smallest, criticalFactorization UInt8.toNat abaab = some (suffix, period)
      ∧ suffix < abaab.length
      ∧ IsLeast {d | Period (letters UInt8.toNat abaab) suffix abaab.length d} period
      ∧ IsLeast {d | Period (letters UInt8.toNat abaab) 0 abaab.length d} smallest
      ∧ suffix ≤ smallest
      ∧ IsLeast {d | LocalPeriod (letters UInt8.toNat abaab) abaab.length suffix d} smallest :=
  criticalFactorization_critical UInt8.toNat (List.cons_ne_nil _ _) (by decide)

example : criticalFactorization UInt8.toNat abaab = some (2, 3) := by decide

end Nglibc.Strings
