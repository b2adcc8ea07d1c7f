import Mathlib.Tactic

/-! Permuting values in place along the cycles of an injective map: every place holds a value
and the place its final value comes from, and a place that is settled names itself.
-/

namespace Nglibc

open Function

variable {ι α : Type}

structure Places (ι α : Type) where
  target : ι → ι
  value : ι → α

namespace Places

variable {f : ι → ι} {orig : ι → α} {P P' : Places ι α} {i : ι}

/-- The places in `settled` have their final value, the others their first one. -/
structure Settled (f : ι → ι) (orig : ι → α) (settled : Set ι) (P : Places ι α) : Prop where
  inside : ∀ x ∈ settled, P.target x = x ∧ P.value x = orig (f x)
  outside : ∀ x ∉ settled, P.target x = f x ∧ P.value x = orig x

/-- The first `t` places of the cycle of `i`. -/
def walked (f : ι → ι) (i : ι) (t : Nat) : Set ι :=
  { x | ∃ u < t, f^[u] i = x }

theorem walked_succ (f : ι → ι) (i : ι) (t : Nat)
    : walked f i (t + 1) = insert (f^[t] i) (walked f i t) := by
  ext x
  constructor
  · rintro ⟨u, lt, rfl⟩
    rcases Nat.lt_succ_iff_lt_or_eq.mp lt with before | rfl
    · exact .inr ⟨u, before, rfl⟩
    · exact .inl rfl
  · rintro (rfl | ⟨u, lt, rfl⟩)
    · exact ⟨t, Nat.lt_succ_self t, rfl⟩
    · exact ⟨u, by omega, rfl⟩

/-- A set that the map neither enters nor leaves. -/
def Closed (f : ι → ι) (settled : Set ι) : Prop := ∀ x, f x ∈ settled ↔ x ∈ settled

variable {settled : Set ι}

theorem Closed.iterate (closed : Closed f settled) (fresh : i ∉ settled) (t : Nat)
    : f^[t] i ∉ settled := by
  induction t with
  | zero => exact fresh
  | succ t ih =>
    rw [iterate_succ_apply', closed]
    exact ih

theorem Settled.fixed (injective : Injective f) (closed : Closed f settled)
    (state : Settled f orig settled P) (fixed : f i = i)
    : Settled f orig (insert i settled) P ∧ Closed f (insert i settled) := by
  refine ⟨⟨?_, ?_⟩, ?_⟩
  · intro x member
    by_cases old : x ∈ settled
    · exact state.inside x old
    · obtain rfl : x = i := member.resolve_right old
      obtain ⟨target, value⟩ := state.outside x old
      exact ⟨target.trans fixed, value.trans (congrArg orig fixed).symm⟩
  · intro x missing
    exact state.outside x (fun old => missing (.inr old))
  · intro x
    simp only [Set.mem_insert_iff, closed x]
    refine or_congr ⟨?_, ?_⟩ Iff.rfl
    · intro same
      exact injective (same.trans fixed.symm)
    · rintro rfl
      exact fixed

theorem minimalPeriod_le_card [Fintype ι] (f : ι → ι) (i : ι) : minimalPeriod f i ≤ Fintype.card ι := by
  have injective : Set.InjOn (fun t => f^[t] i) (Finset.range (minimalPeriod f i)) := by
    intro t lt u lt' same
    rw [Finset.coe_range] at lt lt'
    exact (iterate_eq_iterate_iff_of_lt_minimalPeriod lt lt').mp same
  have bound := Finset.card_le_card_of_injOn (s := Finset.range (minimalPeriod f i))
    (t := Finset.univ) _ (fun _ _ => Finset.mem_univ _) injective
  simpa using bound

variable [DecidableEq ι]

/-- `j` names itself and gets `v`. -/
def settle (P : Places ι α) (j : ι) (v : α) : Places ι α :=
  { target := update P.target j j, value := update P.value j v }

/-- From `j` on, every place of a cycle gets the value of the next one, until the cycle is
back at `i`, whose own value was `saved`.
-/
def followCycle (i : ι) (saved : α) : Nat → Places ι α → ι → ι → Option (Places ι α)
  | 0, _, _, _ => none
  | fuel + 1, P, j, k =>
    let P := P.settle j (P.value k)
    if P.target k ≠ i then followCycle i saved fuel P k (P.target k)
    else some (P.settle k saved)

theorem Settled.settle (state : Settled f orig settled P) (j : ι)
    : Settled f orig (insert j settled) (P.settle j (orig (f j))) := by
  constructor
  · intro x member
    by_cases same : x = j
    · subst same
      simp [Places.settle]
    · have old : x ∈ settled := member.resolve_left same
      simpa [Places.settle, same] using state.inside x old
  · intro x missing
    have apart : x ≠ j := fun same => missing (.inl same)
    have fresh : x ∉ settled := fun old => missing (.inr old)
    simpa [Places.settle, apart] using state.outside x fresh

/-- Following the cycle from its place `t` on settles all of it. -/
theorem followCycle_from (closed : Closed f settled) (fresh : i ∉ settled) (fuel t : Nat)
    (short : t + 1 < minimalPeriod f i) (enough : minimalPeriod f i ≤ fuel + t + 1)
    (state : Settled f orig (settled ∪ walked f i t) P)
    : ∃ P', followCycle i (orig i) fuel P (f^[t] i) (f^[t + 1] i) = some P'
        ∧ Settled f orig (settled ∪ walked f i (minimalPeriod f i)) P' := by
  induction fuel generalizing P t with
  | zero => omega
  | succ fuel ih =>
    -- the next place of the cycle has not been visited
    have unseen : f^[t + 1] i ∉ settled ∪ walked f i t := by
      rintro (old | ⟨u, lt, same⟩)
      · exact closed.iterate fresh (t + 1) old
      · have := (iterate_eq_iterate_iff_of_lt_minimalPeriod (by omega) short).mp same
        omega
    have apart : f^[t + 1] i ≠ f^[t] i := by
      intro same
      have := (iterate_eq_iterate_iff_of_lt_minimalPeriod short (by omega)).mp same
      omega
    have advanced
        : Settled f orig (settled ∪ walked f i (t + 1))
            (P.settle (f^[t] i) (P.value (f^[t + 1] i))) := by
      have step := state.settle (f^[t] i)
      rw [← iterate_succ_apply' f t i] at step
      rw [walked_succ, Set.union_insert, (state.outside _ unseen).2]
      exact step
    have next
        : (P.settle (f^[t] i) (P.value (f^[t + 1] i))).target (f^[t + 1] i) = f^[t + 2] i := by
      rw [Places.settle]
      simp only
      rw [update_of_ne apart, (state.outside _ unseen).1, ← iterate_succ_apply' f _ i]
    rw [followCycle]
    simp only [next]
    split
    case isTrue more =>
      have longer : t + 1 + 1 < minimalPeriod f i := by
        refine Nat.lt_of_le_of_ne short ?_
        intro whole
        apply more
        rw [show t + 2 = minimalPeriod f i from whole, iterate_minimalPeriod]
      exact ih (t + 1) longer (by omega) advanced
    case isFalse done =>
      have whole : minimalPeriod f i = t + 2 := by
        have back : IsPeriodicPt f (t + 2) i := not_not.mp done
        exact Nat.le_antisymm (back.minimalPeriod_le (by omega)) short
      refine ⟨_, rfl, ?_⟩
      have last := advanced.settle (f^[t + 1] i)
      rw [← iterate_succ_apply' f (t + 1) i, show f^[(t + 1).succ] i = i from not_not.mp done]
        at last
      rw [whole, walked_succ, Set.union_insert]
      exact last

/-- The cycle of an unsettled place that is not a fixed point gets settled as a whole. -/
theorem followCycle_settled [Fintype ι] (injective : Injective f) (closed : Closed f settled)
    (fresh : i ∉ settled) (moves : f i ≠ i) {fuel : Nat} (enough : Fintype.card ι ≤ fuel)
    (state : Settled f orig settled P)
    : ∃ P' settled', followCycle i (orig i) fuel P i (f i) = some P'
        ∧ Settled f orig settled' P' ∧ Closed f settled' ∧ settled ⊆ settled'
        ∧ i ∈ settled' := by
  have periodic : i ∈ periodicPts f := injective.mem_periodicPts i
  have positive := minimalPeriod_pos_of_mem_periodicPts periodic
  have two : 0 + 1 < minimalPeriod f i := by
    refine Nat.lt_of_le_of_ne positive ?_
    intro one
    exact moves (minimalPeriod_eq_one_iff_isFixedPt.mp one.symm)
  have start : settled ∪ walked f i 0 = settled := by
    simp [walked]
  have bound := minimalPeriod_le_card f i
  obtain ⟨P', run, state'⟩ :=
    followCycle_from closed fresh fuel 0 two (by omega) (start.symm ▸ state)
  refine ⟨P', _, run, state', ?_, Set.subset_union_left, .inr ⟨0, positive, rfl⟩⟩
  -- a place is on the cycle exactly when the next one is
  intro x
  simp only [Set.mem_union, closed x, walked, Set.mem_ofPred_eq]
  refine or_congr Iff.rfl ⟨?_, ?_⟩
  · rintro ⟨u, lt, same⟩
    cases u with
    | zero =>
      refine ⟨minimalPeriod f i - 1, by omega, injective ?_⟩
      rw [← iterate_succ_apply' f _ i, Nat.succ_eq_add_one, Nat.sub_add_cancel positive,
        iterate_minimalPeriod]
      exact same
    | succ u =>
      refine ⟨u, by omega, injective ?_⟩
      rwa [iterate_succ_apply'] at same
  · rintro ⟨u, lt, rfl⟩
    by_cases last : u + 1 = minimalPeriod f i
    · refine ⟨0, positive, ?_⟩
      rw [← iterate_succ_apply' f _ i, Nat.succ_eq_add_one, last, iterate_minimalPeriod]
      rfl
    · exact ⟨u + 1, by omega, iterate_succ_apply' f u i⟩

end Places

end Nglibc
