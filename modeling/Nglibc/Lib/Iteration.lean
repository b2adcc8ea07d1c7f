import Mathlib.Logic.Relation

/-! Loops whose body may fault, leave with a result or go on with a new state. -/

namespace Nglibc

variable {σ ρ : Type} {step : σ → Option (ρ ⊕ σ)} {inv : σ → Prop} {post : ρ → Prop}
  {measure : σ → Nat}

/-- At most `fuel` turns of a loop. -/
def iterate (step : σ → Option (ρ ⊕ σ)) : Nat → σ → Option ρ
  | 0, _ => none
  | fuel + 1, s =>
    match step s with
    | none => none
    | some (.inl r) => some r
    | some (.inr s') => iterate step fuel s'

/-- The states at the start of the turns of a loop from `s`. -/
def Reaches (step : σ → Option (ρ ⊕ σ)) (s s' : σ) : Prop :=
  Relation.ReflTransGen (fun a b => step a = some (.inr b)) s s'

/-- A turn from `s` leaves with a right result, or it goes on with the invariant and closer to the end. -/
def Advances (inv : σ → Prop) (post : ρ → Prop) (measure : σ → Nat) (s : σ) (turn : Option (ρ ⊕ σ)) : Prop :=
  (∃ r, turn = some (.inl r) ∧ post r)
  ∨ ∃ s', turn = some (.inr s') ∧ inv s' ∧ measure s' < measure s

/-- Every turn from a state with the invariant advances. -/
def Progresses (step : σ → Option (ρ ⊕ σ)) (inv : σ → Prop) (post : ρ → Prop) (measure : σ → Nat) : Prop :=
  ∀ s, inv s → Advances inv post measure s (step s)

theorem Progresses.iterate (turn : Progresses step inv post measure) (fuel : Nat) {s : σ} (holds : inv s)
    (enough : measure s < fuel)
    : ∃ r, iterate step fuel s = some r ∧ post r := by
  induction fuel generalizing s with
  | zero => exact absurd enough (Nat.not_lt_zero _)
  | succ fuel ih =>
    unfold Nglibc.iterate
    rcases turn s holds with ⟨r, leaves, right⟩ | ⟨s', goes, holds', closer⟩
    · rw [leaves]
      exact ⟨r, rfl, right⟩
    · rw [goes]
      exact ih holds' (Nat.lt_of_lt_of_le closer (Nat.le_of_lt_succ enough))

theorem Progresses.reaches (turn : Progresses step inv post measure) {s s' : σ} (holds : inv s)
    (reaches : Reaches step s s')
    : inv s' := by
  induction reaches with
  | refl => exact holds
  | tail _ goes ih =>
    rcases turn _ ih with ⟨r, leaves, _⟩ | ⟨next, goes', holds', _⟩
    · rw [leaves] at goes
      cases goes
    · rw [goes'] at goes
      cases goes
      exact holds'

end Nglibc
