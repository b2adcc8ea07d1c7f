import Mathlib.Tactic.Ring

/-! Unrolled loops that are entered at one of the labels in their body. The labels count down: behind
label `k` there are `k` rounds to the end of the body.
-/

namespace Nglibc

variable {σ ρ τ : Type}

/-- The body from label `k` on; a round may leave the loop with a result, and `turn` ends the body. -/
def fromLabel (label : Nat → σ → ρ ⊕ σ) (turn : σ → σ) : Nat → σ → ρ ⊕ σ
  | 0, s => .inr (turn s)
  | k + 1, s =>
    match label (k + 1) s with
    | .inl r => .inl r
    | .inr s => fromLabel label turn k s

/-- A loop of `width` labels that is entered at label `k` and repeated while `more` holds. -/
def unrolled (label : Nat → σ → ρ ⊕ σ) (turn : σ → σ) (more : σ → Bool) (width : Nat)
    : Nat → Nat → σ → Option (ρ ⊕ σ)
  | 0, _, _ => none
  | fuel + 1, k, s =>
    match fromLabel label turn k s with
    | .inl r => some (.inl r)
    | .inr s => if more s then unrolled label turn more width fuel width s else some (.inr s)

def unrolledThrough (label : Nat → σ → σ) (turn : σ → σ) (more : σ → Bool) (width fuel k : Nat) (s : σ)
    : Option σ :=
  match unrolled (fun k s => (.inr (label k s) : Empty ⊕ σ)) turn more width fuel k s with
  | some (.inr s) => some s
  | _ => none

/-- What holds at the labels of a loop of `total` rounds: `At w k` after `w` rounds, at label `k`. A round
leads to the next label, or it leaves with a right result; the end of the body leads to its start, and the
loop goes on as long as rounds are left.
-/
structure UnrolledInvariant (label : Nat → σ → ρ ⊕ σ) (turn : σ → σ) (more : σ → Bool) (width total : Nat)
    (At : Nat → Nat → σ → Prop) (post : ρ → Prop)
    : Prop where
  step : ∀ w k s, At w (k + 1) s → w < total
    → (∃ r, label (k + 1) s = .inl r ∧ post r) ∨ ∃ s', label (k + 1) s = .inr s' ∧ At (w + 1) k s'
  turned : ∀ w s, At w 0 s → At w width (turn s)
  goes : ∀ w s, At w 0 s → (more (turn s) = true ↔ w < total)

variable {label : Nat → σ → ρ ⊕ σ} {turn : σ → σ} {more : σ → Bool} {width total w k b fuel : Nat}
  {At : Nat → Nat → σ → Prop} {post : ρ → Prop} {s : σ}

theorem UnrolledInvariant.fromLabel (invariant : UnrolledInvariant label turn more width total At post)
    (at_ : At w k s) (left : w + k ≤ total)
    : (∃ r, Nglibc.fromLabel label turn k s = .inl r ∧ post r)
      ∨ ∃ s', Nglibc.fromLabel label turn k s = .inr (turn s') ∧ At (w + k) 0 s' := by
  induction k generalizing w s with
  | zero => exact .inr ⟨s, rfl, at_⟩
  | succ k ih =>
    rw [Nglibc.fromLabel]
    rcases invariant.step w k s at_ (by omega) with ⟨r, leaves, right⟩ | ⟨s', goes, at'⟩
    · rw [leaves]
      exact .inl ⟨r, rfl, right⟩
    · rw [goes]
      have rest := ih at' (by omega)
      rwa [Nat.add_right_comm] at rest

/-- The loop, by induction on the number of whole bodies that are left. -/
theorem UnrolledInvariant.run (invariant : UnrolledInvariant label turn more width total At post)
    (at_ : At w k s) (rounds : total = w + k + width * b) (enough : b < fuel)
    : (∃ r, unrolled label turn more width fuel k s = some (.inl r) ∧ post r)
      ∨ ∃ s', unrolled label turn more width fuel k s = some (.inr s') ∧ At total width s' := by
  induction b generalizing w k s fuel with
  | zero =>
    obtain ⟨fuel, rfl⟩ := Nat.exists_eq_add_of_lt enough
    rw [unrolled]
    rcases invariant.fromLabel at_ (by omega) with ⟨r, leaves, right⟩ | ⟨s', ends, at'⟩
    · rw [leaves]
      exact .inl ⟨r, rfl, right⟩
    · have last : ¬ more (turn s') = true := by
        rw [invariant.goes _ _ at']
        omega
      rw [ends, rounds]
      dsimp only
      rw [if_neg last]
      exact .inr ⟨_, rfl, invariant.turned _ _ at'⟩
  | succ b ih =>
    obtain ⟨fuel, rfl⟩ : ∃ n, fuel = n + 1 := ⟨fuel - 1, by omega⟩
    rw [Nat.mul_succ] at rounds
    rw [unrolled]
    rcases invariant.fromLabel at_ (by omega) with ⟨r, leaves, right⟩ | ⟨s', ends, at'⟩
    · rw [leaves]
      exact .inl ⟨r, rfl, right⟩
    · rw [ends]
      dsimp only
      by_cases again : w + k < total
      · rw [if_pos ((invariant.goes _ _ at').mpr again)]
        exact ih (invariant.turned _ _ at') (by omega) (by omega)
      · have none_ : width = 0 ∧ w + k = total := by
          constructor
          · omega
          · omega
        have last : ¬ more (turn s') = true := by
          rw [invariant.goes _ _ at']
          exact again
        rw [if_neg last]
        rw [none_.2] at at'
        exact .inr ⟨_, rfl, invariant.turned _ _ at'⟩

theorem UnrolledInvariant.through {label : Nat → σ → σ}
    (invariant : UnrolledInvariant (fun k s => (.inr (label k s) : Empty ⊕ σ)) turn more width total At
      (fun _ => True))
    (at_ : At w k s) (rounds : total = w + k + width * b) (enough : b < fuel)
    : ∃ s', unrolledThrough label turn more width fuel k s = some s' ∧ At total width s' := by
  rw [unrolledThrough]
  rcases invariant.run at_ rounds enough with ⟨r, -⟩ | ⟨s', ends, at'⟩
  · exact nomatch r
  · rw [ends]
    exact ⟨s', rfl, at'⟩

/-- A loop of `len` rounds is entered so that behind its label there are whole bodies. One round is begun in
front of the label; where it is the only one, or there is none, the loop is left out.
-/
def enterUnrolled (width len : Nat) (small : Prop) [Decidable small] (done : τ) (do0 : σ → τ)
    (goto : Nat → σ → τ) (entry : Nat → σ) : τ :=
  match len % width with
  | 0 => if small ∧ len = 0 then done else goto (width - 1) (entry (width - 1))
  | 1 => if small ∧ len - 1 = 0 then do0 (entry width) else goto width (entry width)
  | r + 2 => goto (r + 1) (entry (r + 1))

/-- The rounds that are left decide the label, so each entry has whole bodies behind it. -/
theorem enterUnrolled_satisfies {len : Nat} {small : Prop} [Decidable small] {done : τ}
    {do0 : σ → τ} {goto : Nat → σ → τ} {entry : Nat → σ} {P : τ → Prop} (wide : 1 < width) (holds : small)
    (none_ : len = 0 → P done) (last : len = 1 → P (do0 (entry width)))
    (goes : ∀ k b, 0 < k → k ≤ width → len = 1 + k + width * b → P (goto k (entry k)))
    : P (enterUnrolled width len small done do0 goto entry) := by
  have rest := Nat.mod_add_div len width
  have bound : len % width < width := Nat.mod_lt _ (by omega)
  rw [enterUnrolled]
  generalize len / width = b at rest
  match residue : len % width, rest with
  | 0, rest =>
    by_cases stops : len = 0
    · rw [if_pos ⟨holds, stops⟩]
      exact none_ stops
    · rw [if_neg fun both => stops both.2]
      obtain ⟨b, rfl⟩ := Nat.exists_eq_succ_of_ne_zero (n := b) (by rintro rfl; omega)
      rw [Nat.mul_succ] at rest
      exact goes (width - 1) b (by omega) (by omega) (by omega)
  | 1, rest =>
    show P (if small ∧ len - 1 = 0 then _ else _)
    by_cases stops : len - 1 = 0
    · rw [if_pos ⟨holds, stops⟩]
      exact last (by omega)
    · rw [if_neg fun both => stops both.2]
      obtain ⟨b, rfl⟩ := Nat.exists_eq_succ_of_ne_zero (n := b) (by rintro rfl; omega)
      rw [Nat.mul_succ] at rest
      exact goes width b (by omega) le_rfl (by omega)
  | r + 2, rest => exact goes (r + 1) b (by omega) (by omega) (by omega)

end Nglibc
