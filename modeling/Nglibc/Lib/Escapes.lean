import Mathlib.Tactic

/-! Texts with an escape character: it takes the meaning from the character behind it, unless it is
escaped itself. Whether a place is escaped shows in the run of escape characters before it.
-/

namespace Nglibc

variable {α : Type} [DecidableEq α] {e c : α} {text more : List α} {escaped : Bool}

/-- Whether the character behind a text is escaped, if `escaped` says it of the first one. -/
def escapedAfter (e : α) : List α → Bool → Bool
  | [], escaped => escaped
  | c :: rest, escaped => escapedAfter e rest (!escaped && c = e)

def escapeRun (e : α) (text : List α) : Nat := (text.reverse.takeWhile (· = e)).length

@[simp] theorem escapedAfter_nil : escapedAfter e [] escaped = escaped := rfl

theorem escapedAfter_append
    : escapedAfter e (text ++ more) escaped = escapedAfter e more (escapedAfter e text escaped) := by
  induction text generalizing escaped with
  | nil => rfl
  | cons c text ih => exact ih

theorem escapedAfter_concat
    : escapedAfter e (text ++ [c]) escaped = (!escapedAfter e text escaped && c = e) := by
  rw [escapedAfter_append]
  rfl

@[simp] theorem escapeRun_nil : escapeRun e ([] : List α) = 0 := rfl

theorem escapeRun_concat_self : escapeRun e (text ++ [e]) = escapeRun e text + 1 := by
  simp [escapeRun]

theorem escapeRun_concat_other (other : c ≠ e) : escapeRun e (text ++ [c]) = 0 := by
  simp [escapeRun, other]

theorem escapedAfter_iff_odd : escapedAfter e text false = true ↔ Odd (escapeRun e text) := by
  induction text using List.reverseRecOn with
  | nil => simp
  | append_singleton text c ih =>
    rw [escapedAfter_concat]
    by_cases same : c = e
    · subst same
      rw [escapeRun_concat_self, Nat.odd_add_one, ← ih]
      simp
    · rw [escapeRun_concat_other same]
      simp [same]

theorem exists_concat_of_escapeRun (run : 0 < escapeRun e text) : ∃ before, text = before ++ [e] := by
  cases text using List.reverseRecOn with
  | nil => exact absurd run (lt_irrefl 0)
  | append_singleton text c =>
    by_cases same : c = e
    · exact ⟨text, by rw [same]⟩
    · rw [escapeRun_concat_other same] at run
      exact absurd run (lt_irrefl 0)

end Nglibc
