import Mathlib.Data.List.Basic

/-! A file as a list of cells with the offset of the next one. Cells written behind the end leave a gap of
default cells.
-/

namespace Nglibc

open List

/-- A file and the offset at which it is read and written. -/
structure OpenFile (α : Type) where
  content : List α
  pos : Nat

namespace OpenFile

variable {α : Type} {f : OpenFile α} {cells more : List α} {n k : Nat}

/-- The next `n` cells, or those that are left. -/
def ahead (f : OpenFile α) (n : Nat) : List α := (f.content.drop f.pos).take n

/-- The file behind its next `n` cells. -/
def advance (f : OpenFile α) (n : Nat) : OpenFile α :=
  { f with pos := f.pos + n }

def write [Inhabited α] (f : OpenFile α) (cells : List α) : OpenFile α where
  content :=
    if cells = [] then f.content
    else
      f.content.take f.pos ++ List.replicate (f.pos - f.content.length) default ++ cells
        ++ f.content.drop (f.pos + cells.length)
  pos := f.pos + cells.length

@[simp] theorem advance_content : (f.advance n).content = f.content := rfl

@[simp] theorem advance_pos : (f.advance n).pos = f.pos + n := rfl

theorem advance_advance : (f.advance n).advance k = f.advance (n + k) := by
  rw [advance, advance_pos, Nat.add_assoc]
  rfl

theorem ahead_of_prefix (part : cells <+: f.content.drop f.pos) : f.ahead cells.length = cells :=
  (prefix_iff_eq_take.mp part).symm

theorem length_ahead_le : (f.ahead n).length ≤ n := length_take_le _ _

theorem ahead_add (part : cells <+: f.content.drop f.pos)
    : f.ahead (cells.length + n) = cells ++ (f.advance cells.length).ahead n := by
  obtain ⟨rest, split⟩ := part
  have later : f.content.drop (f.pos + cells.length) = rest := by
    rw [← drop_drop, ← split, drop_left]
  rw [ahead, ahead, advance_content, advance_pos, later, ← split, take_length_add_append]

theorem ahead_end (ended : f.content.length ≤ f.pos) : f.ahead n = [] := by
  rw [ahead, drop_eq_nil_of_le ended, take_nil]

section Writing

variable [Inhabited α]

@[simp] theorem write_pos : (f.write cells).pos = f.pos + cells.length := rfl

@[simp] theorem write_nil : f.write [] = f := rfl

def before (f : OpenFile α) : List α :=
  f.content.take f.pos ++ List.replicate (f.pos - f.content.length) default

theorem length_before : f.before.length = f.pos := by
  rw [before, length_append, length_take, length_replicate]
  omega

theorem write_content (some_ : cells ≠ [])
    : (f.write cells).content = f.before ++ cells ++ f.content.drop (f.pos + cells.length) :=
  if_neg some_

/-- Two writes, the second behind the first, are one. -/
theorem write_write : (f.write cells).write more = f.write (cells ++ more) := by
  by_cases none : cells = []
  · rw [none, write_nil, nil_append]
  · by_cases none' : more = []
    · rw [none', write_nil, append_nil]
    · have both : cells ++ more ≠ [] := append_ne_nil_of_left_ne_nil none more
      have first := @write_content _ f cells _ none
      have length : (f.before ++ cells).length = (f.write cells).pos := by
        rw [length_append, length_before, write_pos]
      have kept : (f.write cells).before = f.before ++ cells := by
        have gap : (f.write cells).pos - (f.write cells).content.length = 0 := by
          rw [first, length_append]
          omega
        rw [before, gap, replicate_zero, append_nil, first, take_left' length]
      have rest : (f.write cells).content.drop ((f.write cells).pos + more.length)
          = f.content.drop (f.pos + (cells ++ more).length) := by
        rw [first, ← drop_drop, drop_left' length, drop_drop, length_append,
          Nat.add_assoc]
      have content : ((f.write cells).write more).content = (f.write (cells ++ more)).content := by
        rw [write_content none', write_content both, kept, rest]
        simp only [append_assoc]
      have pos : ((f.write cells).write more).pos = (f.write (cells ++ more)).pos := by
        simp only [write_pos, length_append, Nat.add_assoc]
      exact congrArg₂ OpenFile.mk content pos

theorem write_end (ended : f.content.length ≤ f.pos)
    : (f.write cells).content.length ≤ (f.write cells).pos := by
  by_cases none : cells = []
  · rw [none]
    exact ended
  · rw [write_content none, drop_eq_nil_of_le (Nat.le_add_right_of_le ended), append_nil,
      List.length_append, length_before]
    exact Nat.le_refl _

end Writing

end OpenFile

end Nglibc
