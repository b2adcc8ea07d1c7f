import Mathlib.Data.List.Nodup

/-! Circular doubly linked lists: two functions for the neighbours, and the list of the elements from
any of them on.
-/

namespace Nglibc.Rings

open List

variable {α : Type} {next prev next' prev' : α → α} {a b c p q r v : α} {xs ys : List α}

/-- The elements `xs` are linked in order between `a` and `b`. -/
def Links (next prev : α → α) : α → List α → α → Prop
  | a, [], b => next a = b ∧ prev b = a
  | a, x :: xs, b => (next a = x ∧ prev x = a) ∧ Links next prev x xs b

def Ring (next prev : α → α) : List α → Prop
  | [] => True
  | x :: xs => Links next prev x xs x

theorem links_append
    : Links next prev a (xs ++ c :: ys) b ↔ Links next prev a xs c ∧ Links next prev c ys b := by
  induction xs generalizing a with
  | nil => exact Iff.rfl
  | cons x xs ih => exact (and_congr_right fun _ => ih).trans and_assoc.symm

/-- A ring may be read from any of its elements on. -/
theorem ring_append_comm : Ring next prev (xs ++ ys) ↔ Ring next prev (ys ++ xs) := by
  cases xs with
  | nil => rw [append_nil, nil_append]
  | cons x xs =>
    cases ys with
    | nil => rw [append_nil, nil_append]
    | cons y ys =>
      rw [cons_append, cons_append, Ring, Ring, links_append, links_append, and_comm]

section

variable (links : Links next prev a xs b)
include links

/-- The last element of a chain. -/
theorem Links.prev_mem : prev b ∈ a :: xs := by
  induction xs generalizing a with
  | nil => exact mem_singleton.mpr links.2
  | cons x xs ih => exact mem_cons_of_mem _ (ih links.2)

theorem Links.next_mem : next a ∈ xs ++ [b] := by
  cases xs with
  | nil => exact mem_singleton.mpr links.1
  | cons x xs =>
    rw [links.1.1]
    exact mem_cons_self

/-- The end of a chain moves, by induction on the chain. -/
theorem Links.redirect (nodup : (a :: xs).Nodup) (forth : next' (prev b) = c) (back : prev' c = prev b)
    (nexts : ∀ x ∈ a :: xs, x ≠ prev b → next' x = next x) (prevs : ∀ x ∈ xs, prev' x = prev x)
    : Links next' prev' a xs c := by
  induction xs generalizing a with
  | nil =>
    rw [links.2] at forth back
    exact ⟨forth, back⟩
  | cons x xs ih =>
    obtain ⟨⟨toX, fromX⟩, rest⟩ := links
    rw [nodup_cons] at nodup
    have notLast : a ≠ prev b := fun last => nodup.1 (last ▸ rest.prev_mem)
    refine ⟨⟨?_, ?_⟩, ih rest nodup.2 (fun y member => nexts y (mem_cons_of_mem _ member))
      fun y member => prevs y (mem_cons_of_mem _ member)⟩
    · rw [nexts a mem_cons_self notLast, toX]
    · rw [prevs x mem_cons_self, fromX]

end

section

variable (ring : Ring next prev (r :: xs))
include ring

theorem Ring.prev_mem : prev r ∈ r :: xs := Links.prev_mem ring

theorem Ring.next_prev : next (prev r) = r := by
  have chain : ∀ {a b : α} {xs : List α}, Links next prev a xs b → next (prev b) = b := by
    intro a b xs links
    induction xs generalizing a with
    | nil =>
      rw [links.2]
      exact links.1
    | cons x xs ih => exact ih links.2
  exact chain ring

theorem Ring.prev_next : prev (next r) = r := by
  cases xs with
  | nil =>
    rw [ring.1]
    exact ring.2
  | cons x xs =>
    obtain ⟨⟨toX, fromX⟩, _⟩ := ring
    rw [toX, fromX]

/-- An element is inserted before another one. -/
theorem Ring.insert (nodup : (r :: xs).Nodup) (toRight : next' v = r) (fromRight : prev' r = v)
    (toNew : next' (prev r) = v) (fromNew : prev' v = prev r)
    (nexts : ∀ x ∈ r :: xs, x ≠ prev r → next' x = next x) (prevs : ∀ x ∈ xs, prev' x = prev x)
    : Ring next' prev' (v :: r :: xs) :=
  ⟨⟨toRight, fromRight⟩, Links.redirect ring nodup toNew fromNew nexts prevs⟩

end

/-- An element is taken out. -/
theorem Ring.erase (ring : Ring next prev (p :: xs)) (nodup : (p :: xs).Nodup)
    (forth : next' (prev p) = next p) (back : prev' (next p) = prev p)
    (nexts : ∀ x ∈ xs, x ≠ prev p → next' x = next x) (prevs : ∀ x ∈ xs, x ≠ next p → prev' x = prev x)
    : Ring next' prev' xs := by
  cases xs with
  | nil => exact trivial
  | cons r xs =>
    obtain ⟨⟨toRight, fromRight⟩, rest⟩ := ring
    rw [nodup_cons, nodup_cons] at nodup
    rw [toRight] at forth back prevs
    refine Links.redirect rest (nodup_cons.mpr nodup.2) forth back nexts fun x member => ?_
    exact prevs x (mem_cons_of_mem _ member) fun same => nodup.2.1 (same ▸ member)

/-- An element takes the place of another one. -/
theorem Ring.replace (ring : Ring next prev (p :: r :: xs)) (nodup : (p :: r :: xs).Nodup)
    (toRight : next' q = next p) (fromRight : prev' (next p) = q) (toNew : next' (prev p) = q)
    (fromNew : prev' q = prev p) (nexts : ∀ x ∈ r :: xs, x ≠ prev p → next' x = next x)
    (prevs : ∀ x ∈ r :: xs, x ≠ next p → prev' x = prev x)
    : Ring next' prev' (q :: r :: xs) := by
  obtain ⟨⟨next_p, _⟩, rest⟩ := ring
  rw [nodup_cons, nodup_cons] at nodup
  rw [next_p] at toRight fromRight prevs
  refine ⟨⟨toRight, fromRight⟩, Links.redirect rest (nodup_cons.mpr nodup.2) toNew fromNew nexts ?_⟩
  exact fun x member => prevs x (mem_cons_of_mem _ member) fun same => nodup.2.1 (same ▸ member)

end Nglibc.Rings
