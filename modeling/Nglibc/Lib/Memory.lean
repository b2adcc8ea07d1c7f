import Mathlib.Data.List.Basic

/-! A flat memory of cells, with the slices that programs read from it and the runs of cells
they store.
-/

namespace Nglibc

def Memory (α : Type) := Nat → α

namespace Memory

variable {α : Type} {m : Memory α} {a b n k : Nat} {cells more : List α}

/-- The `n` cells from address `a` on. -/
def slice (m : Memory α) (a : Nat) : Nat → List α
  | 0 => []
  | n + 1 => m a :: slice m (a + 1) n

/-- `cells` stored from address `a` on. -/
def store (m : Memory α) (a : Nat) (cells : List α) : Memory α :=
  fun x => if a ≤ x then (cells[x - a]?).getD (m x) else m x

@[simp] theorem slice_zero : slice m a 0 = [] := rfl

theorem slice_succ : slice m a (n + 1) = m a :: slice m (a + 1) n := rfl

@[simp] theorem length_slice : (slice m a n).length = n := by
  induction n generalizing a with
  | zero => rfl
  | succ n ih => simp [slice, ih]

theorem slice_add : slice m a (n + k) = slice m a n ++ slice m (a + n) k := by
  induction n generalizing a with
  | zero => simp
  | succ n ih =>
    rw [Nat.succ_add_eq_add_succ n k, Nat.add_succ, slice_succ, ih, slice_succ,
      List.cons_append, Nat.succ_add_eq_add_succ a n]

theorem take_slice (le : k ≤ n) : (slice m a n).take k = slice m a k := by
  obtain ⟨rest, rfl⟩ := Nat.exists_eq_add_of_le le
  rw [slice_add, List.take_left' length_slice]

theorem drop_slice (le : k ≤ n) : (slice m a n).drop k = slice m (a + k) (n - k) := by
  obtain ⟨rest, rfl⟩ := Nat.exists_eq_add_of_le le
  rw [slice_add, List.drop_left' length_slice, Nat.add_sub_cancel_left]

theorem getElem_slice {i : Nat} (inside : i < (slice m a n).length)
    : (slice m a n)[i] = m (a + i) := by
  induction n generalizing a i with
  | zero => exact absurd inside (Nat.not_lt_zero i)
  | succ n ih =>
    cases i with
    | zero => rfl
    | succ i =>
      simp only [slice_succ, List.getElem_cons_succ]
      rw [ih, Nat.add_right_comm, Nat.add_assoc]

theorem slice_congr {m' : Memory α} (same : ∀ x, a ≤ x → x < a + n → m' x = m x)
    : slice m' a n = slice m a n := by
  induction n generalizing a with
  | zero => rfl
  | succ n ih =>
    rw [slice_succ, same a (Nat.le_refl _) (by omega)]
    congr 1
    apply ih
    intro x low high
    exact same x (by omega) (by omega)

theorem slice_eq_slice {m' : Memory α} (same : ∀ i < n, m' (b + i) = m (a + i))
    : slice m' b n = slice m a n := by
  apply List.ext_getElem (by simp)
  intro i inside _
  rw [getElem_slice, getElem_slice]
  exact same i (by simpa using inside)

/-- The cell under a one-cell store, and the cells around it. -/
theorem store_singleton {c : α} {x : Nat}
    : m.store a [c] x = if x = a then c else m x := by
  unfold store
  split
  case isTrue low =>
    by_cases same : x = a
    · simp [same]
    · rw [List.getElem?_eq_none (by simp; omega), Option.getD_none, if_neg same]
  case isFalse high => rw [if_neg (by omega)]

@[simp] theorem store_nil : m.store a [] = m := by
  funext x
  simp [store]

theorem store_outside {x : Nat} (outside : x < a ∨ a + cells.length ≤ x)
    : m.store a cells x = m x := by
  unfold store
  rcases outside with below | above
  · rw [if_neg (by omega)]
  · rw [if_pos (by omega), List.getElem?_eq_none (by omega), Option.getD_none]

theorem slice_store_disjoint (disjoint : b + n ≤ a ∨ a + cells.length ≤ b)
    : slice (m.store a cells) b n = slice m b n := by
  apply slice_congr
  intro x low high
  exact store_outside (by omega)

theorem store_cons {c : α} : m.store a (c :: cells) = (m.store (a + 1) cells).store a [c] := by
  funext x
  rcases Nat.lt_trichotomy x a with below | rfl | above
  · simp only [store]
    rw [if_neg (by omega), if_neg (by omega), if_neg (by omega)]
  · simp [store]
  · obtain ⟨i, rfl⟩ := Nat.exists_eq_add_of_lt above
    have shift : a + i + 1 - a = i + 1 := by omega
    have shift' : a + i + 1 - (a + 1) = i := by omega
    simp only [store]
    rw [if_pos (by omega), shift]
    simp

theorem store_store_append
    : (m.store a cells).store (a + cells.length) more = m.store a (cells ++ more) := by
  funext x
  rcases Nat.lt_or_ge x (a + cells.length) with inside | behind
  · have outside : ((m.store a cells).store (a + cells.length) more) x = m.store a cells x :=
      store_outside (.inl inside)
    rw [outside]
    unfold store
    by_cases low : a ≤ x
    · rw [if_pos low, if_pos low, List.getElem?_append_left (by omega)]
    · rw [if_neg low, if_neg low]
  · unfold store
    rw [if_pos behind, if_pos (by omega), if_pos (by omega),
      List.getElem?_append_right (by omega), List.getElem?_eq_none (l := cells) (by omega),
      Option.getD_none, Nat.sub_add_eq]

theorem slice_store_self : slice (m.store a cells) a cells.length = cells := by
  induction cells generalizing a with
  | nil => rfl
  | cons c rest ih =>
    rw [store_cons, List.length_cons, slice_succ, slice_store_disjoint (by simp), ih]
    simp [store]

theorem slice_store_append
    : slice (m.store (a + n) cells) a (n + cells.length) = slice m a n ++ cells := by
  rw [slice_add, slice_store_self, slice_store_disjoint (Or.inl (Nat.le_refl _))]

theorem slice_store_front {c : α} : slice (m.store a [c]) a (n + 1) = c :: slice m (a + 1) n := by
  rw [slice_succ, slice_store_disjoint (by simp)]
  simp [store]

end Memory

end Nglibc
