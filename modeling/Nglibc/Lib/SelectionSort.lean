import Mathlib.Tactic

/-! Selection sort by exchanges, on elements with a numerical key. -/

namespace Nglibc.SelectionSort

variable {α : Type} (key : α → Nat)

/-- The position of a minimum: the elements from position `j` on are compared with the least key so
far, which stands at position `best`.
-/
def minIndex : List α → Nat → Nat → Nat → Nat
  | [], _, best, _ => best
  | x :: xs, j, best, least =>
    if key x < least then minIndex xs (j + 1) j (key x) else minIndex xs (j + 1) best least

/-- The first element changes places with the one at position `k`. -/
def exchange (x : α) (rest : List α) : Nat → List α
  | 0 => x :: rest
  | k + 1 =>
    match rest[k]? with
    | none => x :: rest
    | some y => y :: rest.set k x

/-- The outer loop, for `n` positions. -/
def sortLoop : Nat → List α → List α
  | 0, xs => xs
  | _ + 1, [] => []
  | n + 1, x :: rest =>
    match exchange x rest (minIndex key rest 1 0 (key x)) with
    | [] => []
    | y :: others => y :: sortLoop n others

def sort (xs : List α) : List α := sortLoop key (xs.length - 1) xs

variable {key}

/-- Putting an element in the place of another keeps all others. -/
theorem set_perm {rest : List α} {k : Nat} {x y : α} (found : rest[k]? = some y)
    : (y :: rest.set k x).Perm (x :: rest) := by
  induction rest generalizing k with
  | nil => simp at found
  | cons z rest ih =>
    cases k with
    | zero =>
      obtain rfl : z = y := by simpa using found
      exact .swap x z rest
    | succ k =>
      have inner := ih (k := k) (by simpa using found)
      calc y :: z :: rest.set k x
        _ |>.Perm (z :: y :: rest.set k x) := .swap z y _
        _ |>.Perm (z :: x :: rest) := inner.cons z
        _ |>.Perm (x :: z :: rest) := .swap x z rest

theorem exchange_perm (x : α) (rest : List α) (k : Nat)
    : (exchange x rest k).Perm (x :: rest) := by
  cases k with
  | zero => exact .refl _
  | succ k =>
    rw [exchange]
    cases found : rest[k]? with
    | none => exact .refl _
    | some y => exact set_perm found

/-- The position found is that of an element whose key is least, by induction over the rest. -/
theorem minIndex_least (all : List α) (rest : List α) (j best least : Nat)
    (suffix : all.drop j = rest) (at_best : (all[best]?).map key = some least)
    (below : ∀ i < j, ∀ x ∈ all[i]?, least ≤ key x)
    : ∃ y, all[minIndex key rest j best least]? = some y ∧ ∀ x ∈ all, key y ≤ key x := by
  induction rest generalizing j best least with
  | nil =>
    obtain ⟨y, found, rfl⟩ := Option.map_eq_some_iff.mp at_best
    refine ⟨y, found, ?_⟩
    intro x mem
    obtain ⟨i, bound, rfl⟩ := List.mem_iff_getElem.mp mem
    have short : all.length ≤ j := List.drop_eq_nil_iff.mp suffix
    exact below i (by omega) _ (List.getElem?_eq_getElem bound)
  | cons x xs ih =>
    have here : all[j]? = some x := by
      have := congrArg (·[0]?) suffix
      simpa [List.getElem?_drop] using this
    have next : all.drop (j + 1) = xs := by
      have := congrArg List.tail suffix
      simpa [List.tail_drop] using this
    rw [minIndex]
    split
    next less =>
      refine ih (j + 1) j (key x) next (by simp [here]) ?_
      intro i bound z atI
      rcases Nat.lt_succ_iff_lt_or_eq.mp bound with before | rfl
      · exact less.le.trans (below i before z atI)
      · obtain rfl : x = z := Option.some.inj (here.symm.trans atI)
        exact le_rfl
    next notLess =>
      refine ih (j + 1) best least next at_best ?_
      intro i bound z atI
      rcases Nat.lt_succ_iff_lt_or_eq.mp bound with before | rfl
      · exact below i before z atI
      · obtain rfl : x = z := Option.some.inj (here.symm.trans atI)
        exact Nat.le_of_not_lt notLess

/-- One round of the outer loop brings a least element to the front. -/
theorem exchange_least (x : α) (rest : List α)
    : ∃ y others, exchange x rest (minIndex key rest 1 0 (key x)) = y :: others
      ∧ ∀ z ∈ others, key y ≤ key z := by
  obtain ⟨y, found, least⟩ := @minIndex_least _ key (x :: rest) rest 1 0 (key x) rfl rfl (by
    intro i bound z atI
    obtain rfl : i = 0 := by omega
    obtain rfl : x = z := by simpa using atI
    exact le_rfl)
  have inside : ∀ z ∈ exchange x rest (minIndex key rest 1 0 (key x)), key y ≤ key z :=
    fun z mem => least z ((exchange_perm x rest _).subset mem)
  cases position : minIndex key rest 1 0 (key x) with
  | zero =>
    rw [position] at found inside
    obtain rfl : x = y := by simpa using found
    exact ⟨x, rest, rfl, fun z mem => inside z (List.mem_cons_of_mem x mem)⟩
  | succ k =>
    rw [position] at found inside
    have found : rest[k]? = some y := by simpa using found
    have shape : exchange x rest (k + 1) = y :: rest.set k x := by rw [exchange, found]
    rw [shape] at inside
    exact ⟨y, rest.set k x, shape, fun z mem => inside z (List.mem_cons_of_mem y mem)⟩

theorem sortLoop_spec (n : Nat) (xs : List α)
    : (sortLoop key n xs).Perm xs
      ∧ (xs.length ≤ n + 1 → (sortLoop key n xs).Pairwise fun a b => key a ≤ key b) := by
  induction n generalizing xs with
  | zero =>
    refine ⟨.refl _, fun short => ?_⟩
    match xs, short with
    | [], _ => exact .nil
    | [x], _ => exact List.pairwise_singleton _ _
  | succ n ih =>
    cases xs with
    | nil => exact ⟨.refl _, fun _ => .nil⟩
    | cons x rest =>
      obtain ⟨y, others, shape, least⟩ := @exchange_least _ key x rest
      have perm : (y :: others).Perm (x :: rest) := shape ▸ exchange_perm x rest _
      obtain ⟨inner, sorted⟩ := ih others
      rw [sortLoop, shape]
      refine ⟨(inner.cons y).trans perm, fun short => ?_⟩
      have length : others.length = rest.length := by simpa using perm.length_eq
      refine List.pairwise_cons.mpr ⟨?_, sorted ?_⟩
      · exact fun z mem => least z (inner.subset mem)
      · rw [length]
        simpa using short

theorem sort_perm (xs : List α) : (sort key xs).Perm xs := (sortLoop_spec _ xs).1

theorem sort_sorted (xs : List α) : (sort key xs).Pairwise fun a b => key a ≤ key b :=
  (sortLoop_spec _ xs).2 (by omega)

end Nglibc.SelectionSort
