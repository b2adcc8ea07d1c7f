import Nglibc.Sort.Quicksort

/-! `bsearch` in an array that a sort has left. -/

namespace Nglibc.Sort

variable {s base n : Nat} {m m' : Memory UInt8}

/-- The loop of `bsearch`. The sum of two indices of an object does not overflow. -/
def bsearchLoop (cmp : Element s → Element s → Int) (key : Element s) (m : Memory UInt8)
    (base l u : Nat)
    : Option Nat :=
  if l < u then
    let idx := (l + u) / 2
    let p := base + idx * s
    let comparison := cmp key (elementAt m s p)
    if comparison < 0 then bsearchLoop cmp key m base l idx
    else if comparison > 0 then bsearchLoop cmp key m base (idx + 1) u
    else some p
  else none
termination_by u - l

def bsearch (cmp : Element s → Element s → Int) (key : Element s) (m : Memory UInt8) (base nmemb : Nat)
    : Option Nat :=
  bsearchLoop cmp key m base 0 nmemb

variable {cmp : Element s → Element s → Int} (order : TotalPreorder cmp)
include order

/-- By induction on the turns: every element equal to the key is in the half that is left. -/
theorem bsearchLoop_cases
    (sorted : ∀ i j, i ≤ j → j < n → cmp (elementAt m s (base + i * s)) (elementAt m s (base + j * s)) ≤ 0)
    (key : Element s) (l u : Nat) (inside : u ≤ n)
    : (∃ i < n, bsearchLoop cmp key m base l u = some (base + i * s)
        ∧ cmp key (elementAt m s (base + i * s)) = 0)
      ∨ bsearchLoop cmp key m base l u = none
        ∧ ∀ i, l ≤ i → i < u → cmp key (elementAt m s (base + i * s)) ≠ 0 := by
  induction l, u using bsearchLoop.induct cmp key m base with
  | case1 l u less idx p comparison below ih =>
    rw [bsearchLoop, if_pos less, if_pos below]
    refine (ih (by omega)).imp_right fun ⟨none', rest⟩ => ⟨none', fun i low high same => ?_⟩
    refine rest i low (by_contra fun front => ?_) same
    have behind := (order.swap _ _).mp below
    have equal : cmp (elementAt m s (base + i * s)) key ≤ 0 :=
      not_lt.mp fun after => same.not_lt ((order.swap _ _).mpr after)
    exact behind.not_ge (order.trans _ _ _ (sorted idx i (by omega) (by omega)) equal)
  | case2 l u less idx p comparison notBelow above ih =>
    rw [bsearchLoop, if_pos less, if_neg notBelow, if_pos above]
    refine (ih inside).imp_right fun ⟨none', rest⟩ => ⟨none', fun i low high same => ?_⟩
    refine rest i (by_contra fun front => ?_) high same
    exact above.not_ge (order.trans _ _ _ same.le (sorted i idx (by omega) (by omega)))
  | case3 l u less idx p comparison notBelow notAbove =>
    rw [bsearchLoop, if_pos less, if_neg notBelow, if_neg notAbove]
    exact .inl ⟨idx, by omega, rfl, le_antisymm (not_lt.mp notAbove) (not_lt.mp notBelow)⟩
  | case4 l u empty =>
    rw [bsearchLoop, if_neg empty]
    exact .inr ⟨rfl, fun i low high => absurd (low.trans_lt high) empty⟩

/-- In a sorted array `bsearch` finds what equals the key, if the array had such an element before. -/
theorem bsearch_sorted (sorted : (elements m' s base n).Pairwise fun a b => precedes cmp a b)
    (perm : (elements m' s base n).Perm (elements m s base n)) (key : Element s)
    : (∃ i < n, bsearch cmp key m' base n = some (base + i * s)
        ∧ cmp key (elementAt m' s (base + i * s)) = 0)
      ∨ bsearch cmp key m' base n = none ∧ ∀ e ∈ elements m s base n, cmp key e ≠ 0 := by
  refine (bsearchLoop_cases order (fun i j le inside => ?_) key 0 n le_rfl).imp_right
    fun ⟨none', misses⟩ => ⟨none', fun e member => ?_⟩
  · rcases le.eq_or_lt with rfl | less
    · exact not_lt.mp fun above => above.not_gt ((order.swap _ _).mpr above)
    · have pair := List.pairwise_iff_getElem.mp sorted i j (by simp; omega) (by simpa) less
      rw [getElem_elements, getElem_elements] at pair
      exact of_decide_eq_true pair
  · obtain ⟨i, inside, rfl⟩ := List.mem_iff_getElem.mp (perm.mem_iff.mpr member)
    rw [getElem_elements]
    exact misses i (Nat.zero_le i) (by simpa using inside)

omit order in
theorem bsearch_sorted_two : bsearch byFirstByte ⟨[7], rfl⟩ (fun x => x.toUInt8) 6 2 ≠ none := by
  rcases @bsearch_sorted 1 6 2 (fun x => if x = 6 then 7 else 6) (fun x => x.toUInt8) _
    byFirstByte_order (by decide) (.swap ..) ⟨[7], rfl⟩ with ⟨i, -, found, -⟩ | ⟨-, misses⟩
  · rw [found]
    exact Option.some_ne_none _
  · exact absurd rfl (misses _ (.head _))

end Nglibc.Sort
