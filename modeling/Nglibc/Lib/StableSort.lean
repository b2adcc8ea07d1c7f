import Mathlib.Tactic

/-! Three-way comparisons and the stable sort of a list. -/

namespace Nglibc

open List

variable {α : Type}

/-- A three-way comparison that is a total preorder. -/
structure TotalPreorder (cmp : α → α → Int) : Prop where
  swap : ∀ a b, cmp a b < 0 ↔ 0 < cmp b a
  trans : ∀ a b c, cmp a b ≤ 0 → cmp b c ≤ 0 → cmp a c ≤ 0

def precedes (cmp : α → α → Int) (a b : α) : Bool :=
  decide (cmp a b ≤ 0)

namespace TotalPreorder

theorem of_key (key : α → Int) : TotalPreorder (fun a b => key a - key b) := by
  constructor
  · intro a b
    omega
  · intro a b c
    omega

variable {cmp : α → α → Int} (order : TotalPreorder cmp)
include order

theorem le_of_not_le {a b : α} (not : ¬ cmp a b ≤ 0) : cmp b a ≤ 0 := by
  have := (order.swap b a).mpr (by omega)
  omega

theorem precedes_trans (a b c : α) (ab : precedes cmp a b = true) (bc : precedes cmp b c = true)
    : precedes cmp a c = true := by
  simp only [precedes, decide_eq_true_eq] at *
  exact order.trans a b c ab bc

theorem precedes_total (a b : α) : (precedes cmp a b || precedes cmp b a) = true := by
  simp only [precedes, Bool.or_eq_true, decide_eq_true_eq]
  by_cases ab : cmp a b ≤ 0
  · exact .inl ab
  · exact .inr (order.le_of_not_le ab)

end TotalPreorder

/-- `output` holds the elements of `input` in the order `le`, and elements that `le` does not
tell apart in the order of their positions in `input`.
-/
def StableSorted (le : α → α → Bool) (input output : List α) : Prop := ∃ tagged : List (α × Nat),
    tagged.Perm input.zipIdx
    ∧ tagged.map Prod.fst = output
    ∧ tagged.Pairwise (fun a b => le a.1 b.1 = true ∧ (le b.1 a.1 = true → a.2 < b.2))

theorem zipIdx_pairwise (l : List α) (n : Nat)
    : (l.zipIdx n).Pairwise (fun a b => a.2 < b.2) := by
  induction l generalizing n with
  | nil => exact List.Pairwise.nil
  | cons x l ih =>
    rw [zipIdx_cons, pairwise_cons]
    refine ⟨?_, ih (n + 1)⟩
    rintro ⟨y, i⟩ member
    exact (mem_zipIdx member).1

/-- Positions tell elements apart. -/
theorem eq_of_zipIdx {l : List α} {a b : α × Nat} (left : a ∈ l.zipIdx) (right : b ∈ l.zipIdx)
    (same : a.2 = b.2)
    : a = b := by
  obtain ⟨x, i⟩ := a
  obtain ⟨y, j⟩ := b
  obtain rfl : i = j := same
  have hx := mem_zipIdx left
  have hy := mem_zipIdx right
  rw [hx.2.2, hy.2.2]

variable {le : α → α → Bool}

theorem zipIdxLE_iff {a b : α × Nat}
    : List.zipIdxLE le a b = true ↔ le a.1 b.1 = true ∧ (le b.1 a.1 = true → a.2 ≤ b.2) := by
  unfold List.zipIdxLE
  split
  case isTrue ab =>
    split
    case isTrue ba => simp [ab, ba]
    case isFalse ba => simp [ab, ba]
  case isFalse ab => simp [ab]

/-- Two lists of the same tagged elements in the tagged order are the same list. -/
theorem eq_of_perm_zipIdx {l : List α} {l₁ l₂ : List (α × Nat)} (perm₁ : l₁.Perm l.zipIdx)
    (perm₂ : l₂.Perm l.zipIdx) (sorted₁ : l₁.Pairwise (fun a b => List.zipIdxLE le a b = true))
    (sorted₂ : l₂.Pairwise (fun a b => List.zipIdxLE le a b = true))
    : l₁ = l₂ := by
  refine List.Perm.eq_of_pairwise ?_ sorted₁ sorted₂ (perm₁.trans perm₂.symm)
  intro a b mem₁ mem₂ ab ba
  rw [zipIdxLE_iff] at ab ba
  apply eq_of_zipIdx (perm₁.mem_iff.mp mem₁) (perm₂.mem_iff.mp mem₂)
  exact Nat.le_antisymm (ab.2 ba.1) (ba.2 ab.1)

theorem StableSorted.unique {input output other : List α} (sorted : StableSorted le input output)
    (sorted' : StableSorted le input other)
    : other = output := by
  obtain ⟨tagged, perm, rfl, ordered⟩ := sorted
  obtain ⟨tagged', perm', rfl, ordered'⟩ := sorted'
  have weaken : ∀ {l : List (α × Nat)},
      l.Pairwise (fun a b => le a.1 b.1 = true ∧ (le b.1 a.1 = true → a.2 < b.2))
      → l.Pairwise (fun a b => List.zipIdxLE le a b = true) := by
    intro l strict
    apply strict.imp
    intro a b h
    exact zipIdxLE_iff.mpr ⟨h.1, fun ba => (h.2 ba).le⟩
  rw [eq_of_perm_zipIdx perm' perm (weaken ordered') (weaken ordered)]

/-- The tags may start at any number. -/
theorem mergeSort_zipIdx_from (le : α → α → Bool) (l : List α) (k : Nat)
    : ((l.zipIdx k).mergeSort (List.zipIdxLE le)).map Prod.fst = l.mergeSort le := by
  have shifted : l.zipIdx k = l.zipIdx.map (Prod.map id (· + k)) := by
    rw [map_snd_add_zipIdx_eq_zipIdx, Nat.add_zero]
  rw [shifted, ← map_mergeSort (r := List.zipIdxLE le), map_map]
  · exact mergeSort_zipIdx
  · rintro ⟨x, i⟩ - ⟨y, j⟩ -
    simp [List.zipIdxLE]

section Merge

variable {le : α → α → Bool} (trans : ∀ a b c, le a b = true → le b c = true → le a c = true)
  (total : ∀ a b, (le a b || le b a) = true)
include trans total

theorem stableSorted_mergeSort (l : List α) : StableSorted le l (l.mergeSort le) := by
  have sorted := pairwise_mergeSort (zipIdxLE_trans trans) (zipIdxLE_total total)
    l.zipIdx
  have perm := mergeSort_perm l.zipIdx (List.zipIdxLE le)
  refine ⟨l.zipIdx.mergeSort (List.zipIdxLE le), perm, mergeSort_zipIdx, ?_⟩
  have distinct
      : (l.zipIdx.mergeSort (List.zipIdxLE le)).Pairwise (fun a b => a.2 ≠ b.2) := by
    refine (perm.pairwise_iff (fun h => h.symm)).mpr ((zipIdx_pairwise l 0).imp ?_)
    exact fun h => h.ne
  apply (sorted.and distinct).imp
  rintro a b ⟨ab, ne⟩
  rw [zipIdxLE_iff] at ab
  exact ⟨ab.1, fun ba => Nat.lt_of_le_of_ne (ab.2 ba) ne⟩

theorem merge_mergeSort (l₁ l₂ : List α)
    : (l₁.mergeSort le).merge (l₂.mergeSort le) le = (l₁ ++ l₂).mergeSort le := by
  have trans' := zipIdxLE_trans trans
  have total' := zipIdxLE_total total
  let left := (l₁.zipIdx 0).mergeSort (List.zipIdxLE le)
  let right := (l₂.zipIdx l₁.length).mergeSort (List.zipIdxLE le)
  have tags : ∀ x y, x ∈ left → y ∈ right → x.2 ≤ y.2 := by
    rintro ⟨x, i⟩ ⟨y, j⟩ memLeft memRight
    have inLeft := mem_zipIdx (mem_mergeSort.mp memLeft)
    have inRight := mem_zipIdx (mem_mergeSort.mp memRight)
    omega
  have perm : (left.merge right (List.zipIdxLE le)).Perm (l₁ ++ l₂).zipIdx := by
    rw [zipIdx_append, Nat.zero_add]
    exact (merge_perm_append _).trans
      ((mergeSort_perm _ _).append (mergeSort_perm _ _))
  have same
      : left.merge right (List.zipIdxLE le) = (l₁ ++ l₂).zipIdx.mergeSort (List.zipIdxLE le) := by
    apply eq_of_perm_zipIdx perm (mergeSort_perm _ _)
    · exact pairwise_merge trans' total' _ _ (pairwise_mergeSort trans' total' _)
        (pairwise_mergeSort trans' total' _)
    · exact pairwise_mergeSort trans' total' _
  rw [← mergeSort_zipIdx (l := l₁ ++ l₂), ← same, merge_stable left right tags,
    mergeSort_zipIdx, mergeSort_zipIdx_from]

end Merge

end Nglibc
