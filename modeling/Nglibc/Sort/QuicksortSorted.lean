import Nglibc.Sort.QuicksortPartition

/-! `_quicksort` sorts: the insertion phase finds its sentinel among the first five elements and
inserts every other element into the sorted prefix before it.
-/

namespace Nglibc.Sort.QsortCall

open Memory List

variable {q : QsortCall} {m m' : Memory UInt8} {r t fuel : Nat}

def Least (q : QsortCall) (m : Memory UInt8) : Prop := ∀ y < q.total, q.Le (q.view m 0) (q.view m y)

variable (fuel) in
/-- The loop finds a smallest element among those up to `t`. -/
theorem smallest_view (ok : q.Addressable) (order : TotalPreorder q.cmp) {s : Nat}
    (inside : t < q.total) (run : r ≤ t + 1) (before : s < r)
    (least : ∀ y < r, q.Le (q.view m s) (q.view m y)) (enough : t + 1 - r < fuel)
    : ∃ s', s' ≤ t ∧ q.smallest m (q.ptr t) fuel (q.ptr r) (q.ptr s) = some (q.ptr s')
        ∧ ∀ y ≤ t, q.Le (q.view m s') (q.view m y) := by
  induction fuel generalizing r s with
  | zero => omega
  | succ fuel ih =>
    simp only [smallest, ok.ptr_le_iff]
    split
    case isFalse done =>
      exact ⟨s, by omega, rfl, fun y le => least y (by omega)⟩
    case isTrue more =>
      have next : ptrAdd (q.ptr r) q.size = q.ptr (r + 1) := ptrAdd_ptr (ok.ptr_lt (by omega))
      simp only [compar_view (show r < q.total by omega) (show s < q.total by omega),
        Option.bind_eq_bind, Option.bind_some, next]
      split
      case isTrue less =>
        apply ih (by omega) (Nat.lt_succ_self r) ?_ (by omega)
        intro y lt
        by_cases last : y = r
        · rw [last]
          exact le_refl' order _
        · have below : q.Le (q.view m r) (q.view m s) := by
            unfold Le
            omega
          exact le_trans' order below (least y (by omega))
      case isFalse notLess =>
        apply ih (by omega) (by omega) ?_ (by omega)
        intro y lt
        by_cases last : y = r
        · rw [last]
          exact le_of_not_lt order notLess
        · exact least y (by omega)

variable (fuel) in
/-- After the exchange with the start of the array every unguarded loop has its sentinel. -/
theorem sentinel_view (ok : q.Addressable) (order : TotalPreorder q.cmp) (some : 0 < q.total)
    (cut : q.total ≤ 5 ∨ ∃ c, 1 ≤ c ∧ c ≤ 5 ∧ q.Cut m c) (enough : 5 < fuel)
    : ∃ s m', q.smallest m (min q.lastPtr (ptrAdd q.base q.maxThresh)) fuel
            (ptrAdd q.base q.size) q.base
          = Option.some s
        ∧ q.swapIfApart m s q.base = Option.some m'
        ∧ Rearranged q 0 (q.total - 1) m m' ∧ q.Least m' := by
  have first : ptrAdd q.base q.size = q.ptr 1 := by
    rw [← ptr_zero (q := q)]
    exact ptrAdd_ptr (ok.ptr_lt_four (by decide))
  have thresh : min q.lastPtr (ptrAdd q.base q.maxThresh) = q.ptr (min (q.total - 1) 4) := by
    have four : ptrAdd q.base q.maxThresh = q.ptr 4 := by
      rw [maxThresh_eq ok]
      exact ptrAdd_of_lt ok.four
    rw [lastPtr_eq ok some, four]
    rcases Nat.le_total (q.total - 1) 4 with le | ge
    · rw [Nat.min_eq_left le, Nat.min_eq_left (ptr_mono le)]
    · rw [Nat.min_eq_right ge, Nat.min_eq_right (ptr_mono ge)]
  obtain ⟨s, le, run, least⟩ :=
    smallest_view (m := m) (r := 1) (s := 0) (t := min (q.total - 1) 4) fuel ok order
      (by omega) (by omega) Nat.one_pos
      (fun y lt => by rw [show y = 0 by omega]; exact le_refl' order _) (by omega)
  -- what lies behind the scanned elements lies behind the cut
  have leastAll : ∀ y < q.total, q.Le (q.view m s) (q.view m y) := by
    intro y lt
    by_cases near : y ≤ min (q.total - 1) 4
    · exact least y near
    · rcases cut with few | ⟨c, one, five, cut⟩
      · omega
      · exact le_trans' order (least 0 (Nat.zero_le _)) (cut 0 y (by omega) (by omega) lt)
  rw [first, thresh, ← ptr_zero (q := q)]
  by_cases stays : s = 0
  · subst stays
    refine ⟨q.ptr 0, m, run, ?_, .refl, leastAll⟩
    rw [swapIfApart, if_neg (by simp)]
  · obtain ⟨m', swapped, moved, part⟩ :=
      swap_rearranged (m := m) (l := 0) (h := q.total - 1) (i := s) (j := 0) ok (by omega)
        ⟨by omega, by omega⟩ ⟨by omega, by omega⟩
    refine ⟨q.ptr s, m', run, ?_, part, ?_⟩
    · rw [swapIfApart, if_pos (mt ok.ptr_inj.mp stays), swapped]
    · intro y lt
      obtain ⟨y', -, le', same⟩ := part.source (Nat.zero_le y) (show y ≤ q.total - 1 by omega)
      rw [moved 0, Equiv.swap_apply_right, same]
      exact leastAll y' (by omega)

/-- The elements up to `r` are in order. -/
def SortedTo (q : QsortCall) (m : Memory UInt8) (r : Nat) : Prop :=
  ∀ x y, x < y → y ≤ r → y < q.total → q.Le (q.view m x) (q.view m y)

variable (fuel) in
/-- The unguarded scan for the place of element `r` stops at element 0 at the latest. -/
theorem place_view (ok : q.Addressable) (order : TotalPreorder q.cmp) (least : q.Least m)
    (inside : r < q.total) (le : t < r) (enough : t < fuel)
    : ∃ t', t' ≤ t ∧ q.place m (q.ptr r) fuel (q.ptr t) = some (q.ptr t')
        ∧ q.Le (q.view m t') (q.view m r)
        ∧ ∀ x, t' < x → x ≤ t → q.Le (q.view m r) (q.view m x) := by
  induction fuel generalizing t with
  | zero => omega
  | succ fuel ih =>
    simp only [place, compar_view inside (show t < q.total by omega), Option.bind_eq_bind,
      Option.bind_some]
    split
    case isFalse ge =>
      exact ⟨t, le_rfl, rfl, le_of_not_lt order ge, fun x low high => absurd low (by omega)⟩
    case isTrue lt =>
      obtain ⟨t, rfl⟩ : ∃ t', t = t' + 1 := by
        refine ⟨t - 1, ?_⟩
        have sentinel := least r inside
        have swap := order.swap (q.view m r) (q.view m 0)
        unfold Le at sentinel
        have : t ≠ 0 := by
          rintro rfl
          omega
        omega
      obtain ⟨t', low, run, below, above⟩ := ih (t := t) (by omega) (by omega)
      rw [ptrSub_ptr (ok.ptr_lt (by omega))]
      refine ⟨t', by omega, run, below, ?_⟩
      intro x lower upper
      by_cases last : x = t + 1
      · rw [last]
        unfold Le
        omega
      · exact above x lower (by omega)

/-- Moving element `r` behind the last one that is not above it sorts one element more. -/
theorem SortedTo.insert {t r : Nat} (order : TotalPreorder q.cmp) (sorted : q.SortedTo m (r - 1))
    (le : t + 1 ≤ r) (below : q.Le (q.view m t) (q.view m r))
    (above : ∀ x, t < x → x < r → q.Le (q.view m r) (q.view m x))
    (moved : ∀ k, q.view m' k = q.view m (rotation (t + 1) r le k))
    : q.SortedTo m' r := by
  intro x y lt high inside'
  rw [moved x, moved y]
  simp only [rotation, Equiv.coe_fn_mk]
  by_cases atY : y = t + 1
  · rw [if_pos atY, if_neg (by omega), if_neg (by omega)]
    by_cases last : x = t
    · rwa [last]
    · exact le_trans' order (sorted x t (by omega) (by omega) (by omega)) below
  · rw [if_neg atY]
    by_cases atX : x = t + 1
    · rw [if_pos atX, if_pos (by omega)]
      exact above (y - 1) (by omega) (by omega)
    · split_ifs with movedX movedY
      · exact sorted (x - 1) (y - 1) (by omega) (by omega) (by omega)
      · omega
      · exact sorted x (y - 1) (by omega) (by omega) (by omega)
      · exact sorted x y lt (by omega) inside'

theorem Least.keep {l h : Nat} (least : q.Least m) (part : Rearranged q l h m m') (low : 0 < l)
    (inside : h < q.total)
    : q.Least m' := by
  intro y lt
  rw [part.outside (.inl low)]
  by_cases within : l ≤ y ∧ y ≤ h
  · obtain ⟨y', -, high, same⟩ := part.source within.1 within.2
    rw [same]
    exact least y' (by omega)
  · rw [part.outside (by omega)]
    exact least y lt

variable (fuel) in
/-- One element finds its place. -/
theorem moveDown_view (ok : q.Addressable) (order : TotalPreorder q.cmp) (least : q.Least m)
    (sorted : q.SortedTo m (r - 1)) (inside : r < q.total) (le : t + 1 ≤ r)
    (below : q.Le (q.view m t) (q.view m r))
    (above : ∀ x, t < x → x < r → q.Le (q.view m r) (q.view m x))
    (enough : q.size + r + 1 < fuel)
    : ∃ m', q.moveDown fuel m (q.ptr r) (q.ptr (t + 1)) = some m'
        ∧ Rearranged q 0 (q.total - 1) m m' ∧ q.Least m' ∧ q.SortedTo m' r := by
  obtain ⟨m', run, moved, part⟩ :=
    shiftColumns_view (m := m) (t := t + 1) ok (Nat.succ_pos t) le inside enough
  by_cases stays : t + 1 = r
  · refine ⟨m, ?_, .refl, least, ?_⟩
    · rw [moveDown, if_neg (by simp [stays])]
    · refine SortedTo.insert order sorted le below above ?_
      intro k
      simp only [rotation, Equiv.coe_fn_mk]
      split_ifs with first
      · rw [first, stays]
      · omega
      · rfl
  · refine ⟨m', ?_, part.widen (Nat.zero_le _) (by omega), least.keep part (Nat.succ_pos t) inside,
      sorted.insert order le below above moved⟩
    rw [moveDown, if_pos (mt ok.ptr_inj.mp stays), run]

variable (fuel) in
/-- By induction on what is left to insert: the sorted part grows. -/
theorem insertionLoop_view (ok : q.Addressable) (order : TotalPreorder q.cmp)
    (some : 0 < q.total) (least : q.Least m) (sorted : q.SortedTo m r) (one : 1 ≤ r)
    (bound : r < q.total ∨ r = 1) (enough : q.size + 2 * q.total + 2 < fuel + r)
    : ∃ m', q.insertionLoop q.lastPtr fuel m (q.ptr r) = Option.some m'
        ∧ Rearranged q 0 (q.total - 1) m m' ∧ q.SortedTo m' (q.total - 1) := by
  induction fuel generalizing m r with
  | zero => omega
  | succ fuel ih =>
    have fits : q.ptr (r + 1) < 2 ^ 64 := by
      rcases bound with lt | rfl
      · exact ok.ptr_lt lt
      · exact ok.ptr_lt_four (by decide)
    simp only [insertionLoop, ptrAdd_ptr fits, lastPtr_eq ok some, ok.ptr_le_iff]
    split
    case isFalse done =>
      refine ⟨m, rfl, .refl, ?_⟩
      intro x y lt high inside
      exact sorted x y lt (by omega) inside
    case isTrue more =>
      obtain ⟨t, le, place, below, above⟩ :=
        place_view (m := m) (r := r + 1) (t := r) fuel ok order least (by omega)
          (Nat.lt_succ_self r) (by omega)
      obtain ⟨m₁, move, part₁, least₁, sorted₁⟩ :=
        moveDown_view (m := m) (r := r + 1) (t := t) fuel ok order least sorted
          (by omega) (by omega) below (fun x low high => above x low (by omega)) (by omega)
      obtain ⟨m', loop, part', sorted'⟩ := ih least₁ sorted₁ (by omega) (.inl (by omega)) (by omega)
      refine ⟨m', ?_, part₁.trans part', sorted'⟩
      rw [ptrSub_ptr fits, place]
      simp only [Option.bind_eq_bind, Option.bind_some]
      rw [ptrAdd_ptr (ok.ptr_lt (by omega)), move, Option.bind_some, ← lastPtr_eq ok some, loop]

def array (q : QsortCall) (m : Memory UInt8) : List (Element q.size) :=
  elements m q.size q.base q.total

theorem getElem_array {i : Nat} (inside : i < (q.array m).length)
    : (q.array m)[i] = q.view m i :=
  getElem_elements inside

theorem array_eq_map : q.array m = (List.range q.total).map (q.view m) := by
  apply ext_getElem (by simp [array])
  intro i inside _
  rw [getElem_array, getElem_map, getElem_range]

theorem Rearranged.perm (part : Rearranged q 0 (q.total - 1) m m') (some : 0 < q.total)
    : (q.array m').Perm (q.array m) := by
  obtain ⟨σ, fixes, moved⟩ := part.moved
  have behind : ∀ x, q.total ≤ x → σ x = x := fun x le => fixes x (by omega)
  have shuffled : ((List.range q.total).map σ).Perm (List.range q.total) := by
    rw [perm_ext_iff_of_nodup (nodup_range.map σ.injective) nodup_range]
    intro k
    simp only [mem_map, mem_range]
    -- `σ` fixes the indices behind the array, so it maps the others to each other
    constructor
    · rintro ⟨x, lt, rfl⟩
      by_contra above
      have same := σ.injective (behind (σ x) (by omega))
      omega
    · intro lt
      refine ⟨σ.symm k, ?_, σ.apply_symm_apply k⟩
      by_contra above
      have same := behind (σ.symm k) (by omega)
      rw [σ.apply_symm_apply] at same
      omega
  have image : q.array m' = ((List.range q.total).map σ).map (q.view m) := by
    rw [array_eq_map, map_map]
    exact map_congr_left (fun k _ => moved k)
  rw [image, array_eq_map]
  exact shuffled.map _

theorem SortedTo.pairwise (sorted : q.SortedTo m (q.total - 1))
    : (q.array m).Pairwise (fun a b => q.cmp a b ≤ 0) := by
  rw [pairwise_iff_getElem]
  intro i j left right lt
  have bound : j < q.total := by simpa [array] using right
  rw [getElem_array, getElem_array]
  exact sorted i j lt (by omega) bound

variable (fuel) in
theorem partitionPhase_view (ok : q.Addressable) (order : TotalPreorder q.cmp)
    (enough : 3 * q.total < fuel)
    : ∃ m', q.partitionPhase fuel m = some m' ∧ Rearranged q 0 (q.total - 1) m m'
        ∧ (q.total ≤ 5 ∨ ∃ c, 1 ≤ c ∧ c ≤ 5 ∧ q.Cut m' c) := by
  unfold partitionPhase
  split
  case isFalse few =>
    unfold maxThreshElems at few
    exact ⟨m, rfl, .refl, .inl (by omega)⟩
  case isTrue many =>
    unfold maxThreshElems at many
    have pending : Pending q m [(0, q.total - 1)] := by
      refine ⟨?_, pairwise_singleton _ _, ?_, .inl ⟨q.total - 1, by simp, ?_⟩⟩
      · intro part member
        rw [mem_singleton.mp member]
        exact ⟨by omega, by omega⟩
      · refine ⟨?_, trivial⟩
        simp only [length_nil, Nat.pow_zero]
        omega
      · intro x y _ behind lt
        omega
    obtain ⟨m', loop, part, cut⟩ := partitionLoop_pending fuel ok order pending (by
        simp only [work, map_cons, map_nil, sum_cons, sum_nil]
        omega)
    refine ⟨m', ?_, part, .inr cut⟩
    rw [lastPtr_eq ok (by omega)]
    rw [resume, ptr_zero] at loop
    exact loop

/-- `_quicksort` ends for every comparison that is a total preorder, stays inside the array
and inside its stack, and leaves the elements in order.
-/
theorem quicksort_sorts (order : TotalPreorder q.cmp) (ok : q.Addressable)
    (m : Memory UInt8) (fuel : Nat) (enough : q.size + 3 * q.total + 5 < fuel)
    : ∃ m', q.quicksort fuel m = some m' ∧ (q.array m').Perm (q.array m)
        ∧ (q.array m').Pairwise (fun a b => q.cmp a b ≤ 0)
        ∧ ∀ x, x < q.base ∨ q.base + q.total * q.size ≤ x → m' x = m x := by
  unfold quicksort
  split
  case isTrue none =>
    refine ⟨m, rfl, List.Perm.refl _, ?_, fun _ _ => rfl⟩
    have empty : q.array m = [] := by
      unfold array
      rw [none]
      rfl
    rw [empty]
    exact List.Pairwise.nil
  case isFalse many =>
    have nonempty : 0 < q.total := by omega
    obtain ⟨m₁, partition, part₁, cut⟩ := partitionPhase_view (m := m) fuel ok order (by omega)
    obtain ⟨s, m₂, smallest, swapped, part₂, least⟩ :=
      sentinel_view fuel ok order nonempty cut (by omega)
    have pair : q.SortedTo m₂ 1 := by
      intro x y lt high inside
      rw [show x = 0 by omega]
      exact least y inside
    obtain ⟨m', insertion, part₃, sorted⟩ :=
      insertionLoop_view fuel ok order nonempty least pair le_rfl (.inr rfl) (by omega)
    have part := (part₁.trans part₂).trans part₃
    refine ⟨m', ?_, part.perm nonempty, sorted.pairwise, part.frame⟩
    have first : ptrAdd q.base q.size = q.ptr 1 := by
      rw [← ptr_zero (q := q)]
      exact ptrAdd_ptr (ok.ptr_lt_four (by decide))
    rw [partition, Option.bind_eq_bind, Option.bind_some, insertionPhase, smallest,
      Option.bind_eq_bind, Option.bind_some, swapped, Option.bind_eq_bind, Option.bind_some,
      first, insertion]

private theorem quicksort_of_wrap (two : q.total = 2) (wraps : q.maxThresh = 0) (positive : 0 < q.size)
    (fits : q.base + 2 * q.size < 2 ^ 64) (result : q.quicksort fuel m = some m')
    : m' = m := by
  have last : q.lastPtr = q.base + q.size := by
    rw [lastPtr, two, Nat.mul_one, Nat.mod_eq_of_lt (by omega), ptrAdd_of_lt (by omega)]
  have thresh : min q.lastPtr (ptrAdd q.base q.maxThresh) = q.base := by
    rw [ptrAdd_of_lt (by omega)]
    omega
  have second : ptrAdd q.base q.size = q.base + q.size := ptrAdd_of_lt (by omega)
  have third : ptrAdd (q.base + q.size) q.size = q.base + 2 * q.size := by
    rw [ptrAdd_of_lt (by omega)]
    omega
  have few : ¬ q.total > maxThreshElems := by
    rw [two]
    decide
  rw [quicksort, if_neg (by omega), partitionPhase, if_neg few, Option.bind_eq_bind,
    Option.bind_some, insertionPhase, second] at result
  cases fuel with
  | zero => exact nomatch result
  | succ fuel =>
    rw [smallest, if_neg (by omega), Option.bind_eq_bind, Option.bind_some, swapIfApart,
      if_neg (by simp), Option.bind_eq_bind, Option.bind_some, insertionLoop,
      if_neg (by omega)] at result
    exact (Option.some.inj result).symm

def giants : QsortCall :=
  { base := 4096, total := 2, size := 2 ^ 62, cmp := byFirstByte }

/-- The first of them starts with the byte 1, everything else is 0. -/
def giantsMemory : Memory UInt8 := fun x => if x = 4096 then 1 else 0

theorem quicksort_giants_unsorted
    : 1 ≤ giants.size ∧ giants.total * giants.size < 2 ^ 64
      ∧ giants.base + giants.total * giants.size < 2 ^ 64 ∧ TotalPreorder giants.cmp
      ∧ ∀ fuel m', giants.quicksort fuel giantsMemory = some m'
          → ¬ (giants.array m').Pairwise (fun a b => giants.cmp a b ≤ 0) := by
  refine ⟨by decide, by decide, by decide, byFirstByte_order, ?_⟩
  intro fuel m' result sorted
  have same : m' = giantsMemory := quicksort_of_wrap rfl (by decide) (by decide) (by decide) result
  have two : (giants.array m').length = 2 := length_elements
  have le := pairwise_iff_getElem.mp sorted 0 1 (by omega) (by omega) (by omega)
  rw [same] at le
  have greater : ¬ byFirstByte (giants.view giantsMemory 0) (giants.view giantsMemory 1) ≤ 0 := by
    decide
  exact greater le

def bytes : QsortCall :=
  { base := 4096, total := 2, size := 1, cmp := byFirstByte }

theorem quicksort_sorts_bytes
    : ∃ m', bytes.quicksort 20 giantsMemory = some m'
        ∧ (bytes.array m').Perm (bytes.array giantsMemory)
        ∧ (bytes.array m').Pairwise (fun a b => bytes.cmp a b ≤ 0)
        ∧ ∀ x, x < 4096 ∨ 4098 ≤ x → m' x = giantsMemory x :=
  quicksort_sorts (q := bytes) byFirstByte_order
    ⟨by decide, by decide, by decide, by decide⟩ giantsMemory 20 (by decide)

end Nglibc.Sort.QsortCall
