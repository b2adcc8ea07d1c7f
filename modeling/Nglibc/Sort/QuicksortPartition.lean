import Nglibc.Sort.QuicksortArray

/-! The partition phase of `_quicksort` stays inside the array and inside its stack, and leaves
a smallest element among the first five.
-/

namespace Nglibc.Sort.QsortCall

open Memory List

variable {q : QsortCall} {m m' : Memory UInt8} {i j l h p fuel : Nat}

/-- Element `x` of `m` is not greater than `y`. -/
def Le (q : QsortCall) (x y : Element q.size) : Prop := q.cmp x y ≤ 0

theorem le_of_not_lt (order : TotalPreorder q.cmp) {x y : Element q.size}
    (not : ¬ q.cmp x y < 0)
    : q.Le y x := by
  unfold Le
  have := (order.swap x y)
  omega

theorem le_refl' (order : TotalPreorder q.cmp) (x : Element q.size) : q.Le x x := by
  unfold Le
  have := order.swap x x
  omega

theorem le_trans' (order : TotalPreorder q.cmp) {x y z : Element q.size} (xy : q.Le x y)
    (yz : q.Le y z)
    : q.Le x z :=
  order.trans x y z xy yz

/-- An exchange that puts two elements in order. -/
theorem swapIfLess_view (ok : q.Addressable) (order : TotalPreorder q.cmp)
    (inside : h < q.total) (low : l < p) (high : p ≤ h)
    : ∃ m', q.swapIfLess m (q.ptr p) (q.ptr l) = some m' ∧ Rearranged q l h m m'
        ∧ q.Le (q.view m' l) (q.view m' p)
        ∧ (∀ k, p < k → q.view m' k = q.view m k)
        ∧ (∀ z, q.Le (q.view m l) z → q.Le (q.view m p) z → q.Le (q.view m' p) z) := by
  simp only [swapIfLess, compar_view (show p < q.total by omega) (show l < q.total by omega),
    Option.bind_eq_bind, Option.bind_some]
  split
  case isTrue lt =>
    obtain ⟨m', run, moved, part⟩ :=
      swap_rearranged (m := m) (l := l) (h := h) (i := p) (j := l) ok inside
        ⟨low.le, high⟩ ⟨le_rfl, by omega⟩
    refine ⟨m', run, part, ?_, ?_, ?_⟩
    · rw [moved l, moved p, Equiv.swap_apply_left, Equiv.swap_apply_right]
      unfold Le
      omega
    · intro k behind
      rw [moved k, Equiv.swap_apply_of_ne_of_ne (by omega) (by omega)]
    · intro z lz _
      rw [moved p, Equiv.swap_apply_left]
      exact lz
  case isFalse ge =>
    exact ⟨m, rfl, .refl, le_of_not_lt order ge, fun _ _ => rfl, fun _ _ pz => pz⟩

/-- After the median of three the ends of the partition stop both scans. -/
theorem medianOfThree_view (ok : q.Addressable) (order : TotalPreorder q.cmp)
    (inside : h < q.total) (low : l < p) (high : p < h)
    : ∃ m', q.medianOfThree m (q.ptr l) (q.ptr p) (q.ptr h) = some m' ∧ Rearranged q l h m m'
        ∧ q.Le (q.view m' l) (q.view m' p) ∧ q.Le (q.view m' p) (q.view m' h) := by
  obtain ⟨m₁, run₁, part₁, le₁, -, -⟩ := swapIfLess_view (m := m) ok order inside low high.le
  simp only [medianOfThree, run₁, Option.bind_eq_bind, Option.bind_some,
    compar_view inside (show p < q.total by omega)]
  split
  case isFalse ge => exact ⟨m₁, rfl, part₁, le₁, le_of_not_lt order ge⟩
  case isTrue lt =>
    obtain ⟨m₂, run₂, moved₂, part₂⟩ :=
      swap_rearranged (m := m₁) (l := l) (h := h) (i := p) (j := h) ok inside
        ⟨low.le, high.le⟩ ⟨by omega, le_rfl⟩
    have midHigh : q.Le (q.view m₂ p) (q.view m₂ h) := by
      rw [moved₂ p, moved₂ h, Equiv.swap_apply_left, Equiv.swap_apply_right]
      unfold Le
      omega
    have lowHigh : q.Le (q.view m₂ l) (q.view m₂ h) := by
      rw [moved₂ l, Equiv.swap_apply_of_ne_of_ne (by omega) (by omega), moved₂ h,
        Equiv.swap_apply_right]
      exact le₁
    obtain ⟨m₃, run₃, part₃, le₃, same, bound⟩ :=
      swapIfLess_view (m := m₂) ok order inside low high.le
    refine ⟨m₃, ?_, (part₁.trans part₂).trans part₃, le₃, ?_⟩
    · rw [run₂, Option.bind_some, run₃]
    · rw [same h high]
      exact bound _ lowHigh midHigh

variable (fuel) in
theorem scanLeft_view (ok : q.Addressable) {e : Nat} (pivot : p < q.total) (inside : e < q.total)
    (le : i ≤ e) (stop : ¬ q.cmp (q.view m e) (q.view m p) < 0) (enough : e - i < fuel)
    : ∃ i', i ≤ i' ∧ i' ≤ e ∧ q.scanLeft m (q.ptr p) fuel (q.ptr i) = some (q.ptr i')
        ∧ (∀ x, i ≤ x → x < i' → q.cmp (q.view m x) (q.view m p) < 0)
        ∧ ¬ q.cmp (q.view m i') (q.view m p) < 0 := by
  induction fuel generalizing i with
  | zero => omega
  | succ fuel ih =>
    simp only [scanLeft, compar_view (show i < q.total by omega) pivot, Option.bind_eq_bind,
      Option.bind_some]
    split
    case isFalse ge =>
      exact ⟨i, le_rfl, le, rfl, fun x low high => absurd low (by omega), ge⟩
    case isTrue lt =>
      have next : i + 1 ≤ e := by
        refine Nat.lt_of_le_of_ne le ?_
        rintro rfl
        exact stop lt
      obtain ⟨i', low, high, run, below, ge⟩ := ih next (by omega)
      rw [ptrAdd_ptr (ok.ptr_lt (by omega))]
      refine ⟨i', by omega, high, run, ?_, ge⟩
      intro x lower upper
      by_cases first : x = i
      · rwa [first]
      · exact below x (by omega) upper

variable (fuel) in
/-- A scan downwards stops at the latest at an element that is not above the pivot. -/
theorem scanRight_view (ok : q.Addressable) {e : Nat} (pivot : p < q.total)
    (inside : j < q.total) (le : e ≤ j) (stop : ¬ q.cmp (q.view m p) (q.view m e) < 0)
    (enough : j - e < fuel)
    : ∃ j', e ≤ j' ∧ j' ≤ j ∧ q.scanRight m (q.ptr p) fuel (q.ptr j) = some (q.ptr j')
        ∧ (∀ y, j' < y → y ≤ j → q.cmp (q.view m p) (q.view m y) < 0)
        ∧ ¬ q.cmp (q.view m p) (q.view m j') < 0 := by
  induction fuel generalizing j with
  | zero => omega
  | succ fuel ih =>
    simp only [scanRight, compar_view pivot inside, Option.bind_eq_bind, Option.bind_some]
    split
    case isFalse ge =>
      exact ⟨j, le, le_rfl, rfl, fun y low high => absurd low (by omega), ge⟩
    case isTrue lt =>
      have next : e < j := by
        refine Nat.lt_of_le_of_ne le ?_
        rintro rfl
        exact stop lt
      obtain ⟨j, rfl⟩ : ∃ j', j = j' + 1 := ⟨j - 1, by omega⟩
      obtain ⟨j', low, high, run, above, ge⟩ := ih (j := j) (by omega) (by omega) (by omega)
      rw [ptrSub_ptr (ok.ptr_lt (by omega))]
      refine ⟨j', low, by omega, run, ?_, ge⟩
      intro y lower upper
      by_cases last : y = j + 1
      · rwa [last]
      · exact above y lower (by omega)

/-- The elements before `i` are not above `v`, those behind `j` not below it. -/
structure Walls (q : QsortCall) (m : Memory UInt8) (l h i j : Nat) (v : Element q.size) : Prop
    where
  low : ∀ x, l ≤ x → x < i → q.Le (q.view m x) v
  high : ∀ y, j < y → y ≤ h → q.Le v (q.view m y)

variable {parts : List (Nat × Nat)} {v : Element q.size}

variable (fuel) in
/-- Both scans from one pair of walls to the next. -/
theorem Walls.scan (ok : q.Addressable) (order : TotalPreorder q.cmp) (walls : Walls q m l h i j v)
    (inside : h < q.total) (lowI : l < i) (le : i ≤ j) (highJ : j < h) (pivot : p < q.total)
    (value : q.view m p = v) (enough : q.total ≤ fuel)
    : ∃ i' j', q.scanLeft m (q.ptr p) fuel (q.ptr i) = some (q.ptr i')
        ∧ q.scanRight m (q.ptr p) fuel (q.ptr j) = some (q.ptr j')
        ∧ i ≤ i' ∧ i' ≤ h ∧ l ≤ j' ∧ j' ≤ j
        ∧ Walls q m l h i' j' v
        ∧ q.Le v (q.view m i') ∧ q.Le (q.view m j') v := by
  have above : ¬ q.cmp (q.view m h) (q.view m p) < 0 := by
    have := walls.high h highJ le_rfl
    unfold Le at this
    have := order.swap (q.view m h) v
    rw [value]
    omega
  have below : ¬ q.cmp (q.view m p) (q.view m l) < 0 := by
    have := walls.low l le_rfl lowI
    unfold Le at this
    have := order.swap v (q.view m l)
    rw [value]
    omega
  obtain ⟨i', lowI', highI', runI, passedI, stopI⟩ :=
    scanLeft_view fuel ok pivot inside (show i ≤ h by omega) above (by omega)
  obtain ⟨j', lowJ', highJ', runJ, passedJ, stopJ⟩ :=
    scanRight_view fuel ok pivot (show j < q.total by omega) (show l ≤ j by omega)
      below (by omega)
  rw [value] at stopI stopJ passedI passedJ
  refine ⟨i', j', runI, runJ, lowI', highI', lowJ', highJ', ⟨?_, ?_⟩,
    le_of_not_lt order stopI, le_of_not_lt order stopJ⟩
  · intro x lower upper
    by_cases before : x < i
    · exact walls.low x lower before
    · have := passedI x (by omega) upper
      unfold Le
      omega
  · intro y lower upper
    by_cases behind : j < y
    · exact walls.high y behind upper
    · have := passedJ y lower (by omega)
      unfold Le
      omega

theorem Walls.exchange (walls : Walls q m l h i j v) (lt : i < j)
    (moved : ∀ k, q.view m' k = q.view m (Equiv.swap i j k)) (above : q.Le v (q.view m i))
    (below : q.Le (q.view m j) v)
    : Walls q m' l h (i + 1) (j - 1) v := by
  constructor
  · intro x lower upper
    by_cases last : x = i
    · rw [last, moved i, Equiv.swap_apply_left]
      exact below
    · rw [moved x, Equiv.swap_apply_of_ne_of_ne last (by omega)]
      exact walls.low x lower (by omega)
  · intro y lower upper
    by_cases first : y = j
    · rw [first, moved j, Equiv.swap_apply_right]
      exact above
    · rw [moved y, Equiv.swap_apply_of_ne_of_ne (by omega) first]
      exact walls.high y (by omega) upper

/-- What the collapsed walls leave: two parts that do not overlap. -/
structure Collapsed (q : QsortCall) (m m' : Memory UInt8) (l h i j : Nat) (v : Element q.size)
    : Prop where
  part : Rearranged q l h m m'
  walls : Walls q m' l h i j v
  crossed : j < i
  low : l ≤ j ∧ l < i
  high : i ≤ h ∧ j < h

variable (fuel) in
/-- The partition loop, by induction on the distance of its two pointers. -/
theorem collapse_view (ok : q.Addressable) (order : TotalPreorder q.cmp) (walls : Walls q m l h i j v)
    (inside : h < q.total) (lowI : l < i) (le : i ≤ j) (highJ : j < h) (pivot : l ≤ p ∧ p ≤ h)
    (value : q.view m p = v) (enough : q.total + (j - i) < fuel)
    : ∃ m' i' j', q.collapse fuel m (q.ptr p) (q.ptr i) (q.ptr j) = some (m', q.ptr i', q.ptr j')
        ∧ Collapsed q m m' l h i' j' v := by
  induction fuel generalizing m p i j with
  | zero => omega
  | succ fuel ih =>
    obtain ⟨i', j', runI, runJ, lowI', highI', lowJ', highJ', walls', above, below⟩ :=
      walls.scan fuel ok order inside lowI le highJ (show p < q.total by omega)
        value (by omega)
    simp only [collapse, runI, runJ, Option.bind_eq_bind, Option.bind_some, ok.ptr_lt_iff]
    split
    case isTrue lt =>
      obtain ⟨m₁, run, moved, part⟩ :=
        swap_rearranged (m := m) (l := l) (h := h) (i := i') (j := j') ok inside
          ⟨by omega, by omega⟩ ⟨by omega, by omega⟩
      have walls₁ := walls'.exchange lt moved above below
      -- the pivot moves with the exchange
      obtain ⟨p', mid, pivot', value'⟩
          : ∃ p', (if q.ptr p = q.ptr i' then q.ptr j'
                else if q.ptr p = q.ptr j' then q.ptr i' else q.ptr p) = q.ptr p'
              ∧ (l ≤ p' ∧ p' ≤ h) ∧ q.view m₁ p' = v := by
        by_cases atI : p = i'
        · refine ⟨j', by simp [atI], by omega, ?_⟩
          rw [moved j', Equiv.swap_apply_right, ← atI, value]
        · by_cases atJ : p = j'
          · refine ⟨i', ?_, by omega, ?_⟩
            · rw [if_neg (mt ok.ptr_inj.mp atI), if_pos (by rw [atJ])]
            · rw [moved i', Equiv.swap_apply_left, ← atJ, value]
          · refine ⟨p, ?_, pivot, ?_⟩
            · rw [if_neg (mt ok.ptr_inj.mp atI), if_neg (mt ok.ptr_inj.mp atJ)]
            · rw [moved p, Equiv.swap_apply_of_ne_of_ne atI atJ, value]
      obtain ⟨j₁, rfl⟩ : ∃ j₁, j' = j₁ + 1 := ⟨j' - 1, by omega⟩
      simp only [run, Option.bind_some, mid, ptrAdd_ptr (ok.ptr_lt (i := i' + 1) (by omega)),
        ptrSub_ptr (ok.ptr_lt (i := j₁ + 1) (by omega)), ok.ptr_le_iff]
      rw [Nat.add_sub_cancel] at walls₁
      split
      case isTrue again =>
        obtain ⟨m', i₂, j₂, loop, done⟩ :=
          ih walls₁ (by omega) again (by omega) pivot' value' (by omega)
        exact ⟨m', i₂, j₂, loop, { done with part := part.trans done.part }⟩
      case isFalse crossed =>
        refine ⟨m₁, i' + 1, j₁, rfl, part, walls₁, ?_, ?_, ?_⟩ <;> omega
    case isFalse ge =>
      split
      case isTrue same =>
        obtain rfl := ok.ptr_inj.mp same
        obtain ⟨j₁, rfl⟩ : ∃ j₁, i' = j₁ + 1 := ⟨i' - 1, by omega⟩
        rw [ptrAdd_ptr (ok.ptr_lt (by omega)), ptrSub_ptr (ok.ptr_lt (by omega))]
        refine ⟨m, j₁ + 1 + 1, j₁, rfl, .refl, ⟨?_, ?_⟩, by omega, by omega, by omega⟩
        · intro x lower upper
          by_cases last : x = j₁ + 1
          · rwa [last]
          · exact walls'.low x lower (by omega)
        · intro y lower upper
          by_cases first : y = j₁ + 1
          · rwa [first]
          · exact walls'.high y (by omega) upper
      case isFalse ne =>
        have apart : i' ≠ j' := mt ok.ptr_inj.mpr ne
        refine ⟨m, i', j', rfl, .refl, walls', ?_, ?_, ?_⟩ <;> omega

/-- No element before `c` is above an element from `c` on. -/
def Cut (q : QsortCall) (m : Memory UInt8) (c : Nat) : Prop :=
  ∀ x y, x < c → c ≤ y → y < q.total → q.Le (q.view m x) (q.view m y)

theorem Cut.keep {c : Nat} (cut : q.Cut m c) (part : Rearranged q l h m m') (le : c ≤ l)
    (inside : h < q.total)
    : q.Cut m' c := by
  intro x y before behind lt
  rw [part.outside (by omega)]
  by_cases within : l ≤ y ∧ y ≤ h
  · obtain ⟨y', low, high, same⟩ := part.source within.1 within.2
    rw [same]
    exact cut x y' before (by omega) (by omega)
  · rw [part.outside (by omega)]
    exact cut x y before behind lt

/-- The walls of a partition that starts the array are a cut of the whole array. -/
theorem Collapsed.cut (order : TotalPreorder q.cmp) (collapsed : Collapsed q m m' 0 h i j v)
    (cut : q.Cut m (h + 1))
    : q.Cut m' (j + 1) := by
  have crossed := collapsed.crossed
  have high := collapsed.high
  intro x y before behind lt
  by_cases within : y ≤ h
  · exact le_trans' order (collapsed.walls.low x (Nat.zero_le x) (by omega))
      (collapsed.walls.high y (by omega) within)
  · obtain ⟨x', -, le, same⟩ := collapsed.part.source (Nat.zero_le x) (by omega)
    rw [same, collapsed.part.outside (by omega)]
    exact cut x' y (by omega) (by omega) lt

/-- Every entry of the stack is at most half of what is below it. -/
def Halving (total : Nat) : List (Nat × Nat) → Prop
  | [] => True
  | part :: rest => (part.2 + 1 - part.1) * 2 ^ rest.length ≤ total ∧ Halving total rest

/-- The partitions that are still to be split, as pairs of their first and last index. The
partition that starts the array is among them, or a cut within the first five elements lies
before all of them.
-/
structure Pending (q : QsortCall) (m : Memory UInt8) (parts : List (Nat × Nat)) : Prop where
  wide : ∀ part ∈ parts, part.1 + 4 ≤ part.2 ∧ part.2 < q.total
  disjoint : parts.Pairwise (fun a b => a.2 < b.1 ∨ b.2 < a.1)
  halving : Halving q.total parts
  first
    : (∃ h, (0, h) ∈ parts ∧ q.Cut m (h + 1))
      ∨ ∃ c, 1 ≤ c ∧ c ≤ 5 ∧ q.Cut m c ∧ ∀ part ∈ parts, c ≤ part.1

/-- A split partition is replaced by those of its two parts that are not small. -/
theorem Pending.split (kept : List (Nat × Nat)) (order : TotalPreorder q.cmp)
    (pending : Pending q m ((l, h) :: parts)) (collapsed : Collapsed q m m' l h i j v)
    (halves : ∀ part ∈ kept, part = (l, j) ∨ part = (i, h)) (wide : ∀ part ∈ kept, part.1 + 4 ≤ part.2)
    (apart : kept.Pairwise (fun a b => a.2 < b.1 ∨ b.2 < a.1)) (small : (l, j) ∈ kept ∨ j ≤ l + 4)
    (halving : Halving q.total (kept ++ parts))
    : Pending q m' (kept ++ parts) := by
  have crossed := collapsed.crossed
  have low := collapsed.low
  have high := collapsed.high
  have inside : h < q.total := (pending.wide (l, h) (mem_cons_self ..)).2
  obtain ⟨others, rest⟩ := pairwise_cons.mp pending.disjoint
  have within : ∀ part ∈ kept, l ≤ part.1 ∧ part.2 ≤ h := by
    intro part member
    rcases halves part member with rfl | rfl <;> simp only <;> omega
  refine ⟨?_, ?_, halving, ?_⟩
  · intro part member
    rcases mem_append.mp member with new | old
    · have := within part new
      exact ⟨wide part new, by omega⟩
    · exact pending.wide part (mem_cons_of_mem _ old)
  · refine pairwise_append.mpr ⟨apart, rest, ?_⟩
    intro a new b old
    have := within a new
    have := others b old
    omega
  · rcases pending.first with ⟨h₀, member, cut⟩ | ⟨c, one, five, cut, before⟩
    · rcases mem_cons.mp member with same | old
      · -- the partition was the one that starts the array
        obtain ⟨rfl, rfl⟩ := Prod.mk.inj same
        have cut' := collapsed.cut order cut
        by_cases keeps : (0, j) ∈ kept
        · exact .inl ⟨j, mem_append_left _ keeps, cut'⟩
        · refine .inr ⟨j + 1, by omega, ?_, cut', ?_⟩
          · rcases small with kept' | le
            · exact absurd kept' keeps
            · omega
          · intro part member'
            rcases mem_append.mp member' with new | old
            · rcases halves part new with rfl | rfl
              · exact absurd new keeps
              · exact crossed
            · have := others part old
              omega
      · have := others (0, h₀) old
        exact .inl ⟨h₀, mem_append_right _ old, cut.keep collapsed.part (by omega) inside⟩
    · have first : c ≤ l := before (l, h) (mem_cons_self ..)
      refine .inr ⟨c, one, five, cut.keep collapsed.part first inside, ?_⟩
      intro part member
      rcases mem_append.mp member with new | old
      · have := within part new
        omega
      · exact before part (mem_cons_of_mem _ old)

theorem Halving.shrink {total : Nat} {part part' : Nat × Nat} (halving : Halving total (part :: parts))
    (le : part'.2 + 1 - part'.1 ≤ part.2 + 1 - part.1)
    : Halving total (part' :: parts) :=
  ⟨Nat.le_trans (Nat.mul_le_mul_right _ le) halving.1, halving.2⟩

/-- The larger part goes on the stack and the smaller one is at most half of the whole. -/
theorem Halving.push {total : Nat} {part small large : Nat × Nat} (halving : Halving total (part :: parts))
    (le : small.2 + 1 - small.1 ≤ large.2 + 1 - large.1)
    (sum : (small.2 + 1 - small.1) + (large.2 + 1 - large.1) ≤ part.2 + 1 - part.1)
    : Halving total (small :: large :: parts) := by
  refine ⟨?_, halving.shrink (by omega)⟩
  rw [length_cons, Nat.pow_succ', ← Nat.mul_assoc]
  refine Nat.le_trans (Nat.mul_le_mul_right _ ?_) halving.1
  omega

theorem Pending.room (ok : q.Addressable) (pending : Pending q m ((l, h) :: parts))
    : parts.length + 1 < stackSize := by
  have wide := pending.wide (l, h) (mem_cons_self ..)
  have bound := pending.halving.1
  have total : q.total < 2 ^ 63 :=
    Nat.lt_of_le_of_lt (Nat.le_mul_of_pos_right _ ok.positive) ok.object
  simp only at wide bound
  by_contra full
  have deep : 2 ^ 63 ≤ 2 ^ parts.length :=
    Nat.pow_le_pow_right (by decide) (by unfold stackSize at full; omega)
  have grows : 2 ^ parts.length ≤ (h + 1 - l) * 2 ^ parts.length :=
    Nat.le_mul_of_pos_left _ (by omega)
  omega

/-- The stack of the code, with the entry `NULL, NULL` at its bottom. -/
def stackOf (q : QsortCall) (parts : List (Nat × Nat)) : List (Nat × Nat) :=
  parts.map (fun part => (q.ptr part.1, q.ptr part.2)) ++ [(0, 0)]

/-- The steps that the pending partitions may still need. -/
def work (parts : List (Nat × Nat)) : Nat := (parts.map (fun part => part.2 - part.1)).sum

theorem push_stackOf (room : parts.length + 1 < stackSize)
    : push (q.stackOf parts) (q.ptr i) (q.ptr j) = some (q.stackOf ((i, j) :: parts)) := by
  unfold push stackOf
  rw [if_pos (by simpa using room)]
  rfl

/-- What the loop goes on with: the first pending partition, or an empty stack. -/
def resume (q : QsortCall) : List (Nat × Nat) → Nat × Nat × List (Nat × Nat)
  | [] => (0, 0, [])
  | part :: rest => (q.ptr part.1, q.ptr part.2, q.stackOf rest)

/-- The parts of a split partition that are not small are pending, the smaller one first. -/
theorem nextPartition_pending {top : Nat × Nat} {stack : List (Nat × Nat)} (ok : q.Addressable)
    (order : TotalPreorder q.cmp) (pending : Pending q m ((l, h) :: parts))
    (collapsed : Collapsed q m m' l h i j v) (stacked : q.stackOf parts = top :: stack)
    : ∃ parts', q.nextPartition (q.ptr l) (q.ptr h) (q.ptr i) (q.ptr j) top stack
          = some (q.resume parts')
        ∧ Pending q m' parts' ∧ work parts' < work ((l, h) :: parts) := by
  obtain ⟨wide, inside⟩ := pending.wide (l, h) (mem_cons_self ..)
  have crossed := collapsed.crossed
  have low := collapsed.low
  have high := collapsed.high
  have room := pending.room ok
  have split := fun kept => pending.split kept order collapsed
  have leftBytes : ptrSub (q.ptr j) (q.ptr l) = (j - l) * q.size :=
    ptrSub_ptr_ptr ok (by omega) (by omega)
  have rightBytes : ptrSub (q.ptr h) (q.ptr i) = (h - i) * q.size :=
    ptrSub_ptr_ptr ok (by omega) (by omega)
  have leftSmall : ptrSub (q.ptr j) (q.ptr l) ≤ q.maxThresh ↔ j - l ≤ 4 := by
    rw [leftBytes, maxThresh_eq ok, Nat.mul_le_mul_right_iff ok.positive, maxThreshElems]
  have rightSmall : ptrSub (q.ptr h) (q.ptr i) ≤ q.maxThresh ↔ h - i ≤ 4 := by
    rw [rightBytes, maxThresh_eq ok, Nat.mul_le_mul_right_iff ok.positive, maxThreshElems]
  have larger
      : toPtrdiff (ptrSub (q.ptr j) (q.ptr l)) > toPtrdiff (ptrSub (q.ptr h) (q.ptr i))
        ↔ h - i < j - l := by
    have left : (j - l) * q.size < 2 ^ 63 :=
      Nat.lt_of_le_of_lt (Nat.mul_le_mul_right _ (by omega)) ok.object
    have right : (h - i) * q.size < 2 ^ 63 :=
      Nat.lt_of_le_of_lt (Nat.mul_le_mul_right _ (by omega)) ok.object
    rw [leftBytes, rightBytes, toPtrdiff, toPtrdiff, if_pos left, if_pos right, gt_iff_lt,
      Int.ofNat_lt, Nat.mul_lt_mul_right ok.positive]
  unfold nextPartition
  simp only [leftSmall, rightSmall, larger, ← stacked, push_stackOf room, Option.map_some]
  by_cases left : j - l ≤ 4
  · by_cases right : h - i ≤ 4
    · refine ⟨parts, ?_, split [] nofun nofun .nil (.inr (by omega)) pending.halving.2, ?_⟩
      · rw [if_pos left, if_pos right]
        cases parts with
        | nil =>
          obtain ⟨rfl, rfl⟩ := List.cons.inj stacked
          rfl
        | cons part rest =>
          obtain ⟨rfl, rfl⟩ := List.cons.inj stacked
          rfl
      · simp only [work, map_cons, sum_cons]
        omega
    · refine ⟨(i, h) :: parts, by rw [if_pos left, if_neg right]; rfl, ?_, ?_⟩
      · refine split [(i, h)] (by simp) (by simp; omega) (by simp) (.inr (by omega)) ?_
        exact pending.halving.shrink (by simp only; omega)
      · simp only [work, map_cons, sum_cons]
        omega
  · by_cases right : h - i ≤ 4
    · refine ⟨(l, j) :: parts, by rw [if_neg left, if_pos right]; rfl, ?_, ?_⟩
      · refine split [(l, j)] (by simp) (by simp; omega) (by simp) (.inl (by simp)) ?_
        exact pending.halving.shrink (by simp only; omega)
      · simp only [work, map_cons, sum_cons]
        omega
    · by_cases more : h - i < j - l
      · refine ⟨(i, h) :: (l, j) :: parts, ?_, ?_, ?_⟩
        · rw [if_neg left, if_neg right, if_pos more]
          rfl
        · refine split [(i, h), (l, j)] (by simp) (by simp; omega) (by simp; omega)
            (.inl (by simp)) ?_
          exact pending.halving.push (by simp only; omega) (by simp only; omega)
        · simp only [work, map_cons, sum_cons]
          omega
      · refine ⟨(l, j) :: (i, h) :: parts, ?_, ?_, ?_⟩
        · rw [if_neg left, if_neg right, if_neg more]
          rfl
        · refine split [(l, j), (i, h)] (by simp) (by simp; omega) (by simp; omega)
            (.inl (by simp)) ?_
          exact pending.halving.push (by simp only; omega) (by simp only; omega)
        · simp only [work, map_cons, sum_cons]
          omega

variable (fuel) in
theorem split_partition (ok : q.Addressable) (order : TotalPreorder q.cmp) (wide : l + 4 ≤ h)
    (inside : h < q.total) (enough : 2 * q.total ≤ fuel)
    : ∃ m₀ m₁ i j v, q.medianOfThree m (q.ptr l) (q.ptr (l + (h - l) / 2)) (q.ptr h) = some m₀
        ∧ q.collapse fuel m₀ (q.ptr (l + (h - l) / 2)) (q.ptr (l + 1)) (q.ptr (h - 1))
            = some (m₁, q.ptr i, q.ptr j)
        ∧ Collapsed q m m₁ l h i j v := by
  obtain ⟨m₀, median, part, lowMid, midHigh⟩ :=
    medianOfThree_view (m := m) (l := l) (p := l + (h - l) / 2) ok order inside (by omega)
      (by omega)
  have walls : Walls q m₀ l h (l + 1) (h - 1) (q.view m₀ (l + (h - l) / 2)) := by
    constructor
    · intro x low high
      rwa [show x = l by omega]
    · intro y low high
      rwa [show y = h by omega]
  obtain ⟨m₁, i, j, run, collapsed⟩ :=
    collapse_view (p := l + (h - l) / 2) fuel ok order walls inside (by omega)
      (by omega) (by omega) ⟨by omega, by omega⟩ rfl (by omega)
  exact ⟨m₀, m₁, i, j, _, median, run, { collapsed with part := part.trans collapsed.part }⟩

theorem partitionLoop_round {lo hi mid left right : Nat} {m₀ m₁ : Memory UInt8}
    {top : Nat × Nat} {stack : List (Nat × Nat)} {next : Nat × Nat × List (Nat × Nat)}
    (middle : ptrAdd lo (q.size * ((ptrSub hi lo / q.size) >>> 1)) = mid)
    (median : q.medianOfThree m lo mid hi = some m₀)
    (run : q.collapse fuel m₀ mid (ptrAdd lo q.size) (ptrSub hi q.size) = some (m₁, left, right))
    (following : q.nextPartition lo hi left right top stack = some next)
    : q.partitionLoop (fuel + 1) m lo hi (top :: stack)
      = q.partitionLoop fuel m₁ next.1 next.2.1 next.2.2 := by
  rw [partitionLoop, middle, median, Option.bind_eq_bind, Option.bind_some, run,
    Option.bind_eq_bind, Option.bind_some, following, Option.bind_eq_bind, Option.bind_some]

variable (fuel) in
/-- The loop splits every pending partition. -/
theorem partitionLoop_pending (ok : q.Addressable) (order : TotalPreorder q.cmp)
    (pending : Pending q m parts) (enough : 2 * q.total + work parts < fuel)
    : ∃ m', q.partitionLoop fuel m (q.resume parts).1 (q.resume parts).2.1 (q.resume parts).2.2
          = some m'
        ∧ Rearranged q 0 (q.total - 1) m m' ∧ ∃ c, 1 ≤ c ∧ c ≤ 5 ∧ q.Cut m' c := by
  induction fuel generalizing m parts with
  | zero => omega
  | succ fuel ih =>
    cases parts with
    | nil =>
      refine ⟨m, rfl, .refl, ?_⟩
      rcases pending.first with ⟨h, member, -⟩ | ⟨c, one, five, cut, -⟩
      · exact nomatch member
      · exact ⟨c, one, five, cut⟩
    | cons part parts =>
      obtain ⟨l, h⟩ := part
      obtain ⟨wide, inside⟩ := pending.wide (l, h) (mem_cons_self ..)
      obtain ⟨m₀, m₁, i, j, v, median, run, collapsed⟩ :=
        split_partition (m := m) fuel ok order wide inside (by omega)
      obtain ⟨top, stack, stacked⟩ : ∃ top stack, q.stackOf parts = top :: stack := by
        cases parts with
        | nil => exact ⟨_, _, rfl⟩
        | cons part parts => exact ⟨_, _, rfl⟩
      obtain ⟨parts', next, pending', less⟩ :=
        nextPartition_pending ok order pending collapsed stacked
      obtain ⟨m', loop, part', cut⟩ := ih pending' (by omega)
      have middle : ptrAdd (q.ptr l) (q.size * ((ptrSub (q.ptr h) (q.ptr l) / q.size) >>> 1))
          = q.ptr (l + (h - l) / 2) := by
        have fits : q.ptr (l + (h - l) / 2) < 2 ^ 64 := ok.ptr_lt (by omega)
        rw [ptr_add] at fits ⊢
        rw [ptrSub_ptr_ptr ok (by omega) (by omega), Nat.mul_div_cancel _ ok.positive,
          Nat.shiftRight_one, Nat.mul_comm q.size]
        exact ptrAdd_of_lt fits
      have start : ptrAdd (q.ptr l) q.size = q.ptr (l + 1) := ptrAdd_ptr (ok.ptr_lt (by omega))
      have finish : ptrSub (q.ptr h) q.size = q.ptr (h - 1) := by
        obtain ⟨h', rfl⟩ : ∃ h', h = h' + 1 := ⟨h - 1, by omega⟩
        exact ptrSub_ptr (ok.ptr_lt (by omega))
      refine ⟨m', ?_, ?_, cut⟩
      · rw [← start, ← finish] at run
        rw [resume, stacked, partitionLoop_round middle median run next]
        exact loop
      · exact (collapsed.part.widen (Nat.zero_le l) (by omega)).trans part'

end Nglibc.Sort.QsortCall
