import Nglibc.Sort.Quicksort

/-! What the pointer and byte operations of `_quicksort` do to the elements of the array: the
pointers are `base + i * size` for indices `i`, and every store rearranges elements.
-/

namespace Nglibc.Sort.QsortCall

open Memory

variable {q : QsortCall} {m m' m'' : Memory UInt8} {i j k l h : Nat}

/-- The address of element `i`. -/
def ptr (q : QsortCall) (i : Nat) : Nat := q.base + i * q.size

/-- Element `i`. -/
def view (q : QsortCall) (m : Memory UInt8) (i : Nat) : Element q.size :=
  elementAt m q.size (q.ptr i)

/-- The array is an object of at most `PTRDIFF_MAX` bytes, and neither it nor its first four
elements reach the end of the address space.
-/
structure Addressable (q : QsortCall) : Prop where
  positive : 0 < q.size
  object : q.total * q.size < 2 ^ 63
  fits : q.base + q.total * q.size < 2 ^ 64
  four : q.base + maxThreshElems * q.size < 2 ^ 64

theorem ptr_zero : q.ptr 0 = q.base := by simp [ptr]

theorem ptr_succ : q.ptr (i + 1) = q.ptr i + q.size := by
  unfold ptr
  rw [Nat.succ_mul, Nat.add_assoc]

theorem ptr_add : q.ptr (i + k) = q.ptr i + k * q.size := by
  unfold ptr
  rw [Nat.add_mul, Nat.add_assoc]

theorem ptr_mono (le : i ≤ j) : q.ptr i ≤ q.ptr j :=
  Nat.add_le_add_left (Nat.mul_le_mul_right _ le) _

theorem base_le_ptr : q.base ≤ q.ptr i := Nat.le_add_right _ _

namespace Addressable

variable (ok : q.Addressable)
include ok

theorem ptr_lt (le : i ≤ q.total) : q.ptr i < 2 ^ 64 := Nat.lt_of_le_of_lt (ptr_mono le) ok.fits

theorem ptr_lt_four (le : i ≤ maxThreshElems) : q.ptr i < 2 ^ 64 :=
  Nat.lt_of_le_of_lt (ptr_mono le) ok.four

theorem ptr_lt_iff : q.ptr i < q.ptr j ↔ i < j := by
  unfold ptr
  rw [Nat.add_lt_add_iff_left, Nat.mul_lt_mul_right ok.positive]

theorem ptr_le_iff : q.ptr i ≤ q.ptr j ↔ i ≤ j := by
  unfold ptr
  rw [Nat.add_le_add_iff_left, Nat.mul_le_mul_right_iff ok.positive]

theorem ptr_inj : q.ptr i = q.ptr j ↔ i = j := by
  unfold ptr
  rw [Nat.add_left_cancel_iff, Nat.mul_left_inj (Nat.ne_of_gt ok.positive)]

end Addressable

theorem ptrAdd_of_lt {p n : Nat} (fits : p + n < 2 ^ 64) : ptrAdd p n = p + n := by
  rw [ptrAdd, Nat.mod_eq_of_lt fits]

theorem ptrSub_of_le {p n : Nat} (le : n ≤ p) (fits : p < 2 ^ 64) : ptrSub p n = p - n := by
  unfold ptrSub
  have shift : p + 2 ^ 64 - n = p - n + 2 ^ 64 := by omega
  rw [shift, Nat.add_mod_right, Nat.mod_eq_of_lt (by omega)]

theorem ptrAdd_ptr (fits : q.ptr (i + 1) < 2 ^ 64) : ptrAdd (q.ptr i) q.size = q.ptr (i + 1) := by
  rw [ptr_succ] at fits ⊢
  exact ptrAdd_of_lt fits

theorem ptrSub_ptr (fits : q.ptr (i + 1) < 2 ^ 64) : ptrSub (q.ptr (i + 1)) q.size = q.ptr i := by
  rw [ptrSub_of_le _ fits]
  · rw [ptr_succ, Nat.add_sub_cancel]
  · rw [ptr_succ]
    exact Nat.le_add_left _ _

/-- The bytes between two elements. -/
theorem ptrSub_ptr_ptr (ok : q.Addressable) (le : i ≤ j) (inside : j ≤ q.total)
    : ptrSub (q.ptr j) (q.ptr i) = (j - i) * q.size := by
  rw [ptrSub_of_le (ptr_mono le) (ok.ptr_lt inside)]
  unfold ptr
  rw [Nat.add_sub_add_left, Nat.sub_mul]

theorem lastPtr_eq (ok : q.Addressable) (some : 0 < q.total) : q.lastPtr = q.ptr (q.total - 1) := by
  have last : q.ptr (q.total - 1) < 2 ^ 64 := ok.ptr_lt (by omega)
  unfold ptr at last ⊢
  unfold lastPtr
  rw [Nat.mul_comm q.size, Nat.mod_eq_of_lt (by omega), ptrAdd_of_lt last]

theorem maxThresh_eq (ok : q.Addressable) : q.maxThresh = maxThreshElems * q.size := by
  have four := ok.four
  exact Nat.mod_eq_of_lt (by omega)

theorem inside_iff {p len : Nat}
    : q.inside p len = true ↔ q.base ≤ p ∧ p + len ≤ q.ptr q.total := by
  simp [inside, ptr]

theorem inside_element (lt : i < q.total) : q.inside (q.ptr i) q.size = true := by
  rw [inside_iff, ← ptr_succ]
  exact ⟨base_le_ptr, ptr_mono lt⟩

theorem inside_byte (lt : i < q.total) {d : Nat} (offset : d < q.size)
    : q.inside (q.ptr i + d) 1 = true := by
  have last : q.ptr (i + 1) ≤ q.ptr q.total := ptr_mono lt
  have first : q.base ≤ q.ptr i := base_le_ptr
  rw [ptr_succ] at last
  rw [inside_iff]
  omega

theorem compar_view (left : i < q.total) (right : j < q.total)
    : q.compar m (q.ptr i) (q.ptr j) = some (q.cmp (q.view m i) (q.view m j)) := by
  unfold compar
  rw [inside_element left, inside_element right]
  rfl

/-- Elements with equal bytes. -/
theorem view_eq (same : ∀ d < q.size, m' (q.ptr i + d) = m (q.ptr j + d))
    : q.view m' i = q.view m j :=
  Subtype.ext (slice_eq_slice same)

theorem byte_ne (offset : k < q.size) (offset' : l < q.size) (ne : i ≠ j)
    : q.ptr i + k ≠ q.ptr j + l := by
  rcases Nat.lt_or_gt_of_ne ne with lt | gt
  · have := ptr_mono (q := q) (Nat.succ_le_of_lt lt)
    rw [ptr_succ] at this
    omega
  · have := ptr_mono (q := q) (Nat.succ_le_of_lt gt)
    rw [ptr_succ] at this
    omega

/-- The elements `l..h` of `m` changed places and nothing else changed. -/
structure Rearranged (q : QsortCall) (l h : Nat) (m m' : Memory UInt8) : Prop where
  moved
    : ∃ σ : Equiv.Perm Nat, (∀ k, k < l ∨ h < k → σ k = k) ∧ ∀ k, q.view m' k = q.view m (σ k)
  frame : ∀ x, x < q.base ∨ q.ptr q.total ≤ x → m' x = m x

namespace Rearranged

theorem refl : Rearranged q l h m m :=
  ⟨⟨Equiv.refl Nat, fun _ _ => rfl, fun _ => rfl⟩, fun _ _ => rfl⟩

theorem trans (first : Rearranged q l h m m') (second : Rearranged q l h m' m'')
    : Rearranged q l h m m'' := by
  obtain ⟨σ, fixes, moved⟩ := first.moved
  obtain ⟨τ, fixes', moved'⟩ := second.moved
  refine ⟨⟨τ.trans σ, ?_, ?_⟩, ?_⟩
  · intro k outside
    rw [Equiv.trans_apply, fixes' k outside, fixes k outside]
  · intro k
    rw [moved' k, moved (τ k), Equiv.trans_apply]
  · intro x outside
    rw [second.frame x outside, first.frame x outside]

theorem widen {l' h' : Nat} (part : Rearranged q l h m m') (low : l' ≤ l) (high : h ≤ h')
    : Rearranged q l' h' m m' := by
  obtain ⟨σ, fixes, moved⟩ := part.moved
  exact ⟨⟨σ, fun k outside => fixes k (by omega), moved⟩, part.frame⟩

theorem outside (part : Rearranged q l h m m') (out : k < l ∨ h < k)
    : q.view m' k = q.view m k := by
  obtain ⟨σ, fixes, moved⟩ := part.moved
  rw [moved k, fixes k out]

/-- An element of the interval comes from the interval. -/
theorem source (part : Rearranged q l h m m') (low : l ≤ k) (high : k ≤ h)
    : ∃ x, l ≤ x ∧ x ≤ h ∧ q.view m' k = q.view m x := by
  obtain ⟨σ, fixes, moved⟩ := part.moved
  refine ⟨σ k, ?_, ?_, moved k⟩
  · by_contra below
    have same := σ.injective (fixes (σ k) (by omega))
    omega
  · by_contra above
    have same := σ.injective (fixes (σ k) (by omega))
    omega

theorem swapped (left : l ≤ i ∧ i ≤ h) (right : l ≤ j ∧ j ≤ h)
    (moved : ∀ k, q.view m' k = q.view m (Equiv.swap i j k))
    (frame : ∀ x, x < q.base ∨ q.ptr q.total ≤ x → m' x = m x)
    : Rearranged q l h m m' := by
  refine ⟨⟨Equiv.swap i j, ?_, moved⟩, frame⟩
  intro k outside
  exact Equiv.swap_apply_of_ne_of_ne (by omega) (by omega)

end Rearranged

/-- The byte loop of `SWAP` on equal or disjoint runs of bytes inside the array. -/
theorem swapLoop_eq {n a b : Nat} (apart : a = b ∨ a + n ≤ b ∨ b + n ≤ a)
    (left : q.base ≤ a ∧ a + n ≤ q.ptr q.total) (right : q.base ≤ b ∧ b + n ≤ q.ptr q.total)
    (fits : q.ptr q.total < 2 ^ 64)
    : ∃ m', q.swapLoop n m a b = some m' ∧ ∀ x, m' x = if a ≤ x ∧ x < a + n then m (b + (x - a))
              else if b ≤ x ∧ x < b + n then m (a + (x - b))
              else m x := by
  induction n generalizing m a b with
  | zero =>
    refine ⟨m, rfl, ?_⟩
    intro x
    rw [if_neg (by omega), if_neg (by omega)]
  | succ n ih =>
    have insideA : q.inside a 1 = true := inside_iff.mpr (by omega)
    have insideB : q.inside b 1 = true := inside_iff.mpr (by omega)
    obtain ⟨m', run, cells⟩ :=
      ih (m := (m.store a [m b]).store b [m a]) (a := a + 1) (b := b + 1) (by omega)
        (by omega) (by omega)
    refine ⟨m', ?_, ?_⟩
    · simp only [swapLoop, loadByte, storeByte, insideA, insideB, if_true,
        Option.bind_eq_bind, Option.bind_some]
      rw [ptrAdd_of_lt (by omega), ptrAdd_of_lt (by omega), run]
    · intro x
      rw [cells x]
      simp only [store_singleton]
      by_cases same : a = b
      · subst same
        split_ifs <;> first | rfl | omega | (congr 1; omega)
      · split_ifs <;> first | rfl | omega | (congr 1; omega)

/-- A swap exchanges two elements and touches nothing else. -/
theorem swap_view (ok : q.Addressable) (left : i < q.total) (right : j < q.total)
    : ∃ m', q.swap m (q.ptr i) (q.ptr j) = some m'
        ∧ (∀ k, q.view m' k = q.view m (Equiv.swap i j k))
        ∧ ∀ x, x < q.base ∨ q.ptr q.total ≤ x → m' x = m x := by
  have firstI : q.base ≤ q.ptr i := base_le_ptr
  have firstJ : q.base ≤ q.ptr j := base_le_ptr
  have lastI : q.ptr (i + 1) ≤ q.ptr q.total := ptr_mono left
  have lastJ : q.ptr (j + 1) ≤ q.ptr q.total := ptr_mono right
  rw [ptr_succ] at lastI lastJ
  have apart : q.ptr i = q.ptr j ∨ q.ptr i + q.size ≤ q.ptr j ∨ q.ptr j + q.size ≤ q.ptr i := by
    rcases Nat.lt_trichotomy i j with lt | rfl | gt
    · have := ptr_mono (q := q) (Nat.succ_le_of_lt lt)
      rw [ptr_succ] at this
      exact .inr (.inl this)
    · exact .inl rfl
    · have := ptr_mono (q := q) (Nat.succ_le_of_lt gt)
      rw [ptr_succ] at this
      exact .inr (.inr this)
  obtain ⟨m', run, cells⟩ :=
    swapLoop_eq (m := m) apart ⟨firstI, lastI⟩ ⟨firstJ, lastJ⟩ (ok.ptr_lt le_rfl)
  refine ⟨m', run, ?_, ?_⟩
  · intro k
    apply view_eq
    intro d offset
    rw [cells]
    by_cases isI : k = i
    · subst isI
      rw [Equiv.swap_apply_left, if_pos (by omega), Nat.add_sub_cancel_left]
    · by_cases isJ : k = j
      · subst isJ
        rw [Equiv.swap_apply_right, if_neg, if_pos (by omega), Nat.add_sub_cancel_left]
        intro within
        have other := byte_ne (q := q) (l := q.ptr k + d - q.ptr i) offset (by omega) isI
        omega
      · rw [Equiv.swap_apply_of_ne_of_ne isI isJ, if_neg, if_neg]
        · intro within
          have other := byte_ne (q := q) (l := q.ptr k + d - q.ptr j) offset (by omega) isJ
          omega
        · intro within
          have other := byte_ne (q := q) (l := q.ptr k + d - q.ptr i) offset (by omega) isI
          omega
  · intro x out
    rw [cells, if_neg (by omega), if_neg (by omega)]

theorem swap_rearranged (ok : q.Addressable) (inside : h < q.total) (left : l ≤ i ∧ i ≤ h)
    (right : l ≤ j ∧ j ≤ h)
    : ∃ m', q.swap m (q.ptr i) (q.ptr j) = some m'
        ∧ (∀ k, q.view m' k = q.view m (Equiv.swap i j k)) ∧ Rearranged q l h m m' := by
  obtain ⟨m', run, moved, frame⟩ := swap_view (m := m) (i := i) (j := j) ok (by omega) (by omega)
  exact ⟨m', run, moved, .swapped left right moved frame⟩

/-- Where the element `k` comes from when element `r` moves down to `t`. -/
def rotation (t r : Nat) (le : t ≤ r) : Equiv.Perm Nat where
  toFun k := if k = t then r else if t < k ∧ k ≤ r then k - 1 else k
  invFun k := if k = r then t else if t ≤ k ∧ k < r then k + 1 else k
  left_inv k := by
    simp only
    split_ifs <;> omega
  right_inv k := by
    simp only
    split_ifs <;> omega

/-- One column of bytes moves up from the elements `t..k`, and `c` takes the free place. -/
theorem shiftColumn_eq (ok : q.Addressable) (fuel : Nat) {t d : Nat} {c : UInt8} (low : 0 < t)
    (le : t ≤ k) (inside : k < q.total) (offset : d < q.size) (enough : k - t < fuel)
    : ∃ m', q.shiftColumn (q.ptr t) c fuel m (q.ptr k + d) = some m' ∧ m' (q.ptr t + d) = c
        ∧ (∀ x, t < x → x ≤ k → m' (q.ptr x + d) = m (q.ptr (x - 1) + d))
        ∧ ∀ x, (∀ y, t ≤ y → y ≤ k → x ≠ q.ptr y + d) → m' x = m x := by
  induction fuel generalizing m k with
  | zero => omega
  | succ fuel ih =>
    obtain ⟨k, rfl⟩ : ∃ k', k = k' + 1 := ⟨k - 1, by omega⟩
    have fits : q.ptr (k + 1) + d < 2 ^ 64 := by
      have := ok.ptr_lt (i := k + 1 + 1) (by omega)
      rw [ptr_succ] at this
      omega
    have down : ptrSub (q.ptr (k + 1) + d) q.size = q.ptr k + d := by
      rw [ptrSub_of_le _ fits]
      · rw [ptr_succ]
        omega
      · rw [ptr_succ]
        omega
    simp only [shiftColumn, down]
    by_cases more : t ≤ k
    · have above : q.ptr t ≤ q.ptr k + d := Nat.le_trans (ptr_mono more) (Nat.le_add_right _ _)
      obtain ⟨m', run, first, shifted, rest⟩ :=
        ih (m := m.store (q.ptr (k + 1) + d) [m (q.ptr k + d)]) more (by omega) (by omega)
      refine ⟨m', ?_, first, ?_, ?_⟩
      · simp only [above, if_true, loadByte, storeByte, inside_byte inside offset,
          inside_byte (show k < q.total by omega) offset, Option.bind_eq_bind,
          Option.bind_some]
        exact run
      · intro x lower upper
        by_cases last : x = k + 1
        · subst last
          rw [rest, store_singleton, if_pos rfl, Nat.add_sub_cancel]
          intro y _ upperY
          exact byte_ne offset offset (by omega)
        · rw [shifted x lower (by omega), store_singleton, if_neg]
          exact byte_ne offset offset (by omega)
      · intro x apart
        rw [rest, store_singleton, if_neg (apart (k + 1) (by omega) le_rfl)]
        intro y lower upper
        exact apart y lower (by omega)
    · obtain rfl : t = k + 1 := by omega
      have below : ¬ q.ptr (k + 1) ≤ q.ptr k + d := by
        rw [ptr_succ]
        omega
      refine ⟨m.store (q.ptr (k + 1) + d) [c], ?_, ?_, ?_, ?_⟩
      · simp only [ge_iff_le, below, if_false, storeByte, inside_byte inside offset, if_true]
      · rw [store_singleton, if_pos rfl]
      · intro x lower upper
        omega
      · intro x apart
        rw [store_singleton, if_neg (apart (k + 1) le_rfl le_rfl)]

/-- The columns from the last one down to the first. -/
theorem shiftColumns_eq (ok : q.Addressable) (fuel : Nat) {t r d : Nat} (low : 0 < t)
    (le : t ≤ r) (inside : r < q.total) (offset : d ≤ q.size) (enough : d + (r - t) + 1 < fuel)
    : ∃ m', q.shiftColumns (q.ptr r) (q.ptr t) fuel m (q.ptr r + d) = some m'
        ∧ (∀ e < d, m' (q.ptr t + e) = m (q.ptr r + e)
            ∧ ∀ x, t < x → x ≤ r → m' (q.ptr x + e) = m (q.ptr (x - 1) + e))
        ∧ ∀ x, (∀ y e, t ≤ y → y ≤ r → e < d → x ≠ q.ptr y + e) → m' x = m x := by
  induction fuel generalizing m d with
  | zero => omega
  | succ fuel ih =>
    have positive : 0 < q.ptr r := by
      have := ptr_mono (q := q) (show 1 ≤ r by omega)
      rw [ptr_succ] at this
      have := ok.positive
      omega
    have fits : q.ptr r + d < 2 ^ 64 := by
      have := ok.ptr_lt (i := r + 1) (by omega)
      rw [ptr_succ] at this
      omega
    cases d with
    | zero =>
      refine ⟨m, ?_, fun e lt => absurd lt (Nat.not_lt_zero e), fun _ _ => rfl⟩
      have done : ¬ q.ptr r ≤ ptrSub (q.ptr r + 0) 1 := by
        rw [ptrSub_of_le (by omega) fits]
        omega
      simp only [shiftColumns, ge_iff_le, done, if_false]
    | succ d =>
      have down : ptrSub (q.ptr r + (d + 1)) 1 = q.ptr r + d := by
        rw [ptrSub_of_le (by omega) fits]
        omega
      obtain ⟨m₁, column, first, shifted, rest⟩ :=
        shiftColumn_eq (m := m) (c := m (q.ptr r + d)) ok fuel low le inside
          (show d < q.size by omega) (by omega)
      obtain ⟨m', run, columns, others⟩ := ih (m := m₁) (d := d) (by omega) (by omega)
      refine ⟨m', ?_, ?_, ?_⟩
      · simp only [shiftColumns, down, ge_iff_le, Nat.le_add_right, if_true, loadByte,
          inside_byte inside (show d < q.size by omega), Option.bind_eq_bind,
          Option.bind_some, column, run]
      · intro e lt
        by_cases last : e = d
        · subst last
          -- the later columns do not touch this one
          have apart : ∀ x y e', e' < e → q.ptr x + e ≠ q.ptr y + e' := by
            intro x y e' lt'
            by_cases same : x = y
            · subst same
              omega
            · exact byte_ne (by omega) (by omega) same
          refine ⟨?_, ?_⟩
          · rw [others _ (fun y e' _ _ lt' => apart t y e' lt'), first]
          · intro x lower upper
            rw [others _ (fun y e' _ _ lt' => apart x y e' lt'), shifted x lower upper]
        · have before : e < d := by omega
          have apart : ∀ x y, q.ptr x + e ≠ q.ptr y + d := by
            intro x y
            by_cases same : x = y
            · subst same
              omega
            · exact byte_ne (by omega) (by omega) same
          refine ⟨?_, ?_⟩
          · rw [(columns e before).1, rest _ (fun y _ _ => apart r y)]
          · intro x lower upper
            rw [(columns e before).2 x lower upper, rest _ (fun y _ _ => apart (x - 1) y)]
      · intro x apart
        rw [others, rest]
        · intro y lower upper
          exact apart y d lower upper (by omega)
        · intro y e lower upper lt
          exact apart y e lower upper (by omega)

/-- Element `r` moves down to `t`. -/
theorem shiftColumns_view (ok : q.Addressable) {t r fuel : Nat} (low : 0 < t) (le : t ≤ r)
    (inside : r < q.total) (enough : q.size + r + 1 < fuel)
    : ∃ m', q.shiftColumns (q.ptr r) (q.ptr t) fuel m (ptrAdd (q.ptr r) q.size) = some m'
        ∧ (∀ k, q.view m' k = q.view m (rotation t r le k)) ∧ Rearranged q t r m m' := by
  obtain ⟨m', run, columns, others⟩ :=
    shiftColumns_eq (m := m) ok fuel low le inside (le_refl q.size) (by omega)
  have moved : ∀ k, q.view m' k = q.view m (rotation t r le k) := by
    intro k
    apply view_eq
    intro d offset
    simp only [rotation, Equiv.coe_fn_mk]
    split_ifs with first middle
    · rw [first, (columns d offset).1]
    · rw [(columns d offset).2 k middle.1 middle.2]
    · apply others
      intro y e lower upper offset'
      exact byte_ne offset offset' (by omega)
  refine ⟨m', ?_, moved, ⟨rotation t r le, ?_, moved⟩, ?_⟩
  · rw [ptrAdd_ptr (ok.ptr_lt (by omega)), ptr_succ, run]
  · intro k outside
    simp only [rotation, Equiv.coe_fn_mk]
    split_ifs <;> omega
  · intro x outside
    apply others
    intro y e _ upper offset
    have inside' := inside_iff.mp (inside_byte (q := q) (show y < q.total by omega) offset)
    omega

end Nglibc.Sort.QsortCall
