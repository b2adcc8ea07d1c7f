import Nglibc.Lib.CyclePermutation
import Nglibc.Sort.MsortMerge

/-! In its merge-sort mode `qsort_r` leaves the stable sort of the array, directly and through
pointers.
-/

namespace Nglibc.Sort.SortCall

open Memory List

variable {c : SortCall} {m m' m₀ : Memory UInt8} {t tp storage : Nat}

/-- The array is an object of at most `PTRDIFF_MAX` bytes inside the address space. -/
structure Object (c : SortCall) : Prop where
  positive : 1 ≤ c.s
  object : c.n * c.s < 2 ^ 63
  fits : c.b + c.n * c.s < 2 ^ 64

/-- Every variant of the direct copy moves whole elements. -/
theorem direct_orders (c : SortCall) (order : TotalPreorder c.cmp) (t : Nat)
    (m₀ : Memory UInt8) (writable : Nat → Prop)
    : MsortParam.Orders { s := c.s, var := c.variant, cmp := c.comparePtrs, t } m₀ writable
        (fun _ => True) (precedes c.cmp) := by
  have variants : c.variant = 0 ∧ c.s = 4 ∨ c.variant = 1 ∧ c.s = 8
      ∨ c.variant = 2 ∧ c.s % longSize = 0 ∨ c.variant = 4 := by
    unfold variant
    split_ifs <;> simp_all
  refine ⟨?_, ?_, ?_, order.precedes_trans, order.precedes_total⟩
  · rcases variants with ⟨var, s⟩ | ⟨var, s⟩ | ⟨var, -⟩ | var <;>
      simp [MsortParam.width, *]
  · intro m tmp b apart
    rcases variants with ⟨var, s⟩ | ⟨var, s⟩ | ⟨var, whole⟩ | var
    · simp [MsortParam.copy, var, s]
    · simp [MsortParam.copy, var, s]
    · have longs : c.s / longSize * longSize = c.s := Nat.div_mul_cancel (Nat.dvd_of_mod_eq_zero whole)
      have copied := copyLongs_eq (m := m) (k := c.s / longSize) (by rw [longs]; exact apart)
      rw [longs] at copied
      simp [MsortParam.copy, var, copied]
    · simp [MsortParam.copy, var]
  · intro m a b _ _ _
    have plain : MsortParam.compare { s := c.s, var := c.variant, cmp := c.comparePtrs, t } m a b
        = c.comparePtrs m a b := by
      rcases variants with ⟨var, -⟩ | ⟨var, -⟩ | ⟨var, -⟩ | var <;>
        simp [MsortParam.compare, var]
    rw [plain]
    simp [precedes, comparePtrs]

theorem sortDirect_elements (order : TotalPreorder c.cmp)
    (apart : t + c.n * c.s ≤ c.b ∨ c.b + c.n * c.s ≤ t)
    : elements (c.sortDirect t m) c.s c.b c.n
      = (elements m c.s c.b c.n).mergeSort (precedes c.cmp) :=
  (msortWithTmp_elements (direct_orders c order t m (fun _ => True)) apart
    (fun _ _ _ => trivial) (fun _ _ _ => trivial) (fun _ out => absurd trivial out)
    (fun _ _ => trivial)).1

theorem slot_lt {i j : Nat} (lt : i < j) : i * pointerSize + pointerSize ≤ j * pointerSize := by
  unfold pointerSize
  omega

theorem loadPointer_store_disjoint {a b : Nat} {cells : List UInt8}
    (disjoint : a + pointerSize ≤ b ∨ b + cells.length ≤ a)
    : loadPointer (m.store b cells) a = loadPointer m a := by
  rw [loadPointer, loadPointer, slice_store_disjoint disjoint]

/-- The loop stores the address of every element. -/
theorem fillPointers_eq (ok : c.Object) (i left : Nat) (inside : i + left ≤ c.n)
    : (∀ x, i ≤ x → x < i + left
        → loadPointer (c.fillPointers tp m i left) (tp + x * pointerSize) = c.b + x * c.s)
      ∧ ∀ a, a < tp + i * pointerSize ∨ tp + (i + left) * pointerSize ≤ a
          → c.fillPointers tp m i left a = m a := by
  induction left generalizing i m with
  | zero => exact ⟨fun x low high => absurd high (by omega), fun _ _ => rfl⟩
  | succ left ih =>
    obtain ⟨filled, frame⟩ :=
      ih (m := storePointer m (tp + i * pointerSize) (c.b + i * c.s)) (i + 1) (by omega)
    have slot := slot_lt (Nat.lt_succ_self i)
    have bound : i * c.s ≤ c.n * c.s := Nat.mul_le_mul_right _ (by omega)
    have fits := ok.fits
    rw [fillPointers]
    refine ⟨?_, ?_⟩
    · intro x low high
      by_cases first : x = i
      · subst first
        have stored : loadPointer (storePointer m (tp + x * pointerSize) (c.b + x * c.s))
            (tp + x * pointerSize) = c.b + x * c.s :=
          loadPointer_storePointer (by omega)
        refine Eq.trans (loadPointer_congr ?_) stored
        intro a lower upper
        exact frame a (.inl (by rw [Nat.succ_eq_add_one] at slot; omega))
      · exact filled x (by omega) (by omega)
    · intro a out
      have last := slot_lt (show i < i + (left + 1) by omega)
      rw [frame a, storePointer, store_outside]
      · simp only [length_pointerBytes]
        omega
      · rw [Nat.succ_eq_add_one] at slot
        rw [show i + 1 + left = i + (left + 1) by omega]
        omega

def pointee (c : SortCall) (m : Memory UInt8) (e : Element pointerSize) : Element c.s :=
  elementAt m c.s (pointerOf e.1)

def IsPointer (c : SortCall) (e : Element pointerSize) : Prop :=
  ∃ x < c.n, pointerOf e.1 = c.b + x * c.s

/-- Case 3 sorts pointers by what they point to, as long as the array stays as it is. -/
theorem indirect_orders (order : TotalPreorder c.cmp) {writable : Nat → Prop}
    (array : ∀ x, c.b ≤ x → x < c.b + c.n * c.s → ¬ writable x)
    : MsortParam.Orders { s := pointerSize, var := 3, cmp := c.comparePtrs, t } m₀ writable
        c.IsPointer (fun e e' => precedes c.cmp (c.pointee m₀ e) (c.pointee m₀ e')) := by
  refine ⟨rfl, fun _ _ _ _ => rfl, ?_, fun _ _ _ => order.precedes_trans _ _ _,
    fun _ _ => order.precedes_total _ _⟩
  intro m a b same left right
  have unchanged : ∀ e, c.IsPointer e → c.pointee m e = c.pointee m₀ e := by
    rintro e ⟨x, lt, pointer⟩
    have bound : (x + 1) * c.s ≤ c.n * c.s := Nat.mul_le_mul_right _ lt
    rw [Nat.succ_mul] at bound
    apply elementAt_congr
    intro y low high
    exact same y (array y (by omega) (by omega))
  simp only [precedes, decide_eq_true_eq, ← unchanged _ left, ← unchanged _ right]
  exact Iff.rfl

/-- The pointers after the sort: the elements they point to are the stable sort of the array,
and every element has one pointer.
-/
theorem sorted_pointers (order : TotalPreorder c.cmp) (ok : c.Object)
    (apart : t + 2 * (c.n * pointerSize) ≤ c.b ∨ c.b + c.n * c.s ≤ t)
    (tpEq : tp = t + c.n * pointerSize)
    (result : m' = MsortParam.msortWithTmp { s := pointerSize, var := 3, cmp := c.comparePtrs, t }
      (c.fillPointers tp m 0 c.n) tp c.n)
    : (elements m' pointerSize tp c.n).map (c.pointee m)
        = (elements m c.s c.b c.n).mergeSort (precedes c.cmp)
      ∧ (∃ f : Fin c.n → Fin c.n, Function.Injective f
          ∧ ∀ x : Fin c.n, loadPointer m' (tp + x * pointerSize) = c.b + f x * c.s)
      ∧ ∀ x, c.b ≤ x → x < c.b + c.n * c.s → m' x = m x := by
  obtain ⟨filled, frame⟩ := fillPointers_eq (m := m) ok 0 c.n (by omega)
  simp only [Nat.zero_add, Nat.zero_mul, Nat.add_zero] at filled frame
  generalize c.fillPointers tp m 0 c.n = m₁ at filled frame result
  have buffers : ∀ x, c.b ≤ x → x < c.b + c.n * c.s
      → ¬ (t ≤ x ∧ x < t + 2 * (c.n * pointerSize)) := by
    intro x low high
    omega
  have address : ∀ x (lt : x < (elements m₁ pointerSize tp c.n).length),
      pointerOf (elements m₁ pointerSize tp c.n)[x].1 = c.b + x * c.s := by
    intro x lt
    rw [getElem_elements]
    exact filled x (Nat.zero_le x) (by simpa using lt)
  have valids : ∀ e ∈ elements m₁ pointerSize tp c.n, c.IsPointer e := by
    intro e member
    obtain ⟨x, lt, rfl⟩ := getElem_of_mem member
    exact ⟨x, by simpa using lt, address x lt⟩
  obtain ⟨sorted, frame'⟩ := msortWithTmp_elements (m := m₁) (n := c.n) (b := tp)
      (indirect_orders (t := t) order buffers) (.inl (by simp only; omega))
      (fun x low high => ⟨low, by simp only at high; omega⟩)
      (fun x low high => ⟨by omega, by simp only at high; omega⟩)
      (fun x out => frame x (by omega)) valids
  rw [← result] at sorted frame'
  simp only at sorted frame'
  refine ⟨?_, ?_, ?_⟩
  · have pointees : (elements m₁ pointerSize tp c.n).map (c.pointee m) = elements m c.s c.b c.n := by
      apply ext_getElem (by simp)
      intro x left right
      rw [getElem_map, pointee, address, getElem_elements]
    rw [sorted, map_mergeSort (s := precedes c.cmp) (fun _ _ _ _ => rfl), pointees]
  · -- the addresses are a permutation of the addresses of the elements
    have perm : ((elements m' pointerSize tp c.n).map (fun e => pointerOf e.1)).Perm
        ((List.range c.n).map (fun x => c.b + x * c.s)) := by
      have start : (elements m₁ pointerSize tp c.n).map (fun e => pointerOf e.1)
          = (List.range c.n).map (fun x => c.b + x * c.s) := by
        apply ext_getElem (by simp)
        intro x left right
        rw [getElem_map, getElem_map, getElem_range, address]
      rw [sorted, ← start]
      exact (mergeSort_perm _ _).map _
    have distinct : ((elements m' pointerSize tp c.n).map (fun e => pointerOf e.1)).Nodup := by
      refine perm.nodup_iff.mpr (nodup_range.map ?_)
      intro x y same
      exact Nat.eq_of_mul_eq_mul_right ok.positive (Nat.add_left_cancel same)
    have target : ∀ x : Fin c.n, ∃ y : Fin c.n,
        loadPointer m' (tp + x * pointerSize) = c.b + y * c.s := by
      intro x
      have member : loadPointer m' (tp + x * pointerSize)
          ∈ (elements m' pointerSize tp c.n).map (fun e => pointerOf e.1) := by
        have inside : x.1 < (elements m' pointerSize tp c.n).length := by simp
        refine mem_map.mpr ⟨(elements m' pointerSize tp c.n)[x.1], ?_, ?_⟩
        · exact getElem_mem inside
        · rw [getElem_elements]
          rfl
      obtain ⟨y, lt, same⟩ := mem_map.mp (perm.mem_iff.mp member)
      exact ⟨⟨y, mem_range.mp lt⟩, same.symm⟩
    choose f hf using target
    refine ⟨f, ?_, hf⟩
    intro x y same
    have equal : loadPointer m' (tp + x * pointerSize) = loadPointer m' (tp + y * pointerSize) := by
      rw [hf, hf, same]
    have left : x.1 < ((elements m' pointerSize tp c.n).map (fun e => pointerOf e.1)).length := by
      simp
    have right : y.1 < ((elements m' pointerSize tp c.n).map (fun e => pointerOf e.1)).length := by
      simp
    apply Fin.ext
    apply (@List.Nodup.getElem_inj_iff _ _ distinct x.1 left y.1 right).mp
    rw [getElem_map, getElem_map, getElem_elements, getElem_elements]
    exact equal
  · intro x low high
    rw [frame' x (by omega) (by omega), frame x (by omega)]

/-- The pointers, the saved element and the array lie apart from each other. -/
structure Regions (c : SortCall) (tp storage : Nat) : Prop where
  pointers : tp + c.n * pointerSize ≤ storage
  array : storage + c.s ≤ c.b ∧ tp ≤ storage ∨ c.b + c.n * c.s ≤ tp

/-- The memory shows these places: targets as pointers and values as elements. -/
structure Shows (c : SortCall) (tp : Nat) (m : Memory UInt8) (P : Places (Fin c.n) (Element c.s))
    : Prop where
  target : ∀ x : Fin c.n, loadPointer m (tp + x * pointerSize) = c.b + P.target x * c.s
  value : ∀ x : Fin c.n, elementAt m c.s (c.b + x * c.s) = P.value x

theorem element_bound (x : Fin c.n) : x * c.s + c.s ≤ c.n * c.s := by
  rw [← Nat.succ_mul]
  exact Nat.mul_le_mul_right _ x.2

theorem element_apart {x y : Fin c.n} (ne : x ≠ y)
    : x * c.s + c.s ≤ y * c.s ∨ y * c.s + c.s ≤ x * c.s := by
  rw [← Nat.succ_mul, ← Nat.succ_mul]
  rcases Nat.lt_or_gt_of_ne (Fin.val_ne_of_ne ne) with lt | gt
  · exact .inl (Nat.mul_le_mul_right _ lt)
  · exact .inr (Nat.mul_le_mul_right _ gt)

variable {P : Places (Fin c.n) (Element c.s)}

section

variable (ok : c.Object)
include ok

/-- `tp[j] = jp` and the copy of an element to `jp` settle the place `j`. -/
theorem Shows.settle (regions : Regions c tp storage) (shows_ : Shows c tp m P) (j : Fin c.n) {src : Nat}
    {v : Element c.s} (apart : src + c.s ≤ tp ∨ tp + c.n * pointerSize ≤ src)
    (holds : elementAt m c.s src = v)
    (result : m' = (storePointer m (tp + j * pointerSize) (c.b + j * c.s)).store (c.b + j * c.s)
      ((storePointer m (tp + j * pointerSize) (c.b + j * c.s)).slice src c.s))
    : Shows c tp m' (P.settle j v) ∧ elementAt m' c.s storage = elementAt m c.s storage := by
  have bound := element_bound j
  have slot := slot_lt j.2
  have fits := ok.fits
  obtain ⟨pointers, array⟩ := regions
  have copied : (storePointer m (tp + j * pointerSize) (c.b + j * c.s)).slice src c.s
      = m.slice src c.s :=
    slice_store_disjoint (by simp only [length_pointerBytes]; omega)
  rw [copied, storePointer] at result
  refine ⟨⟨?_, ?_⟩, ?_⟩
  · intro x
    have slotX := slot_lt x.2
    rw [result, loadPointer_store_disjoint (by simp only [length_slice]; omega)]
    by_cases same : x = j
    · subst same
      simp only [Places.settle, Function.update_self]
      exact loadPointer_storePointer (m := m) (by omega)
    · simp only [Places.settle, Function.update_of_ne same]
      rw [loadPointer_store_disjoint, shows_.target x]
      simp only [length_pointerBytes]
      rcases Nat.lt_or_gt_of_ne (Fin.val_ne_of_ne same) with lt | gt
      · have := slot_lt lt
        omega
      · have := slot_lt gt
        omega
  · intro x
    have boundX := element_bound x
    rw [result]
    by_cases same : x = j
    · subst same
      simp only [Places.settle, Function.update_self]
      rw [elementAt_store_slice, holds]
    · simp only [Places.settle, Function.update_of_ne same]
      have := element_apart same
      rw [elementAt_store_disjoint (by simp only [length_slice]; omega),
        elementAt_store_disjoint (by simp only [length_pointerBytes]; omega), shows_.value x]
  · rw [result, elementAt_store_disjoint (by simp only [length_slice]; omega),
      elementAt_store_disjoint (by simp only [length_pointerBytes]; omega)]

theorem element_index (x : Fin c.n) : (c.b + x * c.s - c.b) / c.s = x := by
  rw [Nat.add_sub_cancel_left, Nat.mul_div_cancel _ ok.positive]

theorem address_inj {x y : Fin c.n}
    : c.b + x * c.s = c.b + y * c.s ↔ x = y := by
  rw [Nat.add_left_cancel_iff, Nat.mul_left_inj (Nat.ne_of_gt ok.positive), Fin.val_inj]

/-- The loop over the pointers follows the cycle that the places show. -/
theorem followCycle_shows {P P' : Places (Fin c.n) (Element c.s)} (regions : Regions c tp storage)
    (shows_ : Shows c tp m P) {i j k : Fin c.n} (fuel : Nat) {saved : Element c.s}
    (kept : elementAt m c.s storage = saved) (followed : Places.followCycle i saved fuel P j k = some P')
    : ∃ m', c.followCycle tp storage (c.b + i * c.s) fuel m j (c.b + j * c.s) (c.b + k * c.s)
          = some m'
        ∧ Shows c tp m' P' := by
  induction fuel generalizing m P j k with
  | zero => exact nomatch followed
  | succ fuel ih =>
    have bound := element_bound k
    have array : c.b + k * c.s + c.s ≤ tp ∨ tp + c.n * pointerSize ≤ c.b + k * c.s := by
      obtain ⟨pointers, array⟩ := regions
      omega
    obtain ⟨shown, same⟩ := shows_.settle ok regions j array (shows_.value k) rfl
    rw [Places.followCycle] at followed
    rw [followCycle, element_index ok]
    simp only [shown.target k, ne_eq, address_inj ok]
    split
    case isTrue more =>
      rw [if_pos more] at followed
      exact ih shown (same.trans kept) followed
    case isFalse done =>
      rw [if_neg done] at followed
      obtain rfl := Option.some.inj followed
      refine ⟨_, rfl, ?_⟩
      exact (shown.settle ok regions k (.inr regions.pointers) (same.trans kept) rfl).1

/-- One round of the loop over the elements settles one more element. -/
theorem settle_shows {f : Fin c.n → Fin c.n} {orig : Fin c.n → Element c.s} {settled : Set (Fin c.n)}
    {fuel : Nat} (regions : Regions c tp storage) (injective : Function.Injective f) (enough : c.n ≤ fuel)
    (shows_ : Shows c tp m P) (state : Places.Settled f orig settled P) (closed : Places.Closed f settled)
    (i : Fin c.n)
    : ∃ m' P' settled', c.settle tp storage fuel i m = some m' ∧ Shows c tp m' P'
        ∧ Places.Settled f orig settled' P' ∧ Places.Closed f settled'
        ∧ settled ⊆ settled' ∧ i ∈ settled' := by
  obtain ⟨pointers, array⟩ := id regions
  simp only [settle, shows_.target i, ne_eq, address_inj ok]
  split
  case isFalse done =>
    have fixed : P.target i = i := not_not.mp done
    by_cases member : i ∈ settled
    · exact ⟨m, P, settled, rfl, shows_, state, closed, subset_rfl, member⟩
    · have stays : f i = i := (state.outside i member).1.symm.trans fixed
      obtain ⟨state', closed'⟩ := state.fixed injective closed stays
      exact ⟨m, P, _, rfl, shows_, state', closed', Set.subset_insert _ _, .inl rfl⟩
  case isTrue moves =>
    have fresh : i ∉ settled := fun member => moves (state.inside i member).1
    obtain ⟨target, value⟩ := state.outside i fresh
    have saved : Shows c tp (m.store storage (m.slice (c.b + i * c.s) c.s)) P := by
      constructor
      · intro x
        have slotX := slot_lt x.2
        rw [loadPointer_store_disjoint (by simp only [length_slice]; omega), shows_.target x]
      · intro x
        have boundX := element_bound x
        rw [elementAt_store_disjoint (by simp only [length_slice]; omega), shows_.value x]
    have kept : elementAt (m.store storage (m.slice (c.b + i * c.s) c.s)) c.s storage = orig i := by
      rw [elementAt_store_slice, shows_.value i, value]
    obtain ⟨P', settled', followed, state', closed', grows, member⟩ :=
      Places.followCycle_settled injective closed fresh (target ▸ moves)
        ((Fintype.card_fin c.n).trans_le enough) state
    obtain ⟨m', run, shown⟩ := followCycle_shows ok regions saved fuel kept followed
    refine ⟨m', P', settled', ?_, shown, state', closed', grows, member⟩
    rw [target]
    exact run

/-- After the loop every element is the one its pointer named. -/
theorem permute_shows {f : Fin c.n → Fin c.n} {orig : Fin c.n → Element c.s} {settled : Set (Fin c.n)}
    {fuel : Nat} (regions : Regions c tp storage) (injective : Function.Injective f) (enough : c.n ≤ fuel)
    (i left : Nat) (count : i + left = c.n) (shows_ : Shows c tp m P)
    (state : Places.Settled f orig settled P) (closed : Places.Closed f settled)
    (done : ∀ x : Fin c.n, x < i → x ∈ settled)
    : ∃ m', c.permute tp storage fuel i left m = some m'
        ∧ ∀ x : Fin c.n, elementAt m' c.s (c.b + x * c.s) = orig (f x) := by
  induction left generalizing i m P settled with
  | zero =>
    refine ⟨m, rfl, ?_⟩
    intro x
    rw [shows_.value x]
    exact (state.inside x (done x (by omega))).2
  | succ left ih =>
    obtain ⟨m₁, P₁, settled₁, run₁, shows₁, state₁, closed₁, grows, member⟩ :=
      settle_shows ok regions injective enough shows_ state closed
        ⟨i, by omega⟩
    obtain ⟨m', run, values⟩ := ih (i + 1) (by omega) shows₁ state₁ closed₁ (by
      intro x lt
      by_cases last : x.1 = i
      · have : x = ⟨i, by omega⟩ := Fin.ext last
        rw [this]
        exact member
      · exact grows (done x (by omega)))
    refine ⟨m', ?_, values⟩
    rw [permute, run₁, Option.bind_eq_bind, Option.bind_some, run]

end

/-- Pointers sorted first, then the elements moved along the cycles. -/
theorem sortIndirect_elements (order : TotalPreorder c.cmp) (ok : c.Object) {fuel : Nat}
    (enough : c.n ≤ fuel)
    (apart : t + (2 * c.n * pointerSize + c.s) ≤ c.b ∨ c.b + c.n * c.s ≤ t)
    : ∃ m', c.sortIndirect fuel t m = some m'
        ∧ elements m' c.s c.b c.n = (elements m c.s c.b c.n).mergeSort (precedes c.cmp) := by
  have sizes : 2 * c.n * pointerSize = c.n * pointerSize + c.n * pointerSize := by ring
  simp only [sortIndirect]
  generalize result : MsortParam.msortWithTmp
    { s := pointerSize, var := 3, cmp := c.comparePtrs, t }
    (c.fillPointers (t + c.n * pointerSize) m 0 c.n) (t + c.n * pointerSize) c.n = m₁
  obtain ⟨sorted, ⟨f, injective, targets⟩, unchanged⟩ :=
    sorted_pointers (m := m) order ok (by omega) rfl result.symm
  have same : ∀ x : Fin c.n, elementAt m₁ c.s (c.b + x * c.s) = elementAt m c.s (c.b + x * c.s) := by
    intro x
    have bound := element_bound x
    exact elementAt_congr (fun y low high => unchanged y (by omega) (by omega))
  have shows_ : Shows c (t + c.n * pointerSize) m₁
      { target := f, value := fun x => elementAt m c.s (c.b + x * c.s) } :=
    ⟨targets, same⟩
  have state : Places.Settled f (fun x : Fin c.n => elementAt m c.s (c.b + x * c.s)) ∅
      { target := f, value := fun x => elementAt m c.s (c.b + x * c.s) } :=
    ⟨fun _ member => absurd member (Set.notMem_empty _), fun _ _ => ⟨rfl, rfl⟩⟩
  have regions : Regions c (t + c.n * pointerSize) (t + c.n * pointerSize + c.n * pointerSize) :=
    ⟨le_rfl, by omega⟩
  obtain ⟨m', run, values⟩ :=
    permute_shows ok regions injective enough 0 c.n (Nat.zero_add _) shows_ state
      (fun _ => Iff.rfl) (fun x lt => absurd lt (Nat.not_lt_zero _))
  refine ⟨m', run, ?_⟩
  rw [← sorted]
  apply ext_getElem (by simp)
  intro x left right
  have lt : x < c.n := by simpa using left
  have value := values ⟨x, lt⟩
  have target := targets ⟨x, lt⟩
  rw [getElem_elements, value, getElem_map, getElem_elements]
  rw [← target]
  rfl

/-- In its merge-sort mode, with a temporary array apart from the array, `__qsort_r` ends and
leaves the one stable sort of the array.
-/
theorem qsortR_stable (order : TotalPreorder c.cmp) (ok : c.Object) {sys : Platform}
    (mode : c.temporary sys = some t)
    (apart : t + c.tmpSize ≤ c.b ∨ c.b + c.n * c.s ≤ t) (m : Memory UInt8) {fuel : Nat}
    (enough : c.n ≤ fuel)
    : ∃ m', c.qsortR sys fuel m = some m'
        ∧ StableSorted (precedes c.cmp) (elements m c.s c.b c.n) (elements m' c.s c.b c.n)
        ∧ ∀ other, StableSorted (precedes c.cmp) (elements m c.s c.b c.n) other
            → other = elements m' c.s c.b c.n := by
  have stable := stableSorted_mergeSort order.precedes_trans order.precedes_total
    (elements m c.s c.b c.n)
  suffices sorts : ∃ m', c.qsortR sys fuel m = some m'
      ∧ elements m' c.s c.b c.n = (elements m c.s c.b c.n).mergeSort (precedes c.cmp) by
    obtain ⟨m', run, sorted⟩ := sorts
    rw [← sorted] at stable
    exact ⟨m', run, stable, fun other => stable.unique⟩
  have object := ok.object
  rw [qsortR, mode]
  simp only
  unfold tmpSize at apart
  split
  case isTrue large =>
    by_cases none : c.n = 0
    · -- there is nothing to sort, whatever the size of the elements
      refine ⟨m, ?_, ?_⟩
      · simp only [sortIndirect, none, fillPointers, permute]
        rw [MsortParam.msortWithTmp, if_pos (by omega)]
      · rw [none]
        exact mergeSort_nil.symm
    · have one : c.s ≤ c.n * c.s := Nat.le_mul_of_pos_left _ (by omega)
      have many : c.n * 33 ≤ c.n * c.s := Nat.mul_le_mul_left _ large
      have fits : 2 * c.n * pointerSize + c.s < 2 ^ 64 := by
        unfold pointerSize
        omega
      rw [if_pos large, Nat.mod_eq_of_lt fits] at apart
      exact sortIndirect_elements order ok enough apart
  case isFalse small =>
    rw [if_neg small, Nat.mod_eq_of_lt (by omega)] at apart
    exact ⟨_, rfl, sortDirect_elements order apart⟩

def wideElements : SortCall :=
  { b := 4096, n := 2, s := 40, cmp := byFirstByte }

theorem qsortR_stable_wideElements
    : wideElements.temporary { physPages := -1, pagesize := 4096, stack := 65536, heap := none }
        = some 65536
      ∧ ∃ m', wideElements.qsortR
            { physPages := -1, pagesize := 4096, stack := 65536, heap := none } 2
            (fun x => if x = 4096 then 1 else 0)
          = some m'
        ∧ StableSorted (precedes byFirstByte)
            (elements (fun x => if x = 4096 then 1 else 0) 40 4096 2) (elements m' 40 4096 2)
        ∧ ∀ other, StableSorted (precedes byFirstByte)
              (elements (fun x => if x = 4096 then 1 else 0) 40 4096 2) other
            → other = elements m' 40 4096 2 :=
  ⟨rfl, qsortR_stable (c := wideElements) byFirstByte_order
    ⟨by decide, by decide, by decide⟩ rfl (.inr (by decide)) _ (by decide)⟩

end Nglibc.Sort.SortCall
