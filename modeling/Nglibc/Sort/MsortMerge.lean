import Nglibc.Sort.Msort

/-! `msort_with_tmp` leaves the stable sort of its elements, in every variant of the copy. -/

namespace Nglibc.Sort

open Memory List

variable {p : MsortParam} {m m' m₀ : Memory UInt8} {a b n : Nat}

/-- The loop over `unsigned long` copies a whole number of them. -/
theorem copyLongs_eq {tmpl bl k : Nat}
    (apart : tmpl + k * longSize ≤ bl ∨ bl + k * longSize ≤ tmpl)
    : copyLongs m tmpl bl (tmpl + k * longSize) = m.store tmpl (m.slice bl (k * longSize)) := by
  induction k generalizing m tmpl bl with
  | zero =>
    rw [copyLongs, if_neg (by omega), Nat.zero_mul, slice_zero, store_nil]
  | succ k ih =>
    have size : (k + 1) * longSize = longSize + k * longSize := by
      rw [Nat.succ_mul, Nat.add_comm]
    have positive : 0 < longSize := by decide
    rw [size] at apart ⊢
    rw [copyLongs, if_pos (by omega), ← Nat.add_assoc, ih (by omega),
      slice_store_disjoint (by simp only [length_slice]; omega), slice_add]
    have joined := @store_store_append _ m tmpl (m.slice bl longSize)
      (m.slice (bl + longSize) (k * longSize))
    rwa [length_slice] at joined

/-- A parameter block whose copies move whole elements, whose comparison is the order `le` of
the elements that satisfy `valid`, as long as the memory outside of `writable` is that of `m₀`.
-/
structure MsortParam.Orders (p : MsortParam) (m₀ : Memory UInt8) (writable : Nat → Prop)
    (valid : Element p.s → Prop) (le : Element p.s → Element p.s → Bool)
    : Prop where
  width : p.width = p.s
  copy
    : ∀ m tmp b, tmp + p.s ≤ b ∨ b + p.s ≤ tmp → p.copy m tmp b = m.store tmp (m.slice b p.s)
  compare
    : ∀ m a b, (∀ x, ¬ writable x → m x = m₀ x)
        → valid (elementAt m p.s a) → valid (elementAt m p.s b)
        → (p.compare m a b ≤ 0 ↔ le (elementAt m p.s a) (elementAt m p.s b) = true)
  trans : ∀ x y z, le x y = true → le y z = true → le x z = true
  total : ∀ x y, (le x y || le y x) = true

variable {writable : Nat → Prop} {valid : Element p.s → Prop}
  {le : Element p.s → Element p.s → Bool}

open MsortParam (Merge)

/-- The two runs do not meet the part of the buffer that the merge fills. -/
structure Apart (s : Nat) (g : Merge) : Prop where
  first : g.tmp + (g.n1 + g.n2) * s ≤ g.b1 ∨ g.b1 + g.n1 * s ≤ g.tmp
  second : g.tmp + (g.n1 + g.n2) * s ≤ g.b2 ∨ g.b2 + g.n2 * s ≤ g.tmp

/-- What the loop leaves: `k` merged elements in the buffer and what is left of the runs. -/
structure Merged (s : Nat) (le : Element s → Element s → Bool) (g g' : Merge) (k : Nat) : Prop
    where
  output
    : elements g'.m s g.tmp k ++ elements g'.m s g'.b1 g'.n1 ++ elements g'.m s g'.b2 g'.n2
      = (elements g.m s g.b1 g.n1).merge (elements g.m s g.b2 g.n2) le
  ended : g'.n1 = 0 ∨ g'.n2 = 0
  tmp : g'.tmp = g.tmp + k * s
  count : k + g'.n1 + g'.n2 = g.n1 + g.n2
  first : g'.b1 + g'.n1 * s = g.b1 + g.n1 * s ∧ g'.n1 ≤ g.n1
  second : g'.b2 + g'.n2 * s = g.b2 + g.n2 * s ∧ g'.n2 ≤ g.n2
  frame : ∀ x, x < g.tmp ∨ g.tmp + k * s ≤ x → g'.m x = g.m x

/-- One element moves to the buffer. -/
theorem Merged.step {s : Nat} {le : Element s → Element s → Bool} {g g₁ g' : Merge}
    {k : Nat} {e : Element s} (merged : Merged s le g₁ g' k)
    (moved : (elements g.m s g.b1 g.n1).merge (elements g.m s g.b2 g.n2) le
      = e :: (elements g₁.m s g₁.b1 g₁.n1).merge (elements g₁.m s g₁.b2 g₁.n2) le)
    (copied : elementAt g₁.m s g.tmp = e)
    (tmp : g₁.tmp = g.tmp + s)
    (count : g₁.n1 + g₁.n2 + 1 = g.n1 + g.n2)
    (first : g₁.b1 + g₁.n1 * s = g.b1 + g.n1 * s ∧ g₁.n1 ≤ g.n1)
    (second : g₁.b2 + g₁.n2 * s = g.b2 + g.n2 * s ∧ g₁.n2 ≤ g.n2)
    (frame : ∀ x, x < g.tmp ∨ g.tmp + s ≤ x → g₁.m x = g.m x)
    : Merged s le g g' (k + 1) := by
  have size : (k + 1) * s = s + k * s := by rw [Nat.succ_mul, Nat.add_comm]
  have kept : elementAt g'.m s g.tmp = e := by
    rw [← copied]
    apply elementAt_congr
    intro x low high
    exact merged.frame x (.inl (by omega))
  refine ⟨?_, merged.ended, ?_, ?_, ?_, ?_, ?_⟩
  · rw [elements_succ, kept, ← tmp, moved, cons_append, cons_append, merged.output]
  · rw [merged.tmp, tmp, size, Nat.add_assoc]
  · have := merged.count
    omega
  · exact ⟨merged.first.1.trans first.1, Nat.le_trans merged.first.2 first.2⟩
  · exact ⟨merged.second.1.trans second.1, Nat.le_trans merged.second.2 second.2⟩
  · intro x outside
    rw [merged.frame x (by omega), frame x (by omega)]

/-- The copy of an element into the buffer leaves both runs as they are. -/
theorem Apart.copied {s : Nat} {g : Merge} (apart : Apart s g) (more : 0 < g.n1 + g.n2)
    (cells : List UInt8) (size : cells.length = s)
    : elements (g.m.store g.tmp cells) s g.b1 g.n1 = elements g.m s g.b1 g.n1
      ∧ elements (g.m.store g.tmp cells) s g.b2 g.n2 = elements g.m s g.b2 g.n2 := by
  have room : s ≤ (g.n1 + g.n2) * s := Nat.le_mul_of_pos_left s more
  have first := apart.first
  have second := apart.second
  exact ⟨elements_store_disjoint (by omega), elements_store_disjoint (by omega)⟩

section

variable (orders : p.Orders m₀ writable valid le)
include orders

/-- The merge leaves the stable merge of both runs, by induction on what is left of them. -/
theorem mergeLoop_merged (g : Merge) (apart : Apart p.s g)
    (buffer : ∀ x, g.tmp ≤ x → x < g.tmp + (g.n1 + g.n2) * p.s → writable x)
    (outside : ∀ x, ¬ writable x → g.m x = m₀ x) (valid₁ : ∀ e ∈ elements g.m p.s g.b1 g.n1, valid e)
    (valid₂ : ∀ e ∈ elements g.m p.s g.b2 g.n2, valid e)
    : ∃ k, Merged p.s le g (p.mergeLoop g) k := by
  fun_induction MsortParam.mergeLoop p g with
  | case3 g ended =>
    refine ⟨0, ?_, by omega, by simp, by omega, ⟨rfl, le_rfl⟩, ⟨rfl, le_rfl⟩, fun _ _ => rfl⟩
    by_cases none : g.n1 = 0
    · simp [none, elements]
    · have : g.n2 = 0 := by omega
      simp [this, elements]
  | case1 g more taken ih =>
    obtain ⟨m, tmp, b1, b2, n1, n2⟩ := g
    obtain ⟨n1, rfl⟩ : ∃ n, n1 = n + 1 := ⟨n1 - 1, by simp only at more; omega⟩
    obtain ⟨n2, rfl⟩ : ∃ n, n2 = n + 1 := ⟨n2 - 1, by simp only at more; omega⟩
    have size₁ : (n1 + 1) * p.s = p.s + n1 * p.s := by rw [Nat.succ_mul, Nat.add_comm]
    have size : (n1 + 1 + (n2 + 1)) * p.s = p.s + (n1 + (n2 + 1)) * p.s := by ring
    obtain ⟨keep₁, keep₂⟩ := apart.copied (by simp) (m.slice b1 p.s) length_slice
    obtain ⟨first, second⟩ := apart
    simp only [size, size₁] at first second buffer keep₁ keep₂
    have copy := orders.copy m tmp b1 (by omega)
    simp only [orders.width, copy, Nat.add_sub_cancel] at ih ⊢
    obtain ⟨headValid, tailValid⟩ := forall_mem_cons.mp valid₁
    have chosen : le (elementAt m p.s b1) (elementAt m p.s b2) = true :=
      (orders.compare m b1 b2 outside headValid (forall_mem_cons.mp valid₂).1).mp taken
    have tail := (List.cons.inj keep₁).2
    have unchanged
        : ∀ x, ¬ writable x → (m.store tmp (m.slice b1 p.s)) x = m₀ x := by
      intro x out
      refine (store_outside ?_).trans (outside x out)
      by_contra within
      exact out (buffer x (by omega) (by simp only [length_slice] at within; omega))
    obtain ⟨k, merged⟩ := ih ⟨by simp only; omega, by simp only; omega⟩
        (fun x low high => buffer x (by omega) (by omega)) unchanged (by rwa [tail])
        (by rwa [keep₂])
    refine ⟨k + 1, merged.step (e := elementAt m p.s b1) ?_ elementAt_store_slice rfl ?_
      ⟨?_, ?_⟩ ⟨rfl, le_rfl⟩ ?_⟩
    · simp only [keep₂, tail]
      exact cons_merge_cons_pos le _ _ chosen
    · simp only
      omega
    · simp only
      omega
    · simp only
      omega
    · intro x out
      exact store_outside (by simpa using out)
  | case2 g more taken ih =>
    obtain ⟨m, tmp, b1, b2, n1, n2⟩ := g
    obtain ⟨n1, rfl⟩ : ∃ n, n1 = n + 1 := ⟨n1 - 1, by simp only at more; omega⟩
    obtain ⟨n2, rfl⟩ : ∃ n, n2 = n + 1 := ⟨n2 - 1, by simp only at more; omega⟩
    have size₂ : (n2 + 1) * p.s = p.s + n2 * p.s := by rw [Nat.succ_mul, Nat.add_comm]
    have size : (n1 + 1 + (n2 + 1)) * p.s = p.s + (n1 + 1 + n2) * p.s := by ring
    obtain ⟨keep₁, keep₂⟩ := apart.copied (by simp) (m.slice b2 p.s) length_slice
    obtain ⟨first, second⟩ := apart
    simp only [size, size₂] at first second buffer keep₁ keep₂
    have copy := orders.copy m tmp b2 (by omega)
    simp only [orders.width, copy, Nat.add_sub_cancel] at ih ⊢
    obtain ⟨headValid, tailValid⟩ := forall_mem_cons.mp valid₂
    have chosen : ¬ le (elementAt m p.s b1) (elementAt m p.s b2) = true := by
      rwa [← orders.compare m b1 b2 outside (forall_mem_cons.mp valid₁).1 headValid]
    have tail := (List.cons.inj keep₂).2
    have unchanged
        : ∀ x, ¬ writable x → (m.store tmp (m.slice b2 p.s)) x = m₀ x := by
      intro x out
      refine (store_outside ?_).trans (outside x out)
      by_contra within
      exact out (buffer x (by omega) (by simp only [length_slice] at within; omega))
    obtain ⟨k, merged⟩ := ih ⟨by simp only; omega, by simp only; omega⟩
        (fun x low high => buffer x (by omega) (by omega)) unchanged (by rwa [keep₁])
        (by rwa [tail])
    refine ⟨k + 1, merged.step (e := elementAt m p.s b2) ?_ elementAt_store_slice rfl ?_
      ⟨rfl, le_rfl⟩ ⟨?_, ?_⟩ ?_⟩
    · simp only [keep₁, tail]
      exact cons_merge_cons_neg le _ _ chosen
    · simp only
      omega
    · simp only
      omega
    · simp only
      omega
    · intro x out
      exact store_outside (by simpa using out)

/-- The merge of two adjacent sorted runs through the buffer. -/
theorem mergeHalves_elements {n1 n2 : Nat} (apart : p.t + (n1 + n2) * p.s ≤ b ∨ b + (n1 + n2) * p.s ≤ p.t)
    (buffer : ∀ x, p.t ≤ x → x < p.t + (n1 + n2) * p.s → writable x)
    (outside : ∀ x, ¬ writable x → m x = m₀ x) (valids : ∀ e ∈ elements m p.s b (n1 + n2), valid e)
    : elements (p.mergeHalves m b n1 (n1 + n2)) p.s b (n1 + n2)
        = (elements m p.s b n1).merge (elements m p.s (b + n1 * p.s) n2) le
      ∧ ∀ x, x < b ∨ b + (n1 + n2) * p.s ≤ x → x < p.t ∨ p.t + (n1 + n2) * p.s ≤ x
          → p.mergeHalves m b n1 (n1 + n2) x = m x := by
  have size : (n1 + n2) * p.s = n1 * p.s + n2 * p.s := Nat.add_mul n1 n2 p.s
  rw [elements_add, forall_mem_append] at valids
  obtain ⟨k, merged⟩ := mergeLoop_merged orders
      { m, tmp := p.t, b1 := b, b2 := b + n1 * p.s, n1, n2 := n1 + n2 - n1 }
      (by
        rw [Nat.add_sub_cancel_left]
        exact ⟨by simp only; omega, by simp only; omega⟩)
      (by rwa [Nat.add_sub_cancel_left]) outside valids.1
      (by rw [Nat.add_sub_cancel_left]; exact valids.2)
  rw [MsortParam.mergeHalves]
  generalize p.mergeLoop _ = g at merged ⊢
  obtain ⟨output, -, tmp, count, ⟨first, fewer₁⟩, ⟨second, fewer₂⟩, frame⟩ := merged
  simp only [Nat.add_sub_cancel_left] at output tmp count first fewer₁ second fewer₂ frame
  -- the rest of the first run follows the merged elements in the buffer
  have rest
      : (if 0 < g.n1 then g.m.store g.tmp (g.m.slice g.b1 (g.n1 * p.s)) else g.m)
        = g.m.store g.tmp (g.m.slice g.b1 (g.n1 * p.s)) := by
    split
    case isTrue => rfl
    case isFalse none =>
      have : g.n1 = 0 := by omega
      rw [this, Nat.zero_mul, slice_zero, store_nil]
  have copied : n1 + n2 - g.n2 = k + g.n1 := by omega
  have sizes : (k + g.n1) * p.s = k * p.s + g.n1 * p.s := Nat.add_mul k g.n1 p.s
  have total : k * p.s + g.n1 * p.s + g.n2 * p.s = n1 * p.s + n2 * p.s := by
    rw [← size, ← count, Nat.add_mul, Nat.add_mul]
  simp only [rest, copied]
  generalize filled : g.m.store g.tmp (g.m.slice g.b1 (g.n1 * p.s)) = m₁
  have merged₁
      : elements m₁ p.s p.t (k + g.n1) = elements g.m p.s p.t k ++ elements g.m p.s g.b1 g.n1 := by
    rw [elements_add, ← tmp, ← filled, elements_store_slice, elements_store_disjoint]
    exact .inl (by omega)
  refine ⟨?_, ?_⟩
  · have split : n1 + n2 = k + g.n1 + g.n2 := by omega
    have behind : b + (k + g.n1) * p.s = g.b2 := by omega
    rw [← output, split, elements_add, elements_store_slice, merged₁, behind,
      elements_store_disjoint, ← filled, elements_store_disjoint]
    · simp only [length_slice]
      omega
    · simp only [length_slice]
      omega
  · intro x outArray outBuffer
    rw [store_outside (by simp only [length_slice]; omega), ← filled,
      store_outside (by simp only [length_slice]; omega), frame x (by omega)]

/-- `msort_with_tmp` leaves the stable sort of the elements and writes only the array and its
buffer.
-/
theorem msortWithTmp_elements (apart : p.t + n * p.s ≤ b ∨ b + n * p.s ≤ p.t)
    (buffer : ∀ x, p.t ≤ x → x < p.t + n * p.s → writable x)
    (array : ∀ x, b ≤ x → x < b + n * p.s → writable x) (outside : ∀ x, ¬ writable x → m x = m₀ x)
    (valids : ∀ e ∈ elements m p.s b n, valid e)
    : elements (p.msortWithTmp m b n) p.s b n = (elements m p.s b n).mergeSort le
      ∧ ∀ x, x < b ∨ b + n * p.s ≤ x → x < p.t ∨ p.t + n * p.s ≤ x
          → p.msortWithTmp m b n x = m x := by
  induction n using Nat.strong_induction_on generalizing m b with
  | _ n ih =>
    rw [MsortParam.msortWithTmp]
    split
    case isTrue few =>
      refine ⟨?_, fun _ _ _ => rfl⟩
      rcases Nat.le_one_iff_eq_zero_or_eq_one.mp few with rfl | rfl
      · exact mergeSort_nil.symm
      · exact (mergeSort_singleton _).symm
    case isFalse many =>
      simp only
      obtain ⟨n1, n2, n1Eq, rfl⟩ : ∃ n1 n2, n / 2 = n1 ∧ n = n1 + n2 :=
        ⟨n / 2, n - n / 2, rfl, by omega⟩
      have size : (n1 + n2) * p.s = n1 * p.s + n2 * p.s := Nat.add_mul n1 n2 p.s
      rw [n1Eq, Nat.add_sub_cancel_left]
      rw [size] at apart buffer array
      obtain ⟨valid₁, valid₂⟩ := forall_mem_append.mp (elements_add ▸ valids)
      -- the first half
      obtain ⟨sorted₁, frame₁⟩ :=
        @ih n1 (by omega) m b (by omega) (fun x low high => buffer x low (by omega))
          (fun x low high => array x low (by omega)) outside valid₁
      generalize p.msortWithTmp m b n1 = m₁ at sorted₁ frame₁ ⊢
      have second₁ : elements m₁ p.s (b + n1 * p.s) n2 = elements m p.s (b + n1 * p.s) n2 :=
        elements_congr (fun x low high => frame₁ x (by omega) (by omega))
      -- the second half
      obtain ⟨sorted₂, frame₂⟩ := @ih n2 (by omega) m₁ (b + n1 * p.s) (by omega)
          (fun x low high => buffer x low (by omega))
          (fun x low high => array x (by omega) (by omega))
          (by
            intro x out
            rw [← outside x out]
            refine frame₁ x ?_ ?_
            · by_contra within
              exact out (array x (by omega) (by omega))
            · by_contra within
              exact out (buffer x (by omega) (by omega)))
          (by rw [second₁]; exact valid₂)
      generalize p.msortWithTmp m₁ (b + n1 * p.s) n2 = m₂ at sorted₂ frame₂ ⊢
      have first₂ : elements m₂ p.s b n1 = elements m₁ p.s b n1 :=
        elements_congr (fun x low high => frame₂ x (by omega) (by omega))
      -- the merge
      obtain ⟨merged, frame₃⟩ := mergeHalves_elements (m := m₂) (b := b) orders
          (by rw [size]; omega) (by rw [size]; exact buffer)
          (by
            intro x out
            have outArray : x < b ∨ b + (n1 * p.s + n2 * p.s) ≤ x := by
              by_contra within
              exact out (array x (by omega) (by omega))
            have outBuffer : x < p.t ∨ p.t + (n1 * p.s + n2 * p.s) ≤ x := by
              by_contra within
              exact out (buffer x (by omega) (by omega))
            rw [← outside x out, frame₂ x (by omega) (by omega), frame₁ x (by omega) (by omega)])
          (by
            rw [elements_add, first₂, sorted₁, sorted₂, second₁, forall_mem_append]
            constructor
            · intro e member
              exact valid₁ e (mem_mergeSort.mp member)
            · intro e member
              exact valid₂ e (mem_mergeSort.mp member))
      refine ⟨?_, ?_⟩
      · rw [merged, first₂, sorted₁, sorted₂, second₁, elements_add]
        exact merge_mergeSort orders.trans orders.total _ _
      · intro x outArray outBuffer
        rw [frame₃ x outArray outBuffer, frame₂ x (by omega) (by omega),
          frame₁ x (by omega) (by omega)]

end

end Nglibc.Sort
