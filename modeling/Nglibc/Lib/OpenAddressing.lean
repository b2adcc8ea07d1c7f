import Mathlib.Tactic

/-! Hash tables with open addressing: every key has a probe path through all slots, a key is
stored at the first free slot of its path, and no entry is ever removed.
-/

namespace Nglibc

/-- The order in which every key visits the slots of a table. -/
structure ProbeOrder (K S : Type) where
  slots : Finset S
  visit : K → Nat → S
  inside : ∀ k i, visit k i ∈ slots
  covers : ∀ k, ∀ s ∈ slots, ∃ i < slots.card, visit k i = s

/-- One step of double hashing downwards through the slots `1..p`. -/
def stepBack (p h i : Nat) : Nat :=
  if i ≤ h then p + i - h else i - h

variable {p h i n : Nat}

section

variable (below : h ≤ p)
include below

theorem stepBack_mem (mem : i ∈ Finset.Icc 1 p)
    : stepBack p h i ∈ Finset.Icc 1 p := by
  rw [Finset.mem_Icc] at mem ⊢
  unfold stepBack
  split <;> omega

theorem stepBack_iterate_mem (mem : i ∈ Finset.Icc 1 p)
    : (stepBack p h)^[n] i ∈ Finset.Icc 1 p := by
  induction n with
  | zero => exact mem
  | succ n ih =>
    rw [Function.iterate_succ_apply']
    exact stepBack_mem below ih

theorem stepBack_modEq : stepBack p h i + h ≡ i [MOD p] := by
  unfold stepBack
  split
  case isTrue le =>
    have sum : p + i - h + h = i + p := by omega
    rw [sum]
    exact Nat.add_modEq_right
  case isFalse gt =>
    have sum : i - h + h = i := by omega
    rw [sum]

theorem stepBack_iterate_modEq
    : (stepBack p h)^[n] i + n * h ≡ i [MOD p] := by
  induction n with
  | zero => simp [Nat.ModEq.refl]
  | succ n ih =>
    rw [Function.iterate_succ_apply', Nat.succ_mul, Nat.add_comm (n * h), ← Nat.add_assoc]
    exact ((stepBack_modEq below).add_right (n * h)).trans ih

/-- With a step coprime to the number of slots no slot is visited twice in one round. -/
theorem stepBack_iterate_injOn (coprime : p.Coprime h)
    : Set.InjOn (fun n => (stepBack p h)^[n] i) (Finset.range p) := by
  intro n nLt m mLt same
  have eq : (stepBack p h)^[n] i = (stepBack p h)^[m] i := same
  have congruent : n * h ≡ m * h [MOD p] := by
    apply Nat.ModEq.add_left_cancel' ((stepBack p h)^[n] i)
    have right := stepBack_iterate_modEq (n := m) (i := i) below
    rw [← eq] at right
    exact (stepBack_iterate_modEq below).trans right.symm
  have modEq : n ≡ m [MOD p] := Nat.ModEq.cancel_right_of_coprime coprime congruent
  rw [Finset.coe_range] at nLt mLt
  exact modEq.eq_of_lt_of_lt nLt mLt

theorem stepBack_covers (coprime : p.Coprime h) (mem : i ∈ Finset.Icc 1 p) {s : Nat}
    (slot : s ∈ Finset.Icc 1 p)
    : ∃ n < p, (stepBack p h)^[n] i = s := by
  have image : (Finset.range p).image (fun n => (stepBack p h)^[n] i) = Finset.Icc 1 p := by
    apply Finset.eq_of_subset_of_card_le
    · intro s member
      obtain ⟨n, -, rfl⟩ := Finset.mem_image.mp member
      exact stepBack_iterate_mem below mem
    · rw [Finset.card_image_of_injOn (stepBack_iterate_injOn below coprime)]
      simp
  rw [← image] at slot
  obtain ⟨n, nLt, visited⟩ := Finset.mem_image.mp slot
  exact ⟨n, Finset.mem_range.mp nLt, visited⟩

theorem stepBack_iterate_round (mem : i ∈ Finset.Icc 1 p)
    : (stepBack p h)^[p] i = i := by
  have after : (stepBack p h)^[p] i ≡ i [MOD p] := by
    have congruent := stepBack_iterate_modEq (n := p) (i := i) below
    rw [Nat.mul_comm] at congruent
    exact Nat.add_mul_modulus_modEq_iff.mp congruent
  have inside := stepBack_iterate_mem (n := p) below mem
  rw [Finset.mem_Icc] at inside mem
  have shifted : (stepBack p h)^[p] i - 1 ≡ i - 1 [MOD p] := by
    apply Nat.ModEq.add_right_cancel' 1
    rwa [Nat.sub_add_cancel inside.1, Nat.sub_add_cancel mem.1]
  have eq := shifted.eq_of_lt_of_lt (by omega) (by omega)
  omega

end

def ProbeOrder.doubleHash {K : Type} (p : Nat) (start step : K → Nat)
    (inside : ∀ k, start k ∈ Finset.Icc 1 p) (below : ∀ k, step k ≤ p)
    (coprime : ∀ k, p.Coprime (step k))
    : ProbeOrder K Nat where
  slots := Finset.Icc 1 p
  visit k n := (stepBack p (step k))^[n] (start k)
  inside k _ := stepBack_iterate_mem (below k) (inside k)
  covers k s slot := by
    rw [Nat.card_Icc, Nat.add_sub_cancel]
    exact stepBack_covers (below k) (coprime k) (inside k) slot

/-- One step of double hashing upwards through the slots below `p`. -/
def stepOn (p h i : Nat) : Nat :=
  if i + h ≥ p then i + h - p else i + h

/-- Slot `n` of the path from `start` upwards. -/
def pathSlot (p start h n : Nat) : Nat := (start + n * h) % p

theorem pathSlot_zero {start : Nat} (inside : start < p) : pathSlot p start h 0 = start := by
  rw [pathSlot, Nat.zero_mul, Nat.add_zero, Nat.mod_eq_of_lt inside]

theorem pathSlot_lt {start : Nat} (pos : 0 < p) : pathSlot p start h n < p := Nat.mod_lt _ pos

variable {start : Nat}

theorem stepOn_pathSlot (below : h < p)
    : stepOn p h (pathSlot p start h n) = pathSlot p start h (n + 1) := by
  have inside : pathSlot p start h n < p := pathSlot_lt (by omega)
  have next : pathSlot p start h (n + 1) = (pathSlot p start h n + h) % p := by
    rw [pathSlot, pathSlot, Nat.mod_add_mod, Nat.succ_mul, Nat.add_assoc]
  rw [next, stepOn]
  split
  next above => rw [Nat.mod_eq_sub_mod above, Nat.mod_eq_of_lt (by omega)]
  next under => rw [Nat.mod_eq_of_lt (by omega)]

/-- With a step coprime to the number of slots no slot is visited twice in one round. -/
theorem pathSlot_injOn (coprime : p.Coprime h)
    : Set.InjOn (pathSlot p start h) (Finset.range p) := by
  intro n nLt m mLt same
  have congruent : n * h ≡ m * h [MOD p] := Nat.ModEq.add_left_cancel' start same
  have modEq : n ≡ m [MOD p] := Nat.ModEq.cancel_right_of_coprime coprime congruent
  rw [Finset.coe_range] at nLt mLt
  exact modEq.eq_of_lt_of_lt nLt mLt

theorem pathSlot_covers (coprime : p.Coprime h) {s : Nat} (slot : s < p)
    : ∃ n < p, pathSlot p start h n = s := by
  have image : (Finset.range p).image (pathSlot p start h) = Finset.range p := by
    apply Finset.eq_of_subset_of_card_le
    · intro t member
      obtain ⟨n, -, rfl⟩ := Finset.mem_image.mp member
      exact Finset.mem_range.mpr (pathSlot_lt (by omega))
    · rw [Finset.card_image_of_injOn (pathSlot_injOn coprime)]
  have mem : s ∈ (Finset.range p).image (pathSlot p start h) := by
    rw [image]
    exact Finset.mem_range.mpr slot
  obtain ⟨n, nLt, visited⟩ := Finset.mem_image.mp mem
  exact ⟨n, Finset.mem_range.mp nLt, visited⟩

def ProbeOrder.doubleHashOn {K : Type} (p : Nat) (pos : 0 < p) (start step : K → Nat)
    (coprime : ∀ k, p.Coprime (step k))
    : ProbeOrder K Nat where
  slots := Finset.range p
  visit k n := pathSlot p (start k) (step k) n
  inside _ _ := Finset.mem_range.mpr (pathSlot_lt pos)
  covers k s slot := by
    rw [Finset.card_range]
    exact pathSlot_covers (coprime k) (Finset.mem_range.mp slot)

section Tables

variable {K S E : Type} (order : ProbeOrder K S) (key : E → K)

/-- Every entry lies on the path of its key behind occupied slots only, and no two entries
share a key.
-/
structure Probed (table : S → Option E) : Prop where
  reached
    : ∀ s ∈ order.slots, ∀ e, table s = some e
        → ∃ i, order.visit (key e) i = s ∧ ∀ j < i, table (order.visit (key e) j) ≠ none
  unique
    : ∀ s ∈ order.slots, ∀ s' ∈ order.slots, ∀ e e',
        table s = some e → table s' = some e' → key e = key e' → s = s'

/-- No slot holds an entry under `k`. -/
def Absent (table : S → Option E) (k : K) : Prop :=
  ∀ s ∈ order.slots, ∀ e, table s = some e → key e ≠ k

def occupied (table : S → Option E) : Finset S := order.slots.filter (fun s => (table s).isSome)

variable {order key} {table : S → Option E} {k : K} {n : Nat}

theorem Probed.empty : Probed order key (fun _ => none) :=
  ⟨fun _ _ _ h => (nomatch h), fun _ _ _ _ _ _ h => (nomatch h)⟩

/-- The first `n` slots of the path are in use by other keys. -/
def Passed (order : ProbeOrder K S) (key : E → K) (table : S → Option E) (k : K) (n : Nat)
    : Prop :=
  ∀ j < n, ∃ e, table (order.visit k j) = some e ∧ key e ≠ k

theorem Passed.succ (passed : Passed order key table k n) {e : E}
    (used : table (order.visit k n) = some e) (other : key e ≠ k)
    : Passed order key table k (n + 1) := by
  exact Nat.forall_lt_succ_right.mpr ⟨passed, ⟨e, used, other⟩⟩

theorem Probed.absent_of_free (probed : Probed order key table)
    (passed : Passed order key table k n) (free : table (order.visit k n) = none)
    : Absent order key table k := by
  rintro s slot e stored rfl
  obtain ⟨i, rfl, before⟩ := probed.reached s slot e stored
  rcases Nat.lt_trichotomy i n with lt | rfl | gt
  · obtain ⟨e', used, other⟩ := passed i lt
    rw [stored] at used
    exact other (by rw [Option.some.inj used])
  · rw [free] at stored
    exact nomatch stored
  · exact before n gt free

theorem Absent.of_round (passed : Passed order key table k order.slots.card)
    : Absent order key table k := by
  rintro s slot e stored rfl
  obtain ⟨i, lt, rfl⟩ := order.covers (key e) s slot
  obtain ⟨e', used, other⟩ := passed i lt
  rw [stored] at used
  exact other (by rw [Option.some.inj used])

theorem occupied_of_round (passed : Passed order key table k order.slots.card)
    : occupied order table = order.slots := by
  apply Finset.filter_true_of_mem
  intro s slot
  obtain ⟨i, lt, rfl⟩ := order.covers k s slot
  obtain ⟨e, used, -⟩ := passed i lt
  simp [used]

variable [DecidableEq S]

/-- An entry may be stored at the first free slot of its path. -/
theorem Probed.insert (probed : Probed order key table) {e : E}
    (passed : Passed order key table (key e) n)
    (free : table (order.visit (key e) n) = none)
    : Probed order key (Function.update table (order.visit (key e) n) (some e)) := by
  have absent := probed.absent_of_free passed free
  constructor
  · intro s slot e' stored
    by_cases same : s = order.visit (key e) n
    · subst same
      rw [Function.update_self] at stored
      obtain rfl := Option.some.inj stored
      refine ⟨n, rfl, ?_⟩
      intro j lt
      obtain ⟨e', used, -⟩ := passed j lt
      by_cases again : order.visit (key e) j = order.visit (key e) n
      · simp [again]
      · simp [Function.update_of_ne again, used]
    · rw [Function.update_of_ne same] at stored
      obtain ⟨i, rfl, before⟩ := probed.reached s slot e' stored
      refine ⟨i, rfl, ?_⟩
      intro j lt
      by_cases again : order.visit (key e') j = order.visit (key e) n
      · simp [again]
      · rw [Function.update_of_ne again]
        exact before j lt
  · intro s slot s' slot' e₁ e₂ stored stored' keys
    by_cases same : s = order.visit (key e) n <;> by_cases same' : s' = order.visit (key e) n
    · rw [same, same']
    · subst same
      rw [Function.update_self] at stored
      rw [Function.update_of_ne same'] at stored'
      obtain rfl := Option.some.inj stored
      exact absurd keys.symm (absent s' slot' e₂ stored')
    · subst same'
      rw [Function.update_self] at stored'
      rw [Function.update_of_ne same] at stored
      obtain rfl := Option.some.inj stored'
      exact absurd keys (absent s slot e₁ stored)
    · rw [Function.update_of_ne same] at stored
      rw [Function.update_of_ne same'] at stored'
      exact probed.unique s slot s' slot' e₁ e₂ stored stored' keys

theorem card_occupied_insert {s : S} {e : E} (slot : s ∈ order.slots) (free : table s = none)
    : (occupied order (Function.update table s (some e))).card
      = (occupied order table).card + 1 := by
  have added
      : occupied order (Function.update table s (some e)) = insert s (occupied order table) := by
    ext x
    by_cases same : x = s
    · subst same
      simp [occupied, slot]
    · simp [occupied, same]
  rw [added]
  simp [occupied, free]

end Tables

end Nglibc
