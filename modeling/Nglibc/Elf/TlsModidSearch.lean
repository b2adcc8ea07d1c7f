import Nglibc.Elf.TlsModid

/-! What the searches through the list of arrays find and change, with the list seen as one array. -/

namespace Nglibc.TlsModid

open List

variable {α : Type}

/-! The search for a gap -/

/-- The inner loop passes over used entries, whose indices are at most the maximum. -/
theorem scan_spec {maxDtvIdx : Nat} (slots : List (Option α)) (result : Nat)
    (below : ∀ i, slots[i]?.join ≠ none → result + i ≤ maxDtvIdx)
    : ∃ r found, scan maxDtvIdx slots result = some (r, found) ∧ result ≤ r
      ∧ (∀ i, result + i < r → slots[i]?.join ≠ none)
      ∧ (found = true → r - result < slots.length ∧ slots[r - result]?.join = none)
      ∧ (found = false → r = result + slots.length) := by
  induction slots generalizing result with
  | nil => exact ⟨result, false, rfl, le_rfl, by simp, nofun, fun _ => rfl⟩
  | cons entry rest ih =>
    cases entry with
    | none =>
      refine ⟨result, true, rfl, le_rfl, fun i less => ?_, ?_, nofun⟩
      · omega
      · intro _
        simp
    | some m =>
      have here : result ≤ maxDtvIdx := below 0 (by simp)
      obtain ⟨r, found, scanned, low, used, free, ended⟩ := ih (result + 1) (fun i isUsed => by
        have := below (i + 1) (by simpa using isUsed)
        omega)
      refine ⟨r, found, ?_, by omega, ?_, ?_, ?_⟩
      · rw [scan, if_pos (by omega), scanned]
      · intro i less
        cases i with
        | zero => simp
        | succ i => simpa using used i (by omega)
      · intro isFree
        obtain ⟨inside, noModule⟩ := free isFree
        have position : r - result = r - (result + 1) + 1 := by omega
        rw [position]
        exact ⟨by simpa using inside, by simpa using noModule⟩
      · intro isEnd
        rw [ended isEnd, length_cons]
        omega

/-- The first index from `result` on that is not used, with its entry marked, if there is one. -/
structure MarksGap (l : α) (list : SlotinfoList α) (disp result r : Nat) (list' : SlotinfoList α)
    : Prop where
  low : result ≤ r
  used : ∀ i, result ≤ i → i < r → slot list (i - disp) ≠ none
  free : slot list (r - disp) = none
  marked : ∀ i, slot list' i = if i = r - disp ∧ r - disp < total list then some l else slot list i
  lengths : list'.map List.length = list.map List.length

variable {l : α} {slots : List (Option α)} {next next' : SlotinfoList α} {disp result r r' : Nat}

/-- A gap behind the first array. -/
theorem MarksGap.cons (gap : MarksGap l next (disp + slots.length) r r' next')
    (high : disp + slots.length ≤ r) (low : result ≤ r)
    (passed : ∀ i, result ≤ i → i < r → slot (slots :: next) (i - disp) ≠ none)
    : MarksGap l (slots :: next) disp result r' (slots :: next') := by
  obtain ⟨le', used, free, marked, lengths⟩ := gap
  have shift : ∀ i, disp + slots.length ≤ i →
      slot (slots :: next) (i - disp) = slot next (i - (disp + slots.length)) := by
    intro i above
    rw [slot_right (by omega), Nat.sub_sub]
  refine ⟨by omega, ?_, ?_, ?_, ?_⟩
  · intro i lowI highI
    by_cases early : i < r
    · exact passed i lowI early
    · rw [shift i (by omega)]
      exact used i (by omega) highI
  · rw [shift r' (by omega)]
    exact free
  · intro i
    rw [total_cons]
    by_cases inside : r' - disp < slots.length + total next
    · have moved : ∀ j, slot next' j
          = if j = r' - disp - slots.length then some l else slot next j := by
        intro j
        rw [marked, Nat.sub_sub]
        exact if_congr (and_iff_left (by omega)) rfl rfl
      rw [slot_cons_congr (by omega) moved]
      exact if_congr (and_iff_left inside).symm rfl rfl
    · rw [if_neg (fun both => inside both.2)]
      by_cases left : i < slots.length
      · rw [slot_left left, slot_left left]
      · have right := Nat.le_of_not_lt left
        rw [slot_right right, slot_right right, marked, if_neg (by omega)]
  · rw [map_cons, map_cons, lengths]

/-- A gap in the first array. -/
theorem MarksGap.set (low : result ≤ r) (bound : r - disp < slots.length)
    (passed : ∀ i, result ≤ i → i < r → slot (slots :: next) (i - disp) ≠ none)
    (noModule : slots[r - disp]?.join = none)
    : MarksGap l (slots :: next) disp result r (slots.set (r - disp) (some l) :: next) := by
  refine ⟨low, passed, ?_, fun i => ?_, ?_⟩
  · rwa [slot_left bound]
  · rw [slot_set bound, total_cons]
    exact if_congr (and_iff_left (by omega)).symm rfl rfl
  · rw [map_cons, map_cons, length_set]

/-- The outer loop yields the first index that is not used and marks its entry, if there is one. -/
theorem findGap_spec {maxDtvIdx : Nat} (list : SlotinfoList α) (disp result : Nat)
    (le : disp ≤ result) (below : ∀ i, slot list i ≠ none → disp + i ≤ maxDtvIdx)
    : ∃ r list', findGap maxDtvIdx l list disp result = some (r, list')
      ∧ MarksGap l list disp result r list' := by
  induction list generalizing disp result with
  | nil =>
    refine ⟨result, [], rfl, le_rfl, fun i low high => by omega, rfl, fun i => ?_, rfl⟩
    rw [if_neg (by simp)]
  | cons slots next ih =>
    have deeper : ∀ r, disp + slots.length ≤ r → result ≤ r →
        (∀ i, result ≤ i → i < r → slot (slots :: next) (i - disp) ≠ none) →
        ∃ r' list', (findGap maxDtvIdx l next (disp + slots.length) r).map
            (fun found => (found.1, slots :: found.2)) = some (r', list')
          ∧ MarksGap l (slots :: next) disp result r' list' := by
      intro r high low passed
      obtain ⟨r', next', found, gap⟩ := ih (disp + slots.length) r high (fun i isUsed => by
        have := below (slots.length + i) (by
          rw [slot_right (Nat.le_add_right _ _), Nat.add_sub_cancel_left]
          exact isUsed)
        omega)
      exact ⟨r', slots :: next', by rw [found]; rfl, gap.cons high low passed⟩
    rw [findGap]
    split
    next inside =>
      obtain ⟨r, found, scanned, low, used, free, ended⟩ :=
        @scan_spec _ maxDtvIdx (slots.drop (result - disp)) result (fun i isUsed => by
          rw [getElem?_drop] at isUsed
          by_cases bound : result - disp + i < slots.length
          · have := below (result - disp + i) (by rwa [slot_left bound])
            omega
          · rw [getElem?_eq_none (by omega)] at isUsed
            exact absurd rfl isUsed)
      have passed : ∀ i, result ≤ i → i < r → slot (slots :: next) (i - disp) ≠ none := by
        intro i lowI highI
        have entry := used (i - result) (by omega)
        rw [getElem?_drop] at entry
        have position : result - disp + (i - result) = i - disp := by omega
        rw [position] at entry
        have bound : i - disp < slots.length := by
          by_contra outside
          rw [getElem?_eq_none (by omega)] at entry
          exact entry rfl
        rwa [slot_left bound]
      cases found with
      | true =>
        obtain ⟨bound, noModule⟩ := free rfl
        rw [length_drop] at bound
        rw [getElem?_drop] at noModule
        have position : result - disp + (r - result) = r - disp := by omega
        rw [position] at noModule
        simp only [scanned]
        exact ⟨r, _, rfl, .set low (by omega) passed noModule⟩
      | false =>
        simp only [scanned]
        have atEnd := ended rfl
        rw [length_drop] at atEnd
        exact deeper r (by omega) low passed
    next outside =>
      exact deeper result (by omega) le_rfl (fun i lowI highI => by omega)

/-! Entering and removing -/

/-- An entry up to the end of the list is entered. The list grows only behind its end, and only when
there is memory.
-/
theorem addToSlotinfo_spec (doAdd malloc : Bool) (list : SlotinfoList α) (idx : Nat)
    (le : idx ≤ total list)
    : ∃ ok list', addToSlotinfo l doAdd malloc list idx = some (ok, list')
      ∧ (∀ i, slot list' i = if i = idx ∧ ok = true ∧ doAdd = true then some l else slot list i)
      ∧ total list ≤ total list'
      ∧ ∃ more, list'.map List.length = list.map List.length ++ more := by
  induction list generalizing idx with
  | nil =>
    obtain rfl : idx = 0 := Nat.le_zero.mp le
    cases malloc with
    | false => exact ⟨false, [], rfl, fun i => by simp, le_rfl, [], rfl⟩
    | true =>
      refine ⟨true, _, rfl, fun i => ?_, Nat.zero_le _, _, (nil_append _).symm⟩
      have fresh : ∀ j, slot [List.replicate surplus (none : Option α)] j = none := by
        intro j
        rw [slot, flatten_singleton, getElem?_replicate]
        split <;> rfl
      cases doAdd with
      | false => simpa [enter] using fresh i
      | true =>
        rw [enter, if_pos rfl, slot_set (by simp [surplus]), fresh]
        simp
  | cons slots next ih =>
    rw [addToSlotinfo]
    split
    next inside =>
      refine ⟨true, _, rfl, fun i => ?_, ?_, [], ?_⟩
      · cases doAdd with
        | false => simp [enter]
        | true =>
          rw [enter, if_pos rfl, slot_set inside]
          simp
      · cases doAdd <;> simp [enter]
      · cases doAdd <;> simp [enter]
    next outside =>
      rw [total_cons] at le
      obtain ⟨ok, list', added, entries, length, more, lengths⟩ :=
        ih (idx - slots.length) (by omega)
      refine ⟨ok, slots :: list', by rw [added]; rfl, fun i => ?_, ?_, more, ?_⟩
      · by_cases entered : ok = true ∧ doAdd = true
        · have moved : ∀ j, slot list' j
              = if j = idx - slots.length then some l else slot next j := by
            intro j
            rw [entries]
            exact if_congr (and_iff_left entered) rfl rfl
          rw [slot_cons_congr (Nat.le_of_not_lt outside) moved]
          exact if_congr (and_iff_left entered).symm rfl rfl
        · rw [if_neg fun both => entered both.2]
          by_cases left : i < slots.length
          · rw [slot_left left, slot_left left]
          · have right := Nat.le_of_not_lt left
            rw [slot_right right, slot_right right, entries, if_neg fun both => entered both.2]
      · simpa using length
      · rw [map_cons, map_cons, lengths, cons_append]

/-- The search inside an array finds the last used entry, or none is used. -/
theorem searchBack_spec (slots : List (Option α)) (bound k : Nat) (le : k ≤ slots.length)
    : ∃ result, searchBack slots bound k = some result
      ∧ (∀ i, result = some i → bound ≤ i ∧ i < k ∧ slots[i]?.join ≠ none
        ∧ ∀ j, i < j → j < k → slots[j]?.join = none)
      ∧ (result = none → ∀ j, bound ≤ j → j < k → slots[j]?.join = none) := by
  induction k with
  | zero => exact ⟨none, rfl, nofun, fun _ j _ less => by omega⟩
  | succ k ih =>
    rw [searchBack]
    split
    next inRange =>
      have inside : k < slots.length := le
      rw [getElem?_eq_getElem inside]
      cases entry : slots[k] with
      | none =>
        obtain ⟨result, searched, found, missing⟩ := ih (by omega)
        have free : slots[k]?.join = none := by
          rw [getElem?_eq_getElem inside, entry]
          rfl
        refine ⟨result, searched, ?_, ?_⟩
        · intro i isFound
          obtain ⟨low, high, used, above⟩ := found i isFound
          refine ⟨low, by omega, used, fun j lowJ highJ => ?_⟩
          by_cases last : j = k
          · rw [last]
            exact free
          · exact above j lowJ (by omega)
        · intro isMissing j lowJ highJ
          by_cases last : j = k
          · rw [last]
            exact free
          · exact missing isMissing j lowJ (by omega)
      | some m =>
        refine ⟨some k, rfl, ?_, nofun⟩
        rintro i ⟨⟩
        refine ⟨by omega, Nat.lt_succ_self k, ?_, fun j lowJ highJ => by omega⟩
        rw [getElem?_eq_getElem inside, entry]
        simp
    next => exact ⟨none, rfl, nofun, fun _ j low high => by omega⟩

/-- What `remove_slotinfo` does to position `k` of a list behind `disp` entries. -/
structure Removes (staticNelem maxDtvIdx disp k : Nat) (list : SlotinfoList α) (r : Removal α)
    : Prop where
  entries : ∀ i, slot r.list i = if i = k then none else slot list i
  lengths : r.list.map List.length = list.map List.length
  middle : k < total list → disp + k ≠ maxDtvIdx → r.found = true ∧ r.maxDtvIdx = maxDtvIdx
  found : ¬ (k < total list ∧ disp + k ≠ maxDtvIdx) → r.found = true →
    ∃ j, r.maxDtvIdx = disp + j ∧ staticNelem + 1 ≤ disp + j ∧ j < k ∧ slot list j ≠ none
      ∧ ∀ i, j < i → i < k → slot list i = none
  missing : r.found = false → ¬ (k < total list ∧ disp + k ≠ maxDtvIdx)
      ∧ ∀ i, staticNelem + 1 ≤ disp + i → i < k → slot list i = none

variable {staticNelem maxDtvIdx : Nat}

/-- The search in one array after nothing is left behind it. -/
theorem search_removes {slots' : List (Option α)} {k k' : Nat}
    (first : disp = 0 ∨ staticNelem + 1 ≤ disp) (le : k' ≤ slots.length) (below : k' ≤ k)
    (last : ¬ (k < total (slots :: next) ∧ disp + k ≠ maxDtvIdx))
    (entries : ∀ i, slot (slots' :: next') i = if i = k then none else slot (slots :: next) i)
    (lengths : (slots' :: next').map List.length = (slots :: next).map List.length)
    (rest : ∀ i, k' ≤ i → i < k → slot (slots :: next) i = none)
    : ∃ r, (searchBack slots' (if disp = 0 then 1 + staticNelem else 0) k').map (fun result =>
          match result with
          | some i => (⟨slots' :: next', disp + i, false, true⟩ : Removal α)
          | none => ⟨slots' :: next', maxDtvIdx, false, false⟩) = some r
        ∧ Removes staticNelem maxDtvIdx disp k (slots :: next) r := by
  have length : slots'.length = slots.length := (List.cons.inj lengths).1
  have same : ∀ i, i < k' → slots'[i]?.join = slot (slots :: next) i := by
    intro i less
    rw [← slot_left (by omega) next', entries, if_neg (by omega)]
  obtain ⟨result, searched, found, missing⟩ :=
    searchBack_spec slots' (if disp = 0 then 1 + staticNelem else 0) k' (by omega)
  rw [searched]
  cases result with
  | some i =>
    obtain ⟨low, high, used, above⟩ := found i rfl
    refine ⟨_, rfl, entries, lengths, fun inside other => (last ⟨inside, other⟩).elim, ?_, nofun⟩
    intro _ _
    refine ⟨i, rfl, ?_, by omega, same i high ▸ used, ?_⟩
    · rcases first with zero | later
      · rw [if_pos zero] at low
        omega
      · omega
    · intro j lowJ highJ
      by_cases inArray : j < k'
      · rw [← same j inArray]
        exact above j lowJ inArray
      · exact rest j (by omega) highJ
  | none =>
    refine ⟨_, rfl, entries, lengths, fun inside other => (last ⟨inside, other⟩).elim,
      fun _ => nofun, fun _ => ⟨last, ?_⟩⟩
    intro i low high
    by_cases inArray : i < k'
    · rw [← same i inArray]
      refine missing rfl i ?_ inArray
      split <;> omega
    · exact rest i (by omega) high

theorem slot_append (slots : List (Option α)) (next : SlotinfoList α) (j : Nat)
    : slot (slots :: next) (slots.length + j) = slot next j := by
  rw [slot_right (Nat.le_add_right _ _), Nat.add_sub_cancel_left]

/-- A removal behind the first array that found a used entry there. -/
theorem Removes.cons {k : Nat} {r : Removal α}
    (removes : Removes staticNelem maxDtvIdx (disp + slots.length) (k - slots.length) next r)
    (beyond : slots.length ≤ k) (found : r.found = true)
    : Removes staticNelem maxDtvIdx disp k (slots :: next) { r with list := slots :: r.list } := by
  refine ⟨slot_cons_congr beyond removes.entries, ?_, ?_, ?_, fun none => absurd none (by simp [found])⟩
  · rw [map_cons, map_cons, removes.lengths]
  · intro inside other
    rw [total_cons] at inside
    exact ⟨found, (removes.middle (by omega) (by omega)).2⟩
  · intro last _
    rw [total_cons] at last
    obtain ⟨j, maximum, low, less, used, above⟩ := removes.found (by omega) found
    refine ⟨slots.length + j, by simp only; omega, by omega, by omega, ?_, ?_⟩
    · rw [slot_append]
      exact used
    · intro i lowI highI
      obtain ⟨q, rfl⟩ := Nat.exists_eq_add_of_le (show slots.length ≤ i by omega)
      rw [slot_append]
      exact above q (by omega) (by omega)

/-- Up to the end of the list a removal stays in bounds. -/
theorem removeSlotinfo_spec {shouldBeThere : Bool} (list : SlotinfoList α) (disp k : Nat)
    (first : disp = 0 ∨ staticNelem + 1 ≤ disp) (nonempty : list ≠ [])
    (head : ∀ slots next, list = slots :: next → disp = 0 → staticNelem + 1 ≤ slots.length)
    (le : k ≤ total list) (there : shouldBeThere = true → k < total list)
    : ∃ r, removeSlotinfo staticNelem maxDtvIdx (disp + k) shouldBeThere list disp = some r
      ∧ Removes staticNelem maxDtvIdx disp k list r := by
  induction list generalizing disp k with
  | nil => exact absurd rfl nonempty
  | cons slots next ih =>
    have position : disp + k - disp = k := Nat.add_sub_cancel_left disp k
    rw [total_cons] at le there
    rw [removeSlotinfo.eq_def]
    simp only [position]
    split
    next beyond =>
      cases next with
      | nil =>
        rw [total_nil] at le there
        have absent : shouldBeThere = false := by
          by_contra isThere
          have := there (by simpa using isThere)
          omega
        simp only [absent, Bool.false_eq_true, if_false]
        refine search_removes first (by omega) (Nat.le_refl k) ?_ ?_ rfl (fun i low high => by omega)
        · rw [total_cons, total_nil]
          omega
        · intro i
          by_cases same : i = k
          · rw [if_pos same, slot_outside]
            rw [total_cons, total_nil]
            omega
          · rw [if_neg same]
      | cons slots₂ next₂ =>
        have deeper : disp + k = disp + slots.length + (k - slots.length) := by omega
        have later : staticNelem + 1 ≤ disp + slots.length := by
          rcases first with zero | large
          · have := head slots _ rfl zero
            omega
          · omega
        obtain ⟨r, removed, removes⟩ := ih (disp + slots.length) (k - slots.length) (.inr later)
          nofun (fun _ _ _ zero => by omega) (by omega) (fun isThere => by have := there isThere; omega)
        rw [← deeper] at removed
        simp only [removed]
        cases found : r.found with
        | true => exact ⟨_, rfl, found ▸ removes.cons beyond found⟩
        | false =>
          obtain ⟨last, free⟩ := removes.missing found
          have lengths : (slots :: r.list).map List.length
              = (slots :: slots₂ :: next₂).map List.length := by
            rw [map_cons, map_cons, removes.lengths]
          refine search_removes first le_rfl (by omega) ?_
            (slot_cons_congr beyond removes.entries) lengths ?_
          · rw [total_cons]
            omega
          · intro i low high
            obtain ⟨q, rfl⟩ := Nat.exists_eq_add_of_le low
            rw [slot_append]
            exact free q (by omega) (by omega)
    next inside =>
      have inside : k < slots.length := Nat.lt_of_not_le inside
      have entries := slot_set inside none next
      have lengths : (slots.set k none :: next).map List.length = (slots :: next).map List.length := by
        simp
      split
      next other =>
        refine ⟨_, rfl, entries, lengths, fun _ _ => ⟨rfl, rfl⟩, ?_, nofun⟩
        intro notMiddle
        rw [total_cons] at notMiddle
        exact absurd ⟨by omega, other⟩ notMiddle
      next isMax =>
        refine search_removes first (by omega) (Nat.le_refl k) ?_ entries lengths
          (fun i low high => by omega)
        omega

end Nglibc.TlsModid
