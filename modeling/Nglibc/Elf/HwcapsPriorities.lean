import Mathlib.Data.List.Forall2
import Mathlib.Data.List.Count

/-! The priorities of the hardware capabilities in the cache, `elf/dl-cache.c`: a merge of the strings of
the extension section with the sorted array of the active capabilities.
-/

namespace Nglibc.Hwcaps

open List

/-- `struct dl_hwcaps_priority`. -/
structure Capability where
  name : List UInt8
  priority : Nat
  positive : 0 < priority

/-- The cache file: its size, and the strings at its indexes. -/
structure Cache where
  size : Nat
  string : UInt32 → List UInt8

/-- `memcmp` for blocks of one length. -/
def memcmp : List UInt8 → List UInt8 → Ordering
  | a :: x, b :: y => if a = b then memcmp x y else compare a b
  | _, _ => .eq

def glibcHwcapsCompare (left right : List UInt8) : Ordering :=
  let toCompare := if left.length < right.length then left.length else right.length
  let cmp := memcmp (left.take toCompare) (right.take toCompare)
  if cmp ≠ .eq then cmp
  else if left.length < right.length then .lt
  else if left.length > right.length then .gt
  else .eq

/-- The loops of `glibc_hwcaps_priorities_init`: what they write behind the first `written` elements
of an array of `size`, none if this leaves the array.
-/
def mergeLoop (cache : Cache) (size : Nat)
    : Nat → List UInt32 → List Capability → Nat → Option (List Nat)
  | 0, _, _, _ => none
  | _ + 1, [], _, _ => some []
  | fuel + 1, _ :: left, [], written =>
    if written < size then (mergeLoop cache size fuel left [] (written + 1)).map (0 :: ·) else none
  | fuel + 1, l :: left, r :: right, written =>
    if l.toNat < cache.size then
      match glibcHwcapsCompare (cache.string l) r.name with
      | .eq =>
        if written < size then
          (mergeLoop cache size fuel left right (written + 1)).map (r.priority :: ·)
        else none
      | .lt =>
        if written < size then
          (mergeLoop cache size fuel left (r :: right) (written + 1)).map (0 :: ·)
        else none
      | .gt => mergeLoop cache size fuel (l :: left) right written
    else if written < size then
      (mergeLoop cache size fuel (l :: left) (r :: right) (written + 1)).map (0 :: ·)
    else none

/-- `glibc_hwcaps_priorities_init` for the indexes of the section, where the array has `allocated`
elements so far and a larger one can be allocated.
-/
def glibcHwcapsPrioritiesInit (cache : Cache) (allocated fuel : Nat) (indexes : List UInt32)
    (capabilities : List Capability)
    : Option (List Nat) :=
  let size := if indexes.length > allocated then indexes.length else allocated
  mergeLoop cache size fuel indexes capabilities 0

/-- The priority of a capability with the name, or 0 if there is none or the index is not valid. -/
def Assigned (cache : Cache) (capabilities : List Capability) (index : UInt32) (priority : Nat) : Prop :=
  if index.toNat < cache.size then
    (∃ c ∈ capabilities, c.name = cache.string index ∧ priority = c.priority)
      ∨ (∀ c ∈ capabilities, c.name ≠ cache.string index) ∧ priority = 0
  else priority = 0

def AssignsAll (cache : Cache) (allocated : Nat) (indexes : List UInt32)
    (capabilities : List Capability)
    : Prop :=
  ∃ fuel priorities,
    glibcHwcapsPrioritiesInit cache allocated fuel indexes capabilities = some priorities
    ∧ List.Forall₂ (Assigned cache capabilities) indexes priorities

/-- The strings at the valid indexes. -/
def Cache.strings (cache : Cache) (indexes : List UInt32) : List (List UInt8) :=
  (indexes.filter fun l => l.toNat < cache.size).map cache.string

/-- The strings in front of the first index that is not valid. -/
def Cache.front (cache : Cache) (indexes : List UInt32) : List (List UInt8) :=
  (indexes.takeWhile fun l => l.toNat < cache.size).map cache.string

def Sorted (names : List (List UInt8)) : Prop := names.Pairwise fun a b => (compare a b).isLE = true

private theorem glibcHwcapsCompare_eq (left right : List UInt8)
    : glibcHwcapsCompare left right = compare left right := by
  induction left generalizing right with
  | nil => cases right <;> rfl
  | cons a left ih =>
    cases right with
    | nil => rfl
    | cons b right =>
      have common : (if (a :: left).length < (b :: right).length then (a :: left).length
          else (b :: right).length)
          = (if left.length < right.length then left.length else right.length) + 1 := by
        simp only [length_cons, Nat.add_lt_add_iff_right]
        split_ifs <;> rfl
      have lexicographic : compare (a :: left) (b :: right)
          = if a = b then compare left right else compare a b := by
        show List.compareLex compare (a :: left) (b :: right) = _
        rw [List.compareLex_cons_cons]
        split_ifs with same
        · rw [same, Std.ReflOrd.compare_self]
          rfl
        · cases order : compare a b with
          | eq => exact absurd (Std.LawfulEqOrd.eq_of_compare order) same
          | lt => rfl
          | gt => rfl
      rw [lexicographic, ← ih right]
      unfold glibcHwcapsCompare
      rw [common]
      simp only [take_succ_cons, memcmp, length_cons, Nat.add_lt_add_iff_right, gt_iff_lt]
      split_ifs with same <;> simp_all

section

variable {cache : Cache} {size written : Nat} {l : UInt32} {left : List UInt32} {r : Capability}
  {right done : List Capability}

/-- The loop ends inside the array and assigns the priorities of `done` and `right`. -/
def Ends (cache : Cache) (size : Nat) (done : List Capability) (left : List UInt32)
    (right : List Capability) (written : Nat)
    : Prop :=
  ∃ fuel priorities, mergeLoop cache size fuel left right written = some priorities
    ∧ List.Forall₂ (Assigned cache (done ++ right)) left priorities

/-- One priority is written, and one index is left behind. -/
theorem ends_write (right' done' : List Capability) (p : Nat) (room : written < size)
    (step : ∀ fuel, mergeLoop cache size (fuel + 1) (l :: left) right written
      = if written < size then (mergeLoop cache size fuel left right' (written + 1)).map (p :: ·)
        else none)
    (same : done' ++ right' = done ++ right)
    : Ends cache size done (l :: left) right written
      ↔ Assigned cache (done ++ right) l p ∧ Ends cache size done' left right' (written + 1) := by
  unfold Ends
  rw [same]
  constructor
  · rintro ⟨fuel, priorities, run, right⟩
    cases fuel with
    | zero => cases run
    | succ fuel =>
      rw [step, if_pos room] at run
      obtain ⟨more, run, rfl⟩ := Option.map_eq_some_iff.mp run
      obtain ⟨first, rest⟩ := forall₂_cons.mp right
      exact ⟨first, fuel, more, ‹_›, rest⟩
  · rintro ⟨first, fuel, more, run, rest⟩
    refine ⟨fuel + 1, p :: more, ?_, .cons first rest⟩
    rw [step, if_pos room, run, Option.map_some]

theorem ends_skip (step : ∀ fuel, mergeLoop cache size (fuel + 1) left (r :: right) written
      = mergeLoop cache size fuel left right written)
    : Ends cache size done left (r :: right) written
      ↔ Ends cache size (done ++ [r]) left right written := by
  unfold Ends
  rw [append_assoc]
  constructor
  · rintro ⟨fuel, priorities, run, right⟩
    cases fuel with
    | zero => cases run
    | succ fuel => exact ⟨fuel, priorities, (step fuel).symm.trans run, right⟩
  · rintro ⟨fuel, priorities, run, right⟩
    exact ⟨fuel + 1, priorities, (step fuel).trans run, right⟩

/-- At an index that is not valid the loop writes until it leaves the array. -/
theorem mergeLoop_invalid (invalid : ¬ l.toNat < cache.size) (fuel written : Nat)
    : mergeLoop cache size fuel (l :: left) (r :: right) written = none := by
  induction fuel generalizing written with
  | zero => rfl
  | succ fuel ih =>
    rw [mergeLoop, if_neg invalid, ih, Option.map_none, ite_self]

/-- The names are used up by strings: each one comes before a string or has as many equal ones. -/
def UsedUp (names strings : List (List UInt8)) : Prop :=
  ∀ n ∈ names, (∃ s ∈ strings, compare n s = .lt) ∨ names.count n ≤ strings.count n

/-- No string among `all` occurs more often than it is a name. -/
def Paired (all names strings : List (List UInt8)) : Prop :=
  ∀ n ∈ all, strings.count n ≤ names.count n

variable {n s : List UInt8} {all names strings : List (List UInt8)}

theorem not_lt_of_isLE (le : (compare n s).isLE = true) : compare s n ≠ .lt := by
  rw [Std.OrientedOrd.eq_swap]
  cases order : compare n s <;> simp_all

theorem ne_of_lt (less : compare n s = .lt) : n ≠ s := by
  rintro rfl
  rw [Std.ReflOrd.compare_self] at less
  cases less

theorem usedUp_cons_cons (least : ∀ m ∈ names, (compare n m).isLE = true)
    : UsedUp (n :: names) (n :: strings) ↔ UsedUp names strings := by
  have none : ∀ m ∈ names, compare m n ≠ .lt := fun m member => not_lt_of_isLE (least m member)
  unfold UsedUp
  grind

theorem usedUp_cons_left (later : ∃ s ∈ strings, compare n s = .lt)
    : UsedUp (n :: names) strings ↔ UsedUp names strings := by
  unfold UsedUp
  grind

theorem usedUp_cons_right (less : ∀ m ∈ names, compare s m = .lt)
    : UsedUp names (s :: strings) ↔ UsedUp names strings := by
  have none : ∀ m ∈ names, compare m s ≠ .lt ∧ s ≠ m := fun m member =>
    ⟨not_lt_of_isLE (by rw [less m member]; rfl), ne_of_lt (less m member)⟩
  unfold UsedUp
  grind

theorem paired_cons_cons : Paired all (n :: names) (n :: strings) ↔ Paired all names strings := by
  unfold Paired
  grind

theorem paired_cons_left (less : ∀ s ∈ strings, compare n s = .lt)
    : Paired all (n :: names) strings ↔ Paired all names strings := by
  have none : strings.count n = 0 :=
    count_eq_zero.mpr fun member => ne_of_lt (less n member) rfl
  unfold Paired
  grind

theorem paired_cons_right (absent : s ∉ names)
    : Paired all names (s :: strings) ↔ s ∉ all ∧ Paired all names strings := by
  have none : names.count s = 0 := count_eq_zero.mpr absent
  unfold Paired
  grind

theorem Cache.strings_cons (valid : l.toNat < cache.size)
    : cache.strings (l :: left) = cache.string l :: cache.strings left := by
  rw [strings, filter_cons_of_pos (by simpa using valid)]
  rfl

theorem Cache.strings_cons_invalid (invalid : ¬ l.toNat < cache.size)
    : cache.strings (l :: left) = cache.strings left := by
  rw [strings, filter_cons_of_neg (by simpa using invalid)]
  rfl

theorem Cache.front_cons (valid : l.toNat < cache.size)
    : cache.front (l :: left) = cache.string l :: cache.front left := by
  rw [front, takeWhile_cons_of_pos (by simpa using valid)]
  rfl

/-- What is assigned without a capability of the name. -/
theorem assigned_zero {capabilities : List Capability} (valid : l.toNat < cache.size)
    : Assigned cache capabilities l 0 ↔ cache.string l ∉ capabilities.map Capability.name := by
  unfold Assigned
  rw [if_pos valid, mem_map]
  constructor
  · rintro (⟨c, -, -, zero⟩ | ⟨none, -⟩)
    · exact absurd zero (Nat.ne_of_lt c.positive)
    · rintro ⟨c, member, same⟩
      exact none c member same
  · exact fun none => .inr ⟨fun c member same => none ⟨c, member, same⟩, rfl⟩

/-- The merge assigns the right priorities exactly if the capabilities are used up before an index
that is not valid, and no string occurs more often than there are capabilities of its name. The
induction is on both lists.
-/
theorem ends_iff (room : written + left.length ≤ size) (sorted : Sorted (cache.strings left))
    (sorted' : Sorted (right.map Capability.name))
    : Ends cache size done left right written ↔ ((∀ l ∈ left, l.toNat < cache.size)
          ∨ UsedUp (right.map Capability.name) (cache.front left))
        ∧ Paired ((done ++ right).map Capability.name) (right.map Capability.name)
            (cache.strings left) := by
  induction left generalizing right done written with
  | nil =>
    refine iff_of_true ⟨1, [], by rw [mergeLoop], .nil⟩ ⟨.inl (forall_mem_nil _), ?_⟩
    exact fun n _ => Nat.zero_le _
  | cons l left ih =>
    rw [length_cons] at room
    have space : written < size := by omega
    have room : written + 1 + left.length ≤ size := by omega
    induction right generalizing done with
    | nil =>
      have used : ∀ (p : Prop) strings, p ∨ UsedUp ([].map Capability.name) strings :=
        fun _ _ => .inr fun _ member => nomatch member
      rw [ends_write [] done 0 space (fun _ => by rw [mergeLoop]) rfl, and_iff_right (used _ _)]
      by_cases valid : l.toNat < cache.size
      · rw [cache.strings_cons valid] at sorted ⊢
        rw [assigned_zero valid, ih room (pairwise_cons.mp sorted).2 sorted',
          and_iff_right (used _ _), map_nil, paired_cons_right not_mem_nil]
      · rw [cache.strings_cons_invalid valid] at sorted ⊢
        rw [Assigned, if_neg valid, eq_self, true_and, ih room sorted sorted',
          and_iff_right (used _ _)]
    | cons r right ih' =>
      obtain ⟨least, sortedRight⟩ := pairwise_cons.mp sorted'
      by_cases valid : l.toNat < cache.size
      · rw [cache.strings_cons valid] at sorted ⊢
        rw [cache.front_cons valid]
        obtain ⟨first, sortedLeft⟩ := pairwise_cons.mp sorted
        simp only [forall_mem_cons, valid, true_and]
        have compared := glibcHwcapsCompare_eq (cache.string l) r.name
        cases order : compare (cache.string l) r.name with
        | eq =>
          have same : cache.string l = r.name := Std.LawfulEqOrd.eq_of_compare order
          have assigned : Assigned cache (done ++ r :: right) l r.priority := by
            rw [Assigned, if_pos valid]
            exact .inl ⟨r, by simp, same.symm, rfl⟩
          rw [ends_write right (done ++ [r]) r.priority space
            (fun _ => by rw [mergeLoop, if_pos valid, compared, order])
            (by rw [append_assoc, singleton_append]),
            and_iff_right assigned, ih room sortedLeft sortedRight, append_assoc,
            singleton_append, same, map_cons, usedUp_cons_cons least, paired_cons_cons]
        | lt =>
          have less : ∀ m ∈ (r :: right).map Capability.name, compare (cache.string l) m = .lt := by
            refine forall_mem_cons.mpr ⟨order, fun m member => ?_⟩
            exact Std.TransCmp.lt_of_lt_of_isLE order (least m member)
          have absent : cache.string l ∉ (r :: right).map Capability.name :=
            fun member => ne_of_lt (less _ member) rfl
          rw [ends_write (r :: right) done 0 space
            (fun _ => by rw [mergeLoop, if_pos valid, compared, order]) rfl, assigned_zero valid,
            ih room sortedLeft sorted', usedUp_cons_right less, paired_cons_right absent,
            and_left_comm]
        | gt =>
          have later : compare r.name (cache.string l) = .lt := by
            rw [Std.OrientedOrd.eq_swap, order]
            rfl
          have all : ∀ s ∈ cache.string l :: cache.strings left, compare r.name s = .lt :=
            forall_mem_cons.mpr ⟨later, fun s member =>
              Std.TransCmp.lt_of_lt_of_isLE later (first s member)⟩
          refine (ends_skip fun _ => by rw [mergeLoop, if_pos valid, compared, order]).trans
            ((ih' sortedRight).trans ?_)
          rw [cache.front_cons valid, cache.strings_cons valid, append_assoc,
            singleton_append, map_cons, usedUp_cons_left ⟨_, mem_cons_self, later⟩,
            paired_cons_left all]
          simp only [forall_mem_cons, valid, true_and]
      · refine iff_of_false ?_ ?_
        · rintro ⟨fuel, priorities, run, -⟩
          rw [mergeLoop_invalid valid] at run
          cases run
        · rintro ⟨all | used, -⟩
          · exact valid (all l mem_cons_self)
          · rw [Cache.front, takeWhile_cons_of_neg (by simpa using valid)] at used
            rcases used r.name (by simp) with ⟨s, member, -⟩ | few
            · cases member
            · simp at few

/-- The merge assigns the right priorities exactly if the capabilities are used up before an index
that is not valid, and no string occurs more often than there are capabilities of its name.
-/
theorem assignsAll_iff (cache : Cache) (allocated : Nat) {indexes : List UInt32}
    {capabilities : List Capability} (sorted : Sorted (cache.strings indexes))
    (sorted' : Sorted (capabilities.map Capability.name))
    : AssignsAll cache allocated indexes capabilities ↔ ((∀ l ∈ indexes, l.toNat < cache.size)
          ∨ UsedUp (capabilities.map Capability.name) (cache.front indexes))
        ∧ Paired (capabilities.map Capability.name) (capabilities.map Capability.name)
            (cache.strings indexes) := by
  have room : 0 + indexes.length
      ≤ if indexes.length > allocated then indexes.length else allocated := by
    split_ifs <;> omega
  have ends := @ends_iff cache _ 0 indexes capabilities [] room sorted sorted'
  exact ends

/-- The name "x86-64-v2" or "x86-64-v3". -/
def level (digit : UInt8) : List UInt8 := [120, 56, 54, 45, 54, 52, 45, 118, digit]

/-- A cache without libraries: its header, the two names at 48 and 58, and the extension with one section of
two indexes.
-/
def levelsCache : Cache := ⟨100, fun index => if index = 48 then level 50 else level 51⟩

theorem assignsAll_two : AssignsAll levelsCache 0 [48, 58] [⟨level 51, 1, Nat.one_pos⟩] := by
  refine (assignsAll_iff levelsCache 0 ?_ ?_).mpr ⟨.inl ?_, ?_⟩
  · unfold Sorted
    decide
  · exact pairwise_singleton _ _
  · simp [levelsCache]
  · unfold Paired
    decide

/-- The merge does not leave an index behind the end of the file. -/
theorem not_assignsAll
    : Sorted (levelsCache.strings [4096, 58])
      ∧ Sorted ([(⟨level 51, 1, Nat.one_pos⟩ : Capability)].map Capability.name)
      ∧ ¬ AssignsAll levelsCache 0 [4096, 58] [⟨level 51, 1, Nat.one_pos⟩] := by
  refine ⟨pairwise_singleton _ _, pairwise_singleton _ _, ?_⟩
  rintro ⟨fuel, priorities, run, -⟩
  have none : glibcHwcapsPrioritiesInit levelsCache 0 fuel [4096, 58] [⟨level 51, 1, Nat.one_pos⟩] = none :=
    mergeLoop_invalid (by decide) fuel 0
  cases none.symm.trans run

end

end Nglibc.Hwcaps
