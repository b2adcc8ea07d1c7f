import Nglibc.Strings.Scanners

/-! The scanners find the byte that a scan of single bytes finds: a word with such a byte is always
suspect, and a suspect word without one is passed.

Bytes are counted from the start of the scan; the addresses behind the last one of the address space begin
at 0 again.
-/

namespace Nglibc.Strings.Wordwise

open Memory

variable {mem : Memory UInt8} {s i j k n o p d e fuel : Nat} {c : UInt8} {stops : UInt8 → Bool}
  {w : BitVec 64}

/-- The byte at index `i` behind `s`. -/
def charAt (mem : Memory UInt8) (s i : Nat) : UInt8 := mem (advance s i)

/-- `i` is the first index with the property. -/
structure FirstAt (q : Nat → Prop) (i : Nat) : Prop where
  here : q i
  before : ∀ j < i, ¬ q j

theorem FirstAt.exists {q : Nat → Prop} (some_ : q i) : ∃ j ≤ i, FirstAt q j := by
  induction i using Nat.strong_induction_on with
  | _ i ih =>
    by_cases before : ∃ j < i, q j
    · obtain ⟨j, lower, here⟩ := before
      obtain ⟨m, le, first⟩ := ih j lower here
      exact ⟨m, le.trans lower.le, first⟩
    · exact ⟨i, le_rfl, some_, fun j lower here => before ⟨j, lower, here⟩⟩

theorem FirstAt.unique {q : Nat → Prop} (first : FirstAt q i) (other : FirstAt q j) : i = j := by
  rcases Nat.lt_trichotomy i j with below | same | above
  · exact absurd first.here (other.before i below)
  · exact same
  · exact absurd other.here (first.before j above)

/-- Indices without the property lie in front of the first one. -/
theorem FirstAt.le {q : Nat → Prop} (first : FirstAt q i) (clear : ∀ k < d, ¬ q k) : d ≤ i := by
  by_contra below
  exact clear i (by omega) first.here

theorem FirstAt.congr {q q' : Nat → Prop} (first : FirstAt q i) (same : ∀ j, q j ↔ q' j)
    : FirstAt q' i :=
  ⟨(same i).mp first.here, fun j lower here => first.before j lower ((same j).mpr here)⟩

theorem advance_advance : advance (advance s i) j = advance s (i + j) := by
  rw [advance, advance, advance, Nat.mod_add_mod, Nat.add_assoc]

theorem advance_lt : advance s i < 2 ^ 64 := Nat.mod_lt _ (by decide)

theorem retreat_advance (start : s < 2 ^ 64) (inside : i < 2 ^ 64) : retreat (advance s i) s = i := by
  rw [retreat, advance]
  omega

theorem retreat_step (small : j ≤ 8) : retreat (advance s (i + j)) j = advance s i := by
  rw [retreat, advance, advance]
  omega

/-- The bytes of a word lie behind each other. -/
theorem advance_add (aligned : advance s o % 8 = 0) (inside : k < 8)
    : advance s o + k = advance s (o + k) := by
  rw [advance] at aligned
  rw [advance, advance]
  omega

theorem byteAt_load_charAt (aligned : advance s o % 8 = 0) (inside : k < 8)
    : byteAt (mem.load (advance s o)) k = charAt mem s (o + k) := by
  rw [byteAt_load inside, advance_add aligned inside, charAt]

theorem mayHoldZero_of (inside : k < 8) (zero : byteAt w k = 0) : mayHoldZero w := by
  rw [mayHoldZero]
  exact subtract_ne inside zero

theorem holdsZero_of (inside : k < 8) (zero : byteAt w k = 0) : holdsZero w := by
  rw [holdsZero]
  exact subtract_filtered_ne inside zero

theorem holdsRepeated_of (inside : k < 8) (zero : byteAt w k = 0) : holdsRepeated w := by
  rw [holdsRepeated]
  exact subtract_filtered_ne inside zero

theorem unchangedHole_of (inside : k < 8) (zero : byteAt w k = 0) : unchangedHole w := by
  rw [unchangedHole]
  exact add_ne inside zero

theorem byteAt_charmask_ofNat
    : ∀ k < 8, ∀ n < 256, byteAt (charmask (UInt8.ofNat n)) k = UInt8.ofNat n := by
  decide +kernel

theorem byteAt_charmask (inside : k < 8) : byteAt (charmask c) k = c := by
  have byte := byteAt_charmask_ofNat k inside c.toNat c.toNat_lt
  rwa [UInt8.ofNat_toNat] at byte

theorem xor_charmask_zero (inside : k < 8) : byteAt (w ^^^ charmask c) k = 0 ↔ byteAt w k = c :=
  byteAt_xor_zero (byteAt_charmask inside)

theorem firstInWord_some (found : firstInWord mem p stops = some k)
    : k < 8 ∧ stops (mem (p + k)) = true ∧ ∀ j < k, stops (mem (p + j)) = false := by
  rw [firstInWord, List.find?_range_eq_some] at found
  obtain ⟨here, inside, before⟩ := found
  exact ⟨List.mem_range.mp inside, here, fun j lower => by simpa using before j lower⟩

theorem firstInWord_none (none_ : firstInWord mem p stops = none) (inside : k < 8)
    : stops (mem (p + k)) = false := by
  rw [firstInWord, List.find?_eq_none] at none_
  exact Bool.eq_false_iff.mpr (none_ k (List.mem_range.mpr inside))

/-- The test of a word whose bytes follow bytes that do not stop the scan. -/
theorem firstInWord_cases (aligned : advance s o % 8 = 0) (clear : ∀ k < o, ¬ stops (charAt mem s k) = true)
    : (∃ k < 8, firstInWord mem (advance s o) stops = some k
        ∧ FirstAt (fun i => stops (charAt mem s i) = true) (o + k))
      ∨ firstInWord mem (advance s o) stops = none
        ∧ ∀ k < o + 8, ¬ stops (charAt mem s k) = true := by
  have byte (k : Nat) (inside : k < 8) : mem (advance s o + k) = charAt mem s (o + k) := by
    rw [advance_add aligned inside, charAt]
  -- An index from `o` on is one of the word.
  have passed (m j : Nat) (le : m ≤ 8) (none_ : ∀ k < m, stops (mem (advance s o + k)) = false)
      (lower : j < o + m)
      : ¬ stops (charAt mem s j) = true := by
    by_cases below : j < o
    · exact clear j below
    · have other := none_ (j - o) (by omega)
      rw [byte _ (by omega), Nat.add_sub_cancel' (by omega)] at other
      rw [other]
      exact Bool.false_ne_true
  cases found : firstInWord mem (advance s o) stops with
  | none => exact .inr ⟨rfl, fun j => passed 8 j le_rfl fun k inside => firstInWord_none found inside⟩
  | some k =>
    obtain ⟨inside, here, before⟩ := firstInWord_some found
    rw [byte k inside] at here
    exact .inl ⟨k, inside, rfl, here, fun j => passed k j inside.le before⟩

theorem firstInWord_charAt (aligned : advance s o % 8 = 0)
    (first : FirstAt (fun i => stops (charAt mem s i) = true) i) (from_ : o ≤ i)
    : firstInWord mem (advance s o) stops = if i < o + 8 then some (i - o) else none := by
  rcases firstInWord_cases aligned fun k lower => first.before k (by omega) with
    ⟨k, inside, found, first'⟩ | ⟨found, clear⟩
  · have same := first.unique first'
    rw [found, if_pos (by omega), same, Nat.add_sub_cancel_left]
  · rw [found, if_neg (first.le clear).not_gt]

/-- The loop up to the alignment stops at the first byte, or it ends at an aligned pointer. -/
theorem alignUp_cases {r : Nat} (inside : s + j ≤ 2 ^ 64) (aligned : (s + j + r) % 8 = 0) (enough : r < fuel)
    (clear : ∀ k < j, ¬ stops (charAt mem s k) = true)
    : (∃ i, alignUp mem stops fuel (advance s j) = some (.inl (advance s i))
        ∧ FirstAt (fun i => stops (charAt mem s i) = true) i ∧ s + i < 2 ^ 64)
      ∨ ∃ d ≤ j + r, alignUp mem stops fuel (advance s j) = some (.inr (advance s d))
        ∧ advance s d % 8 = 0 ∧ s + d ≤ 2 ^ 64 ∧ ∀ k < d, ¬ stops (charAt mem s k) = true := by
  induction fuel generalizing j r with
  | zero => omega
  | succ fuel ih =>
    rw [alignUp]
    by_cases unaligned : advance s j % 8 ≠ 0
    · have place : advance s j = (s + j) % 2 ^ 64 := rfl
      rw [if_pos unaligned]
      by_cases stop : stops (mem (advance s j)) = true
      · rw [if_pos stop]
        exact .inl ⟨j, rfl, ⟨stop, clear⟩, by omega⟩
      · rw [if_neg stop, advance_advance]
        rcases @ih (j + 1) (r - 1) (by omega) (by omega) (by omega)
            (Nat.forall_lt_succ_right.mpr ⟨clear, stop⟩) with
          left | ⟨d, le, rest⟩
        · exact .inl left
        · exact .inr ⟨d, by omega, rest⟩
    · rw [if_neg unaligned]
      exact .inr ⟨j, by omega, rfl, not_not.mp unaligned, inside, clear⟩

theorem alignUp_start (stops : UInt8 → Bool) (start : s < 2 ^ 64)
    : (∃ i, alignUp mem stops 8 s = some (.inl (advance s i))
        ∧ FirstAt (fun i => stops (charAt mem s i) = true) i ∧ s + i < 2 ^ 64)
      ∨ ∃ d < 8, alignUp mem stops 8 s = some (.inr (advance s d))
        ∧ advance s d % 8 = 0 ∧ s + d ≤ 2 ^ 64 ∧ ∀ k < d, ¬ stops (charAt mem s k) = true := by
  have same : advance s 0 = s := Nat.mod_eq_of_lt start
  have cases_ := @alignUp_cases mem s 0 8 stops ((8 - s % 8) % 8) (by omega) (by omega)
    (Nat.mod_lt _ (by omega)) (fun k none_ => absurd none_ (Nat.not_lt_zero k))
  rw [same] at cases_
  rcases cases_ with left | ⟨d, le, rest⟩
  · exact .inl left
  · exact .inr ⟨d, by omega, rest⟩

/-- The words read are aligned and start at indices up to `i`. -/
def ReadUpTo (s i : Nat) (words : List Nat) : Prop := ∀ p ∈ words, p % 8 = 0 ∧ ∃ j ≤ i, p = advance s j

/-- The loop over words finds the first byte, by induction on the rounds. -/
theorem scanWords_first {α : Type} {suspect : BitVec 64 → Bool} {found : Nat → Nat → α}
    (catches : ∀ w, ∀ k < 8, stops (byteAt w k) = true → suspect w = true)
    (aligned : advance s o % 8 = 0) (first : FirstAt (fun i => stops (charAt mem s i) = true) i)
    (from_ : o ≤ i) (enough : i < o + 8 * fuel)
    : ∃ words m k, scanWords mem suspect stops found fuel (advance s o)
          = some (found (advance s m) k, words)
        ∧ m + k = i ∧ k < 8 ∧ advance s m ∈ words ∧ ReadUpTo s i words := by
  induction fuel generalizing o with
  | zero => omega
  | succ fuel ih =>
    rw [scanWords, firstInWord_charAt aligned first from_]
    by_cases near : i < o + 8
    · have here : stops (byteAt (mem.load (advance s o)) (i - o)) = true := by
        rw [byteAt_load_charAt aligned (by omega), Nat.add_sub_cancel' from_]
        exact first.here
      rw [if_pos near, catches _ _ (by omega) here]
      refine ⟨[advance s o], o, i - o, rfl, by omega, by omega, List.mem_singleton_self _, ?_⟩
      intro p read
      rw [List.mem_singleton.mp read]
      exact ⟨aligned, o, from_, rfl⟩
    · rw [if_neg near, advance_advance]
      have next : advance s (o + 8) % 8 = 0 := by
        rw [advance] at aligned ⊢
        omega
      obtain ⟨words, m, k, done, sum, inside, last, reads⟩ := ih next (by omega) (by omega)
      refine ⟨advance s o :: words, m, k, ?_, sum, inside, List.mem_cons_of_mem _ last, ?_⟩
      · rw [done]
        cases suspect (mem.load (advance s o)) with
        | true => rfl
        | false => rfl
      · intro p read
        rcases List.mem_cons.mp read with rfl | later
        · exact ⟨aligned, o, from_, rfl⟩
        · exact reads p later

/-- The first index lies within one round through the address space. -/
theorem FirstAt.lt {q : UInt8 → Prop} (first : FirstAt (fun i => q (charAt mem s i)) i) : i < 2 ^ 64 := by
  by_contra beyond
  have again : charAt mem s (i - 2 ^ 64) = charAt mem s i := by
    have same : advance s (i - 2 ^ 64) = advance s i := by
      rw [advance, advance]
      omega
    rw [charAt, charAt, same]
  apply first.before (i - 2 ^ 64) (by omega)
  rw [again]
  exact first.here

/-- A word that holds a byte of a region of the indices behind `s`. -/
def Touches (s : Nat) (region : Nat → Prop) (p : Nat) : Prop :=
  ∃ j, region j ∧ p ≤ advance s j ∧ advance s j < p + 8

theorem ReadUpTo.touches {region : Nat → Prop} {words : List Nat} (reads : ReadUpTo s i words)
    (inside : ∀ j ≤ i, region j)
    : ∀ p ∈ words, Touches s region p := by
  intro p read
  obtain ⟨-, j, le, rfl⟩ := reads p read
  exact ⟨j, inside j le, le_rfl, Nat.lt_add_of_pos_right (by decide)⟩

/-- `strlen` gives the index of the first NUL, and reads no word behind it. -/
def StrlenAgrees (mem : Memory UInt8) (s : Nat) : Prop :=
  ∀ i, FirstAt (fun i => charAt mem s i = 0) i → ∃ words, strlen mem s = some (i, words)
    ∧ ∀ p ∈ words, Touches s (fun j => ∀ k < j, charAt mem s k ≠ 0) p

theorem strlen_agrees (start : s < 2 ^ 64) : StrlenAgrees mem s := by
  intro i first
  have bound := @FirstAt.lt mem s i (fun b => b = 0) first
  have stop : FirstAt (fun i => decide (charAt mem s i = 0) = true) i :=
    first.congr (fun _ => decide_eq_true_iff.symm)
  rw [strlen]
  rcases @alignUp_start mem s (fun b => decide (b = 0)) start with
    ⟨i', done, first', -⟩ | ⟨d, -, done, aligned, -, clear⟩
  · rw [done, first'.unique stop]
    refine ⟨[], ?_, fun p none_ => absurd none_ List.not_mem_nil⟩
    dsimp only
    rw [retreat_advance start bound]
  · have space : words = 2 ^ 61 := rfl
    rw [done]
    obtain ⟨read, m, k, found, sum, -, -, reads⟩ :=
      @scanWords_first mem s i d (words + 1) (fun b => decide (b = 0)) Nat
        (fun longword => decide (holdsZero longword)) (fun cp k => advance (retreat cp s) k)
        (fun w k inside zero => decide_eq_true (holdsZero_of inside (of_decide_eq_true zero)))
        aligned stop (stop.le clear) (by omega)
    have value : advance (retreat (advance s m) s) k = i := by
      rw [retreat_advance start (by omega), advance, sum, Nat.mod_eq_of_lt bound]
    rw [value] at found
    exact ⟨read, found, reads.touches (fun j le k lower => first.before k (by omega))⟩

/-- `strchr` finds the first byte that is `c` or NUL, and returns it if it is `c`; it reads no word behind
it.
-/
def StrchrAgrees (mem : Memory UInt8) (s : Nat) (cIn : Int) : Prop :=
  ∀ i, FirstAt (fun i => charAt mem s i = ucharOf cIn ∨ charAt mem s i = 0) i → ∃ words,
    strchr mem s cIn = some (if charAt mem s i = ucharOf cIn then some (advance s i) else none, words)
      ∧ ∀ p ∈ words, Touches s (fun j => ∀ k < j, charAt mem s k ≠ ucharOf cIn ∧ charAt mem s k ≠ 0) p

theorem strchr_agrees {cIn : Int} (start : s < 2 ^ 64) : StrchrAgrees mem s cIn := by
  intro i first
  have bound := @FirstAt.lt mem s i (fun b => b = ucharOf cIn ∨ b = 0) first
  have stop : FirstAt (fun i => decide (charAt mem s i = ucharOf cIn ∨ charAt mem s i = 0) = true) i :=
    first.congr (fun _ => decide_eq_true_iff.symm)
  rw [strchr]
  rcases @alignUp_start mem s (fun b => decide (b = ucharOf cIn ∨ b = 0)) start with
    ⟨i', done, first', -⟩ | ⟨d, -, done, aligned, -, clear⟩
  · rw [done, first'.unique stop]
    exact ⟨[], rfl, fun p none_ => absurd none_ List.not_mem_nil⟩
  · have space : words = 2 ^ 61 := rfl
    rw [done]
    obtain ⟨read, m, k, found, sum, inside, last, reads⟩ :=
      @scanWords_first mem s i d (words + 1) (fun b => decide (b = ucharOf cIn ∨ b = 0)) (Option Nat)
        (fun longword => decide (unchangedHole longword
          ∨ unchangedHole (longword ^^^ charmask (ucharOf cIn))))
        (fun cp k => strchrReturn mem (ucharOf cIn) (cp + k))
        (fun w k inside here => by
          apply decide_eq_true
          rcases of_decide_eq_true here with same | zero
          · exact .inr (unchangedHole_of inside ((xor_charmask_zero inside).mpr same))
          · exact .inl (unchangedHole_of inside zero))
        aligned stop (stop.le clear) (by omega)
    rw [advance_add (reads _ last).1 inside, sum] at found
    refine ⟨read, found, reads.touches (fun j le k lower => ?_)⟩
    exact not_or.mp (first.before k (by omega))

end Nglibc.Strings.Wordwise
