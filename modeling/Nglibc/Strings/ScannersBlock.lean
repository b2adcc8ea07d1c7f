import Nglibc.Strings.ScannersFirst

/-! `memchr` and `memrchr` find the first and the last occurrence of a byte in a block, and read only words
inside of it.
-/

namespace Nglibc.Strings.Wordwise

open Memory List

variable {mem : Memory UInt8} {s i j k n o d m : Nat} {c : UInt8} {stops : UInt8 → Bool} {p : Nat}

/-! memchr -/

/-- No byte in front of the index is `c`. -/
def ClearBelow (mem : Memory UInt8) (s : Nat) (c : UInt8) (d : Nat) : Prop :=
  ∀ k < d, charAt mem s k ≠ c

theorem ClearBelow.zero : ClearBelow mem s c 0 := fun k none_ => absurd none_ (Nat.not_lt_zero k)

theorem ClearBelow.succ (clear : ClearBelow mem s c d) (other : charAt mem s d ≠ c)
    : ClearBelow mem s c (d + 1) := by
  exact Nat.forall_lt_succ_right.mpr ⟨clear, other⟩

/-- The loop up to the alignment finds `c`, or it ends at the end of the block or at an aligned pointer. -/
theorem memchrAlign_cases (clear : ClearBelow mem s c d)
    : (∃ i < d + n, memchrAlign mem c n (advance s d) = .inl (advance s i)
        ∧ FirstAt (fun i => charAt mem s i = c) i)
      ∨ ∃ d' n', memchrAlign mem c n (advance s d) = .inr (advance s d', n') ∧ d' + n' = d + n
        ∧ (n' = 0 ∨ advance s d' % 8 = 0) ∧ ClearBelow mem s c d' := by
  induction n generalizing d with
  | zero => exact .inr ⟨d, 0, rfl, rfl, .inl rfl, clear⟩
  | succ n ih =>
    rw [memchrAlign]
    by_cases unaligned : advance s d % 8 ≠ 0
    · rw [if_pos unaligned]
      by_cases same : charAt mem s d = c
      · rw [if_pos (show mem (advance s d) = c from same)]
        exact .inl ⟨d, by omega, rfl, same, clear⟩
      · rw [if_neg (show ¬ mem (advance s d) = c from same), advance_advance]
        rcases ih (clear.succ same) with ⟨i, inside, rest⟩ | ⟨d', n', done, sum, rest⟩
        · exact .inl ⟨i, by omega, rest⟩
        · exact .inr ⟨d', n', done, by omega, rest⟩
    · rw [if_neg unaligned]
      exact .inr ⟨d, n + 1, rfl, rfl, .inr (not_not.mp unaligned), clear⟩

/-- The words read start inside of the block, and not behind the first `c`. -/
def ReadInBlock (mem : Memory UInt8) (s : Nat) (c : UInt8) (n : Nat) (read : List Nat) : Prop :=
  ∀ p ∈ read, ∃ j < n, ClearBelow mem s c j ∧ p = advance s j

/-- The loop over words passes only words without `c`, by induction on what is left of the block. -/
theorem memchrLoop_cases (aligned : n = 0 ∨ advance s d % 8 = 0) (clear : ClearBelow mem s c d)
    : ∃ d' n' read, memchrLoop mem c n (advance s d) = ((advance s d', n'), read) ∧ d' + n' = d + n
        ∧ ClearBelow mem s c d' ∧ ReadInBlock mem s c (d + n) read := by
  induction n using Nat.strong_induction_on generalizing d with
  | _ n ih =>
    by_cases short : n < 8
    · refine ⟨d, n, [], ?_, rfl, clear, fun p none_ => absurd none_ not_mem_nil⟩
      rw [memchrLoop]
      intro m same
      omega
    · obtain ⟨n, rfl⟩ : ∃ m, n = m + 8 := ⟨n - 8, by omega⟩
      have place : advance s d % 8 = 0 := aligned.resolve_left (by omega)
      rw [memchrLoop]
      by_cases suspect : holdsRepeated (mem.load (advance s d) ^^^ charmask c)
      · rw [if_pos suspect]
        refine ⟨d, n + 8, _, rfl, rfl, clear, fun p read => ?_⟩
        exact ⟨d, by omega, clear, mem_singleton.mp read⟩
      · have passed : ClearBelow mem s c (d + 8) := by
          intro k lower
          by_cases below : k < d
          · exact clear k below
          · intro same
            have zero : byteAt (mem.load (advance s d) ^^^ charmask c) (k - d) = 0 := by
              rw [xor_charmask_zero (by omega), byteAt_load_charAt place (by omega),
                Nat.add_sub_cancel' (by omega)]
              exact same
            exact suspect (holdsRepeated_of (by omega) zero)
        have next : advance s (d + 8) % 8 = 0 := by
          rw [advance] at place ⊢
          omega
        rw [if_neg suspect, advance_advance]
        obtain ⟨d', n', read, done, sum, rest, inside⟩ := ih n (by omega) (.inr next) passed
        rw [done]
        refine ⟨d', n', _, rfl, by omega, rest, fun p found => ?_⟩
        rcases mem_cons.mp found with rfl | later
        · exact ⟨d, by omega, clear, rfl⟩
        · obtain ⟨j, within, above⟩ := inside p later
          exact ⟨j, by omega, above⟩

private theorem memchrBytes_cases (clear : ClearBelow mem s c d)
    : (∃ i < d + n, memchrBytes mem c n (advance s d) = some (advance s i)
        ∧ FirstAt (fun i => charAt mem s i = c) i)
      ∨ memchrBytes mem c n (advance s d) = none ∧ ClearBelow mem s c (d + n) := by
  induction n generalizing d with
  | zero => exact .inr ⟨rfl, clear⟩
  | succ n ih =>
    rw [memchrBytes]
    by_cases same : charAt mem s d = c
    · rw [if_pos (show mem (advance s d) = c from same)]
      exact .inl ⟨d, by omega, rfl, same, clear⟩
    · rw [if_neg (show ¬ mem (advance s d) = c from same), advance_advance]
      rcases ih (clear.succ same) with ⟨i, inside, rest⟩ | ⟨done, rest⟩
      · exact .inl ⟨i, by omega, rest⟩
      · rw [Nat.add_right_comm] at rest
        exact .inr ⟨done, rest⟩

/-- `memchr` finds the first `c` within `n` bytes, and reads no word outside of the bytes up to it. -/
def MemchrAgrees (mem : Memory UInt8) (s : Nat) (cIn : Int) (n : Nat) : Prop :=
  ∃ found read, memchr mem s cIn n = (found, read)
    ∧ ((∃ i < n, found = some (advance s i) ∧ FirstAt (fun i => charAt mem s i = ucharOf cIn) i)
      ∨ found = none ∧ ∀ i < n, charAt mem s i ≠ ucharOf cIn)
    ∧ ∀ p ∈ read, Touches s (fun j => j < n ∧ ∀ k < j, charAt mem s k ≠ ucharOf cIn) p

theorem memchr_agrees {cIn : Int} (start : s < 2 ^ 64) : MemchrAgrees mem s cIn n := by
  have same : advance s 0 = s := Nat.mod_eq_of_lt start
  have none_ {q : Nat → Prop} : ∀ p ∈ ([] : List Nat), q p := fun p none_ => absurd none_ not_mem_nil
  have prologue := @memchrAlign_cases mem s n 0 (ucharOf cIn) ClearBelow.zero
  rw [same, Nat.zero_add] at prologue
  rw [MemchrAgrees, memchr]
  rcases prologue with ⟨i, inside, done, first⟩ | ⟨d, m, done, sum, aligned, clear⟩
  · rw [done]
    exact ⟨_, _, rfl, .inl ⟨i, inside, rfl, first⟩, none_⟩
  · rw [done]
    dsimp only
    obtain ⟨d', m', read, loop, sum', clear', block⟩ := memchrLoop_cases aligned clear
    rw [loop]
    refine ⟨_, _, rfl, ?_, ?_⟩
    · rcases @memchrBytes_cases mem s m' d' (ucharOf cIn) clear' with
        ⟨i, inside, found, first⟩ | ⟨found, all⟩
      · exact .inl ⟨i, by omega, found, first⟩
      · rw [sum', sum] at all
        exact .inr ⟨found, all⟩
    · intro p member
      obtain ⟨j, inside, below, rfl⟩ := block p member
      exact ⟨j, ⟨by omega, below⟩, le_rfl, Nat.lt_add_of_pos_right (by decide)⟩

/-! memrchr -/

private theorem find_reverse_range {q : Nat → Bool} (found : (List.range n).reverse.find? q = some k)
    : k < n ∧ q k = true ∧ ∀ j, k < j → j < n → q j = false := by
  induction n with
  | zero => cases found
  | succ n ih =>
    rw [range_succ, reverse_append, reverse_singleton, singleton_append,
      find?_cons] at found
    cases last : q n with
    | true =>
      rw [last] at found
      cases found
      exact ⟨Nat.lt_succ_self k, last, fun j above below => absurd below (by omega)⟩
    | false =>
      rw [last] at found
      obtain ⟨inside, here, after⟩ := ih found
      refine ⟨Nat.lt_succ_of_lt inside, here, fun j above below => ?_⟩
      rcases Nat.lt_or_eq_of_le (Nat.le_of_lt_succ below) with lower | rfl
      · exact after j above lower
      · exact last

theorem lastInWord_none (none_ : lastInWord mem p stops = none) (inside : k < 8)
    : stops (mem (p + k)) = false := by
  rw [lastInWord, find?_eq_none] at none_
  exact Bool.eq_false_iff.mpr (none_ k (mem_reverse.mpr (mem_range.mpr inside)))

/-- No byte of the block from the index on is `c`. -/
def ClearAbove (mem : Memory UInt8) (s : Nat) (c : UInt8) (n m : Nat) : Prop :=
  ∀ k, m ≤ k → k < n → charAt mem s k ≠ c

/-- The last index of the block with `c`. -/
structure LastIn (mem : Memory UInt8) (s : Nat) (c : UInt8) (n i : Nat) : Prop where
  inside : i < n
  here : charAt mem s i = c
  after : ClearAbove mem s c n (i + 1)

theorem ClearAbove.end_ : ClearAbove mem s c n n := fun k above below => absurd below (by omega)

theorem ClearAbove.pred (clear : ClearAbove mem s c n (m + 1)) (other : charAt mem s m ≠ c)
    : ClearAbove mem s c n m := by
  intro k above below
  rcases Nat.lt_or_eq_of_le above with higher | rfl
  · exact clear k higher below
  · exact other

/-- The loop down to the alignment finds `c`, or it ends at the start of the block or at an aligned pointer.
-/
theorem memrchrAlign_cases (le : m ≤ n) (clear : ClearAbove mem s c n m)
    : (∃ i, memrchrAlign mem c m (advance s m) = .inl (advance s i) ∧ LastIn mem s c n i)
      ∨ ∃ m' ≤ m, memrchrAlign mem c m (advance s m) = .inr (advance s m', m')
        ∧ (m' = 0 ∨ advance s m' % 8 = 0) ∧ ClearAbove mem s c n m' := by
  induction m with
  | zero => exact .inr ⟨0, le_rfl, rfl, .inl rfl, clear⟩
  | succ m ih =>
    rw [memrchrAlign]
    by_cases unaligned : advance s (m + 1) % 8 ≠ 0
    · rw [if_pos unaligned, retreat_step (by decide)]
      by_cases same : charAt mem s m = c
      · exact .inl ⟨m, if_pos same, le, same, clear⟩
      · rcases ih (by omega) (clear.pred same) with ⟨i, found, last⟩ | ⟨m', lower, done, rest⟩
        · exact .inl ⟨i, (if_neg same).trans found, last⟩
        · exact .inr ⟨m', by omega, (if_neg same).trans done, rest⟩
    · rw [if_neg unaligned]
      exact .inr ⟨m + 1, le_rfl, rfl, .inr (not_not.mp unaligned), clear⟩

/-- The words read end inside of the block, and not before the last `c`. -/
def ReadBackInBlock (mem : Memory UInt8) (s : Nat) (c : UInt8) (n : Nat) (read : List Nat) : Prop :=
  ∀ p ∈ read, ∃ j, j + 8 ≤ n ∧ ClearAbove mem s c n (j + 8) ∧ p = advance s j ∧ p % 8 = 0

theorem ReadBackInBlock.cons {read : List Nat} (inside : m + 8 ≤ n) (clear : ClearAbove mem s c n (m + 8))
    (aligned : advance s m % 8 = 0) (rest : ReadBackInBlock mem s c n read)
    : ReadBackInBlock mem s c n (advance s m :: read) := by
  intro p found
  rcases mem_cons.mp found with rfl | later
  · exact ⟨m, inside, clear, rfl, aligned⟩
  · exact rest p later

theorem ClearAbove.word (clear : ClearAbove mem s c n (m + 8)) (aligned : advance s m % 8 = 0)
    (none_ : ∀ k < 8, byteAt (mem.load (advance s m)) k ≠ c)
    : ClearAbove mem s c n m := by
  intro k above below
  by_cases higher : m + 8 ≤ k
  · exact clear k higher below
  · have other := none_ (k - m) (by omega)
    rwa [byteAt_load_charAt aligned (by omega), Nat.add_sub_cancel' above] at other

/-- The last `c` of a word is the last one of the block, if there is none behind the word. -/
theorem lastInWord_last (le : m + 8 ≤ n) (clear : ClearAbove mem s c n (m + 8))
    (aligned : advance s m % 8 = 0) (found : lastInWord mem (advance s m) (· = c) = some k)
    : k < 8 ∧ LastIn mem s c n (m + k) := by
  obtain ⟨inside, here, after⟩ := find_reverse_range found
  have byte (j : Nat) (below : j < 8) : mem (advance s m + j) = charAt mem s (m + j) := by
    rw [advance_add aligned below, charAt]
  have same : charAt mem s (m + k) = c := by
    rw [← byte k inside]
    exact of_decide_eq_true here
  refine ⟨inside, by omega, same, fun j above below => ?_⟩
  by_cases higher : m + 8 ≤ j
  · exact clear j higher below
  · have other := of_decide_eq_false (after (j - m) (by omega) (by omega))
    rwa [byte _ (by omega), Nat.add_sub_cancel' (by omega)] at other

/-- The loop over words finds the last `c`, or it passes only words without `c`; by induction on what is
left of the block.
-/
theorem memrchrLoop_cases (le : m ≤ n) (aligned : m = 0 ∨ advance s m % 8 = 0)
    (clear : ClearAbove mem s c n m)
    : ∃ read, ReadBackInBlock mem s c n read
      ∧ ((∃ i, memrchrLoop mem c m (advance s m) = (.inl (advance s i), read) ∧ LastIn mem s c n i)
        ∨ ∃ m' ≤ m, memrchrLoop mem c m (advance s m) = (.inr (advance s m', m'), read)
          ∧ ClearAbove mem s c n m') := by
  induction m using Nat.strong_induction_on with
  | _ m ih =>
    by_cases short : m < 8
    · refine ⟨[], fun p none_ => absurd none_ not_mem_nil, .inr ⟨m, le_rfl, ?_, clear⟩⟩
      rw [memrchrLoop]
      intro m' same
      omega
    · obtain ⟨m, rfl⟩ : ∃ m', m = m' + 8 := ⟨m - 8, by omega⟩
      have place : advance s m % 8 = 0 := by
        have above := aligned.resolve_left (by omega)
        rw [advance] at above ⊢
        omega
      -- What follows a word without `c`.
      have next (none_ : ∀ k < 8, byteAt (mem.load (advance s m)) k ≠ c) :=
        ih m (by omega) (by omega) (.inr place) (clear.word place none_)
      rw [memrchrLoop, retreat_step le_rfl]
      by_cases suspect : unchangedHole (mem.load (advance s m) ^^^ charmask c)
      · rw [if_pos suspect]
        cases found : lastInWord mem (advance s m) (· = c) with
        | some k =>
          obtain ⟨inside, last⟩ := lastInWord_last le clear place found
          have result := congrArg (fun q => ((.inl q : Nat ⊕ Nat × Nat), [advance s m]))
            (advance_add place inside)
          exact ⟨_, .cons le clear place fun p none_ => absurd none_ not_mem_nil,
            .inl ⟨m + k, result, last⟩⟩
        | none =>
          have none_ : ∀ k < 8, byteAt (mem.load (advance s m)) k ≠ c := by
            intro k inside
            rw [byteAt_load inside]
            exact of_decide_eq_false (lastInWord_none found inside)
          obtain ⟨read, reads, ⟨i, done, last⟩ | ⟨m', lower, done, rest⟩⟩ := next none_
          · rw [done]
            exact ⟨_, .cons le clear place reads, .inl ⟨i, rfl, last⟩⟩
          · rw [done]
            exact ⟨_, .cons le clear place reads, .inr ⟨m', by omega, rfl, rest⟩⟩
      · have none_ : ∀ k < 8, byteAt (mem.load (advance s m)) k ≠ c := by
          intro k inside same
          exact suspect (unchangedHole_of inside ((xor_charmask_zero inside).mpr same))
        rw [if_neg suspect]
        obtain ⟨read, reads, ⟨i, done, last⟩ | ⟨m', lower, done, rest⟩⟩ := next none_
        · rw [done]
          exact ⟨_, .cons le clear place reads, .inl ⟨i, rfl, last⟩⟩
        · rw [done]
          exact ⟨_, .cons le clear place reads, .inr ⟨m', by omega, rfl, rest⟩⟩

theorem memrchrBytes_cases (le : m ≤ n) (clear : ClearAbove mem s c n m)
    : (∃ i, memrchrBytes mem c m (advance s m) = some (advance s i) ∧ LastIn mem s c n i)
      ∨ memrchrBytes mem c m (advance s m) = none ∧ ClearAbove mem s c n 0 := by
  induction m with
  | zero => exact .inr ⟨rfl, clear⟩
  | succ m ih =>
    rw [memrchrBytes, retreat_step (by decide)]
    by_cases same : charAt mem s m = c
    · exact .inl ⟨m, if_pos same, le, same, clear⟩
    · rcases ih (by omega) (clear.pred same) with ⟨i, found, last⟩ | ⟨done, rest⟩
      · exact .inl ⟨i, (if_neg same).trans found, last⟩
      · exact .inr ⟨(if_neg same).trans done, rest⟩

/-- `memrchr` finds the last `c` within `n` bytes, and reads no word outside of the bytes from it on. -/
def MemrchrAgrees (mem : Memory UInt8) (s : Nat) (cIn : Int) (n : Nat) : Prop :=
  ∃ found read, memrchr mem s cIn n = (found, read)
    ∧ ((∃ i, found = some (advance s i) ∧ LastIn mem s (ucharOf cIn) n i)
      ∨ found = none ∧ ∀ i < n, charAt mem s i ≠ ucharOf cIn)
    ∧ ∀ p ∈ read, Touches s (fun j => j < n ∧ ∀ k, j < k → k < n → charAt mem s k ≠ ucharOf cIn) p

/-- A word that ends in the region touches it with its last byte. -/
theorem ReadBackInBlock.touches {read : List Nat} (reads : ReadBackInBlock mem s c n read)
    : ∀ p ∈ read, Touches s (fun j => j < n ∧ ∀ k, j < k → k < n → charAt mem s k ≠ c) p := by
  intro p member
  obtain ⟨j, inside, clear, rfl, aligned⟩ := reads p member
  have last : advance s j + 7 = advance s (j + 7) := advance_add aligned (by decide)
  exact ⟨j + 7, ⟨by omega, fun k above below => clear k above below⟩, by omega, by omega⟩

theorem memrchr_agrees {cIn : Int} : MemrchrAgrees mem s cIn n := by
  have none_ {q : Nat → Prop} : ∀ p ∈ ([] : List Nat), q p := fun p none_ => absurd none_ not_mem_nil
  rw [MemrchrAgrees, memrchr]
  rcases @memrchrAlign_cases mem s n n (ucharOf cIn) le_rfl ClearAbove.end_ with
    ⟨i, done, last⟩ | ⟨m, le, done, aligned, clear⟩
  · rw [done]
    exact ⟨_, _, rfl, .inl ⟨i, rfl, last⟩, none_⟩
  · rw [done]
    dsimp only
    obtain ⟨read, reads, ⟨i, loop, last⟩ | ⟨m', lower, loop, clear'⟩⟩ := memrchrLoop_cases le aligned clear
    · rw [loop]
      exact ⟨_, _, rfl, .inl ⟨i, rfl, last⟩, reads.touches⟩
    · rw [loop]
      refine ⟨_, _, rfl, ?_, reads.touches⟩
      rcases memrchrBytes_cases (lower.trans le) clear' with ⟨i, found, last⟩ | ⟨found, all⟩
      · exact .inl ⟨i, found, last⟩
      · exact .inr ⟨found, fun i inside => all i (Nat.zero_le i) inside⟩

end Nglibc.Strings.Wordwise
