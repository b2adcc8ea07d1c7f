import Nglibc.Strings.ScannersBlock

/-! `strnlen` gives the length up to its bound, unless its pointer to words steps over the end of the
address space: the pointer is below `end_ptr` again at address 0, so that the scan goes on there.
-/

namespace Nglibc.Strings.Wordwise

open Memory

variable {mem : Memory UInt8} {s i j n o p q fuel endPtr : Nat}

/-- A scan of at most `n` bytes ended at an index: no byte in front of it is NUL, and it is NUL itself unless
the bound is reached.
-/
structure CountedTo (mem : Memory UInt8) (s n i : Nat) : Prop where
  before : ∀ j < i, j < n → charAt mem s j ≠ 0
  here : i < n → charAt mem s i = 0

/-- The bytes up to the bound, in front of the first NUL. -/
def Scanned (mem : Memory UInt8) (s n j : Nat) : Prop := j < n ∧ ClearBelow mem s 0 j

/-- `strnlen` gives the index of the first NUL or its bound, and reads no word outside of the bytes up to
there.
-/
def StrnlenAgrees (mem : Memory UInt8) (s n : Nat) : Prop :=
  ∃ result read, strnlen mem s n = some (result, read)
    ∧ (result ≤ n ∧ ClearBelow mem s 0 result ∧ (result < n → charAt mem s result = 0))
    ∧ ∀ p ∈ read, Touches s (Scanned mem s n) p

theorem CountedTo.first (first : FirstAt (fun i => charAt mem s i = 0) i) : CountedTo mem s n i :=
  ⟨fun j lower _ => first.before j lower, fun _ => first.here⟩

theorem CountedTo.length (counted : CountedTo mem s n i)
    : min i n ≤ n ∧ ClearBelow mem s 0 (min i n) ∧ (min i n < n → charAt mem s (min i n) = 0) := by
  refine ⟨Nat.min_le_right i n, fun j lower => ?_, fun below => ?_⟩
  · exact counted.before j (lower.trans_le (Nat.min_le_left i n)) (lower.trans_le (Nat.min_le_right i n))
  · have inside : i < n := by omega
    rw [Nat.min_eq_left inside.le]
    exact counted.here inside

theorem strnlenEnd_eq (start : s < 2 ^ 64) (bound : n < 2 ^ 64)
    : strnlenEnd s n = if s + n < 2 ^ 64 then s + n else 2 ^ 64 - 1 := by
  have place : advance s n = (s + n) % 2 ^ 64 := rfl
  rw [strnlenEnd]
  split_ifs <;> omega

/-- A pointer that did not step over the end of the address space is cut off at the bound. -/
theorem strnlenReturn_min (inside : s + i < 2 ^ 64) (bound : n < 2 ^ 64)
    : strnlenReturn s (strnlenEnd s n) (s + i) = min i n := by
  rw [strnlenReturn, strnlenEnd_eq (by omega) bound, retreat]
  split_ifs <;> omega

/-- A pointer that stepped over it is not. -/
theorem strnlenReturn_wrapped (start : s < 2 ^ 64) (bound : n < 2 ^ 64) (index : i < 2 ^ 64)
    (wrapped : 2 ^ 64 ≤ s + i)
    : strnlenReturn s (strnlenEnd s n) (advance s i) = i := by
  rw [strnlenReturn, strnlenEnd_eq start bound, retreat, advance]
  split_ifs <;> omega

/-- The loop over words counts to the first NUL or to the bound, by induction on the rounds. -/
theorem strnlenLoop_counts (below : s + n ≤ 2 ^ 64 - 8) (inside : s + o < 2 ^ 64) (aligned : (s + o) % 8 = 0)
    (clear : ClearBelow mem s 0 o) (limit : s + q < 2 ^ 64) (exit : n ≤ o → n ≤ q)
    (enough : n ≤ o + 8 * fuel)
    : ∃ i read, strnlenLoop mem (s + n) (fuel + 1) (s + o) (s + q) = some (s + i, read)
      ∧ s + i < 2 ^ 64 ∧ CountedTo mem s n i ∧ ReadInBlock mem s 0 n read := by
  induction fuel generalizing o q with
  | zero =>
    have past : n ≤ o := by omega
    refine ⟨q, [], ?_, limit, ?_, fun p none_ => absurd none_ List.not_mem_nil⟩
    · rw [strnlenLoop, if_neg (by omega)]
    · exact ⟨fun j _ below => clear j (by omega), fun below => absurd (exit past) (by omega)⟩
  | succ fuel ih =>
    rw [strnlenLoop]
    by_cases more : o < n
    · have place : advance s o = s + o := Nat.mod_eq_of_lt inside
      have step : advance (s + o) 8 = s + (o + 8) := Nat.mod_eq_of_lt (by omega)
      have aligned' : advance s o % 8 = 0 := by rwa [place]
      have first : ReadInBlock mem s 0 n [s + o] := by
        intro p read
        exact ⟨o, more, clear, by rw [place, List.mem_singleton.mp read]⟩
      rw [if_pos (by omega), step]
      -- What follows a word without NUL.
      have next (passed : ClearBelow mem s 0 (o + 8)) :
          ∃ i read, (strnlenLoop mem (s + n) (fuel + 1) (s + (o + 8)) (s + n)).map
              (fun out => (out.1, (s + o) :: out.2)) = some (s + i, read)
            ∧ s + i < 2 ^ 64 ∧ CountedTo mem s n i ∧ ReadInBlock mem s 0 n read := by
        obtain ⟨i, read, done, room, counted, reads⟩ :=
          @ih (o + 8) n (by omega) (by omega) passed (by omega) (fun _ => le_rfl) (by omega)
        rw [done]
        refine ⟨i, _, rfl, room, counted, fun p found => ?_⟩
        rcases List.mem_cons.mp found with rfl | later
        · exact first _ (List.mem_singleton_self _)
        · exact reads p later
      rcases @firstInWord_cases mem s o (fun b => decide (b = 0)) aligned'
          (fun k lower zero => clear k lower (of_decide_eq_true zero)) with
        ⟨k, small, found, stop⟩ | ⟨found, passed⟩
      · rw [place] at found
        have zero : FirstAt (fun i => charAt mem s i = 0) (o + k) := stop.congr fun _ => decide_eq_true_iff
        have suspect : mayHoldZero (mem.load (s + o)) := by
          rw [← place]
          exact mayHoldZero_of small ((byteAt_load_charAt aligned' small).trans zero.here)
        rw [if_pos suspect, found]
        have result : some (s + o + k, [s + o]) = some (s + (o + k), [s + o]) := by rw [Nat.add_assoc]
        exact ⟨o + k, [s + o], result, by omega, .first zero, first⟩
      · rw [place] at found
        obtain ⟨i, read, done, rest⟩ := next fun k lower zero => passed k lower (decide_eq_true zero)
        refine ⟨i, read, ?_, rest⟩
        rw [found]
        split_ifs <;> exact done
    · refine ⟨q, [], ?_, limit, ?_, fun p none_ => absurd none_ List.not_mem_nil⟩
      · rw [if_neg (by omega)]
      · exact ⟨fun j _ below => clear j (by omega), fun below => absurd (exit (by omega)) (by omega)⟩

/-- In front of the last word of the address space the scan agrees. -/
theorem strnlen_below (below : s + n ≤ 2 ^ 64 - 8) (some_ : n ≠ 0) : StrnlenAgrees mem s n := by
  have start : s < 2 ^ 64 := by omega
  have bound : n < 2 ^ 64 := by omega
  have endPtr : strnlenEnd s n = s + n := by rw [strnlenEnd_eq start bound, if_pos (by omega)]
  rw [StrnlenAgrees, strnlen, if_neg some_]
  rcases @alignUp_start mem s (fun b => decide (b = 0)) start with
    ⟨i, done, first, inside⟩ | ⟨d, small, done, aligned, -, clear⟩
  · rw [done, show advance s i = s + i from Nat.mod_eq_of_lt inside]
    dsimp only
    rw [strnlenReturn_min inside bound]
    have counted : CountedTo mem s n i := .first (first.congr fun _ => decide_eq_true_iff)
    exact ⟨_, _, rfl, counted.length, fun p none_ => absurd none_ List.not_mem_nil⟩
  · have inside : s + d < 2 ^ 64 := by
      omega
    have place : advance s d = s + d := Nat.mod_eq_of_lt inside
    have space : words = 2 ^ 61 := rfl
    rw [place] at aligned
    rw [done, place]
    dsimp only
    obtain ⟨i, read, loop, room, counted, reads⟩ :=
      @strnlenLoop_counts mem s n d d words below inside aligned
        (fun k lower zero => clear k lower (decide_eq_true zero)) inside id (by omega)
    rw [endPtr, loop, ← endPtr]
    refine ⟨_, _, rfl, ?_, fun p found => ?_⟩
    · rw [strnlenReturn_min room bound]
      exact counted.length
    · obtain ⟨j, lower, above, rfl⟩ := reads p found
      exact ⟨j, ⟨lower, above⟩, le_rfl, Nat.lt_add_of_pos_right (by decide)⟩

theorem strnlenLoop_scanWords (beyond : 2 ^ 64 - 8 < endPtr) (aligned : p % 8 = 0) (inside : p < 2 ^ 64)
    : strnlenLoop mem endPtr fuel p q
      = scanWords mem (fun longword => mayHoldZero longword) (· = 0) (· + ·) fuel p := by
  induction fuel generalizing p q with
  | zero => rfl
  | succ fuel ih =>
    have next : advance p 8 % 8 = 0 := by
      rw [advance]
      omega
    rw [strnlenLoop, scanWords, if_pos (by omega), ih next advance_lt]
    by_cases suspect : mayHoldZero (mem.load p)
    · rw [if_pos suspect, if_pos (decide_eq_true suspect)]
    · rw [if_neg suspect, if_neg (by simpa using suspect)]

/-- Without any NUL the scan does not end. -/
theorem scanWords_none {α : Type} {suspect : BitVec 64 → Bool} {stops : UInt8 → Bool}
    {found : Nat → Nat → α}
    (none_ : ∀ a < 2 ^ 64, stops (mem a) = false) (aligned : p % 8 = 0) (inside : p < 2 ^ 64)
    : scanWords mem suspect stops found fuel p = none := by
  induction fuel generalizing p with
  | zero => rfl
  | succ fuel ih =>
    have next : advance p 8 % 8 = 0 := by
      rw [advance]
      omega
    have clear : firstInWord mem p stops = none := by
      rw [firstInWord, List.find?_eq_none]
      intro k small
      have lower := List.mem_range.mp small
      rw [none_ (p + k) (by omega)]
      exact Bool.false_ne_true
    rw [scanWords, clear, ih next advance_lt]
    cases suspect (mem.load p) <;> rfl

theorem strnlenEnd_beyond (start : s < 2 ^ 64) (bound : n < 2 ^ 64) (beyond : 2 ^ 64 - 8 < s + n)
    : 2 ^ 64 - 8 < strnlenEnd s n := by
  rw [strnlenEnd_eq start bound]
  split_ifs <;> omega

private theorem strnlen_none (start : s < 2 ^ 64) (bound : n < 2 ^ 64) (some_ : n ≠ 0) (beyond : 2 ^ 64 - 8 < s + n)
    (none_ : ∀ i, charAt mem s i ≠ 0)
    : strnlen mem s n = none := by
  have everywhere : ∀ a < 2 ^ 64, decide (mem a = 0) = false := by
    intro a inside
    have index : advance s (a + 2 ^ 64 - s) = a := by
      rw [advance]
      omega
    have other := none_ (a + 2 ^ 64 - s)
    rw [charAt, index] at other
    exact decide_eq_false other
  rw [strnlen, if_neg some_]
  rcases @alignUp_start mem s (fun b => decide (b = 0)) start with
    ⟨i, -, first, -⟩ | ⟨d, -, done, aligned, -, -⟩
  · exact absurd (of_decide_eq_true first.here) (none_ i)
  · rw [done]
    dsimp only
    rw [strnlenLoop_scanWords (strnlenEnd_beyond start bound beyond) aligned advance_lt,
      scanWords_none everywhere aligned advance_lt]
    rfl

theorem strnlen_first (start : s < 2 ^ 64) (bound : n < 2 ^ 64) (some_ : n ≠ 0)
    (beyond : 2 ^ 64 - 8 < s + n) (first : FirstAt (fun i => charAt mem s i = 0) i)
    : ∃ read, strnlen mem s n = some (strnlenReturn s (strnlenEnd s n) (advance s i), read)
      ∧ ReadUpTo s i read
      ∧ (2 ^ 64 ≤ s + i → ∃ m k, m + k = i ∧ k < 8 ∧ advance s m ∈ read) := by
  have index := @FirstAt.lt mem s i (fun b => b = 0) first
  have stop : FirstAt (fun i => decide (charAt mem s i = 0) = true) i :=
    first.congr (fun _ => decide_eq_true_iff.symm)
  rw [strnlen, if_neg some_]
  rcases @alignUp_start mem s (fun b => decide (b = 0)) start with
    ⟨i', done, first', inside⟩ | ⟨d, -, done, aligned, -, clear⟩
  · have same := first'.unique stop
    rw [done, same]
    exact ⟨[], rfl, fun p none_ => absurd none_ List.not_mem_nil, fun wrapped => by omega⟩
  · have space : words = 2 ^ 61 := rfl
    rw [done]
    dsimp only
    rw [strnlenLoop_scanWords (strnlenEnd_beyond start bound beyond) aligned advance_lt]
    obtain ⟨read, m, k, found, sum, small, last, reads⟩ :=
      @scanWords_first mem s i d (words + 1) (fun b => decide (b = 0)) Nat
        (fun longword => decide (mayHoldZero longword)) (· + ·)
        (fun w k inside zero => decide_eq_true (mayHoldZero_of inside (of_decide_eq_true zero)))
        aligned stop (stop.le clear) (by omega)
    rw [found, advance_add (reads _ last).1 small, sum]
    exact ⟨read, rfl, reads, fun _ => ⟨m, k, sum, small, last⟩⟩

/-- Where the scan ends in time: the block ends in front of the last word of the address space, or a NUL
stands in front of the end of the address space, inside of the block, or behind it in a word that the block
has a byte of.
-/
def EndsInTime (mem : Memory UInt8) (s n : Nat) : Prop := n = 0 ∨ s + n ≤ 2 ^ 64 - 8
    ∨ ∃ i, charAt mem s i = 0
      ∧ (s + i < 2 ^ 64 ∨ i < n ∨ i = n ∧ ∃ j < n, advance s j / 8 = advance s i / 8)

theorem first_in_time (some_ : charAt mem s j = 0)
    (time : s + j < 2 ^ 64 ∨ j < n ∨ j = n ∧ ∃ k < n, advance s k / 8 = advance s j / 8)
    : ∃ i, FirstAt (fun i => charAt mem s i = 0) i
      ∧ (s + i < 2 ^ 64 ∨ i < n ∨ i = n ∧ ∃ k < n, advance s k / 8 = advance s i / 8) := by
  obtain ⟨i, le, first⟩ := @FirstAt.exists j (fun i => charAt mem s i = 0) some_
  refine ⟨i, first, ?_⟩
  rcases Nat.lt_or_eq_of_le le with lower | rfl
  · rcases time with inside | below | ⟨rfl, -⟩
    · exact .inl (by omega)
    · exact .inr (.inl (by omega))
    · exact .inr (.inl lower)
  · exact time

theorem ReadUpTo.scanned {read : List Nat} (bound : n < 2 ^ 64) (beyond : 2 ^ 64 - 8 < s + n)
    (first : FirstAt (fun i => charAt mem s i = 0) i)
    (time : s + i < 2 ^ 64 ∨ i < n ∨ i = n ∧ ∃ k < n, advance s k / 8 = advance s i / 8)
    (reads : ReadUpTo s i read)
    : ∀ p ∈ read, Touches s (Scanned mem s n) p := by
  intro p found
  obtain ⟨aligned, j, le, rfl⟩ := reads p found
  have clear : ClearBelow mem s 0 j := fun k lower => first.before k (by omega)
  by_cases inside : j < n
  · exact ⟨j, ⟨inside, clear⟩, le_rfl, Nat.lt_add_of_pos_right (by decide)⟩
  · rcases time with low | lower | ⟨rfl, k, lower, word⟩
    · -- An aligned pointer in front of the end of the address space lies in front of the end of the block.
      rw [advance] at aligned
      omega
    · omega
    · have same : j = i := by omega
      rw [same] at aligned ⊢
      exact ⟨k, ⟨lower, fun m below => first.before m (by omega)⟩, by omega, by omega⟩

private theorem strnlen_in_time (start : s < 2 ^ 64) (bound : n < 2 ^ 64) (some_ : n ≠ 0)
    (beyond : 2 ^ 64 - 8 < s + n) (first : FirstAt (fun i => charAt mem s i = 0) i)
    (time : s + i < 2 ^ 64 ∨ i < n ∨ i = n ∧ ∃ k < n, advance s k / 8 = advance s i / 8)
    : StrnlenAgrees mem s n := by
  have index := @FirstAt.lt mem s i (fun b => b = 0) first
  obtain ⟨read, done, reads, -⟩ := strnlen_first start bound some_ beyond first
  have value : strnlenReturn s (strnlenEnd s n) (advance s i) = min i n := by
    by_cases inside : s + i < 2 ^ 64
    · rw [show advance s i = s + i from Nat.mod_eq_of_lt inside, strnlenReturn_min inside bound]
    · rw [strnlenReturn_wrapped start bound index (by omega), Nat.min_eq_left]
      rcases time with low | lower | ⟨same, -⟩
      · exact absurd low inside
      · exact lower.le
      · exact same.le
  rw [value] at done
  exact ⟨_, read, done, (CountedTo.first first).length, reads.scanned bound beyond first time⟩

private theorem StrnlenAgrees.in_time (agrees : StrnlenAgrees mem s n) (start : s < 2 ^ 64) (bound : n < 2 ^ 64)
    (some_ : n ≠ 0) (beyond : 2 ^ 64 - 8 < s + n)
    : ∃ i, charAt mem s i = 0
      ∧ (s + i < 2 ^ 64 ∨ i < n ∨ i = n ∧ ∃ j < n, advance s j / 8 = advance s i / 8) := by
  obtain ⟨result, read, done, ⟨le, -, -⟩, touched⟩ := agrees
  by_cases nul : ∃ i, charAt mem s i = 0
  · obtain ⟨i', here⟩ := nul
    obtain ⟨i, -, first⟩ := @FirstAt.exists i' (fun i => charAt mem s i = 0) here
    have index := @FirstAt.lt mem s i (fun b => b = 0) first
    obtain ⟨read', done', reads, last⟩ := strnlen_first start bound some_ beyond first
    refine ⟨i, first.here, ?_⟩
    by_cases inside : s + i < 2 ^ 64
    · exact .inl inside
    · rw [strnlenReturn_wrapped start bound index (by omega), done] at done'
      cases done'
      rcases Nat.lt_or_eq_of_le le with lower | same
      · exact .inr (.inl lower)
      · obtain ⟨m, k, sum, small, member⟩ := last (by omega)
        obtain ⟨j, ⟨lower, -⟩, above, below⟩ := touched _ member
        have aligned := (reads _ member).1
        have place : advance s m + k = advance s result := by rw [advance_add aligned small, sum]
        exact .inr (.inr ⟨same, j, lower, by omega⟩)
  · rw [strnlen_none start bound some_ beyond (not_exists.mp nul)] at done
    cases done

theorem strnlen_agrees_iff (start : s < 2 ^ 64) (bound : n < 2 ^ 64)
    : StrnlenAgrees mem s n ↔ EndsInTime mem s n := by
  by_cases some_ : n = 0
  · refine iff_of_true ⟨0, [], ?_, ?_, fun p none_ => absurd none_ List.not_mem_nil⟩ (.inl some_)
    · rw [strnlen, if_pos some_]
    · exact ⟨Nat.zero_le n, .zero, fun below => absurd below (by omega)⟩
  · by_cases below : s + n ≤ 2 ^ 64 - 8
    · exact iff_of_true (strnlen_below below some_) (.inr (.inl below))
    · have beyond : 2 ^ 64 - 8 < s + n := by omega
      refine ⟨fun agrees => .inr (.inr (agrees.in_time start bound some_ beyond)), fun time => ?_⟩
      obtain ⟨j, here, time⟩ := (time.resolve_left some_).resolve_left below
      obtain ⟨i, first, time⟩ := first_in_time here time
      exact strnlen_in_time start bound some_ beyond first time

/-- The scanners that go word by word agree with scans of single bytes, and read no word outside of the bytes
that such a scan looks at.
-/
structure ScannersAgree (mem : Memory UInt8) (s : Nat) (cIn : Int) (n : Nat) : Prop where
  strlen : StrlenAgrees mem s
  strnlen : StrnlenAgrees mem s n
  memchr : MemchrAgrees mem s cIn n
  memrchr : MemrchrAgrees mem s cIn n
  strchr : StrchrAgrees mem s cIn

/-- The scanners agree exactly if the scan of `strnlen` ends in time. -/
theorem scanners_agree_iff {cIn : Int} (start : s < 2 ^ 64) (bound : n < 2 ^ 64)
    : ScannersAgree mem s cIn n ↔ EndsInTime mem s n := by
  rw [← strnlen_agrees_iff start bound]
  exact ⟨fun agree => agree.strnlen, fun agrees =>
    ⟨strlen_agrees start, agrees, memchr_agrees start, memrchr_agrees, strchr_agrees start⟩⟩

/-- A scan of nine bytes at address 16 ends in time. -/
theorem scanners_agree_nine : ScannersAgree (fun _ => 1) 16 97 9 :=
  (scanners_agree_iff (by decide) (by decide)).mpr (.inr (.inl (by decide)))

/-- Sixteen bytes in front of the end of the address space, with a NUL at address 3. -/
def atEnd : Memory UInt8 := fun a => if a = 3 then 0 else 1

/-- A scan of nine bytes from there on reads the word at address 0, and returns 19. -/
theorem strnlen_atEnd : ¬ ∀ (mem : Memory UInt8) (s : Nat) (cIn : Int) (n : Nat),
    s < 2 ^ 64 → n < 2 ^ 64 → ScannersAgree mem s cIn n := by
  intro agree
  obtain ⟨result, read, done, ⟨le, -, -⟩, -⟩ :=
    (agree atEnd (2 ^ 64 - 16) 97 9 (by decide) (by decide)).strnlen
  have wrapped : Wordwise.strnlen atEnd (2 ^ 64 - 16) 9 = some (19, [2 ^ 64 - 16, 2 ^ 64 - 8, 0]) := by
    decide +kernel
  rw [wrapped] at done
  cases done
  omega

end Nglibc.Strings.Wordwise
