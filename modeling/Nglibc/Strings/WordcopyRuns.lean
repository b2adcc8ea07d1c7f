import Nglibc.Strings.Wordcopy

/-! The unrolled copies move one word after the other: between two labels a fixed number of words is
written, and the registers hold the words that are read ahead.

What a copy does is given by a schedule: the places of the words, the memory after some of them are
written, and what it means to hold one of them in a register.
-/

namespace Nglibc.Strings.Wordwise

open Memory

variable {total w t k b fuel len : Nat} {srcAt dstAt : Nat → Int} {written : Nat → Memory UInt8}
  {Holds : Nat → BitVec 64 → Prop} {index : Nat → Int} {words step : Int} {s : Wordcopy}
  {mem : Memory UInt8} {dstp srcp : Int}

/-! Schedules -/

/-- Both places of the words move by `step` words from one to the next. -/
structure Stepwise (srcAt dstAt : Nat → Int) (step : Int) : Prop where
  src : ∀ t, srcAt (t + 1) = srcAt t + step * opsiz
  dst : ∀ t, dstAt (t + 1) = dstAt t + step * opsiz

structure Consecutive (index : Nat → Int) (width : Nat) (step : Int) : Prop where
  next : ∀ k, index k = index (k + 1) + step
  turn : index 0 = index width + step * width

/-- A copy of `total` words that are aligned at both places. -/
structure AlignedSchedule (total : Nat) (srcAt dstAt : Nat → Int) (written : Nat → Memory UInt8)
    (Holds : Nat → BitVec 64 → Prop)
    : Prop where
  reads : ∀ w t, w ≤ t → t < total → Holds t ((written w).load (address (srcAt t)))
  writes : ∀ t v, t < total → Holds t v
    → (written t).storeWord (address (dstAt t)) v = written (t + 1)

/-- Label `k` of an aligned copy, after `w` words are written. -/
structure AlignedAt (index : Nat → Int) (total : Nat) (srcAt dstAt : Nat → Int)
    (written : Nat → Memory UInt8) (Holds : Nat → BitVec 64 → Prop) (w k : Nat) (s : Wordcopy)
    : Prop where
  label : k ≤ 8
  left : w < total
  mem : s.mem = written w
  src : s.srcp + index k * opsiz = srcAt (w + 1)
  dst : s.dstp + index k * opsiz = dstAt w
  register : Holds w (if k % 2 = 0 then s.a1 else s.a0)
  len : s.len + w + 1 = total + (8 - k)

section

variable (schedule : AlignedSchedule total srcAt dstAt written Holds)
include schedule

/-- The labels of an aligned copy. -/
theorem alignedAt_invariant (stepwise : Stepwise srcAt dstAt step)
    (consecutive : Consecutive index 8 step)
    : UnrolledInvariant (fun k s => (.inr (alignedLabel index k s) : Empty ⊕ Wordcopy))
        (.advance (step * 8) 8) Wordcopy.more 8 (total - 1)
        (AlignedAt index total srcAt dstAt written Holds) (fun _ => True) where
  step := by
    intro w k s at_ left
    refine .inr ⟨_, rfl, ?_⟩
    have next := consecutive.next k
    have srcNext := stepwise.src (w + 1)
    have dstNext := stepwise.dst w
    have read := schedule.reads w (w + 1) (Nat.le_succ w) (by omega)
    have wrote := schedule.writes w _ (by omega) at_.register
    rw [← at_.src] at read
    rw [← at_.dst, ← at_.mem] at wrote
    have label := at_.label
    have len := at_.len
    have src : s.srcp + index k * opsiz = srcAt (w + 1 + 1) := by
      rw [srcNext, ← at_.src, next]
      ring
    have dst : s.dstp + index k * opsiz = dstAt (w + 1) := by
      rw [dstNext, ← at_.dst, next]
      ring
    rw [← at_.mem] at read
    rw [alignedLabel]
    by_cases even : (k + 1) % 2 = 0
    · have odd : ¬ k % 2 = 0 := by omega
      rw [if_pos even] at wrote ⊢
      exact ⟨by omega, by omega, wrote, src, dst, by rw [if_neg odd]; exact read, by dsimp only; omega⟩
    · have odd : k % 2 = 0 := by omega
      rw [if_neg even] at wrote ⊢
      exact ⟨by omega, by omega, wrote, src, dst, by rw [if_pos odd]; exact read, by dsimp only; omega⟩
  turned := by
    intro w s at_
    have turn := consecutive.turn
    have len := at_.len
    have left := at_.left
    refine ⟨le_rfl, left, at_.mem, ?_, ?_, at_.register, ?_⟩
    · rw [← at_.src, turn, Wordcopy.advance]
      push_cast
      ring
    · rw [← at_.dst, turn, Wordcopy.advance]
      push_cast
      ring
    · rw [Wordcopy.advance]
      dsimp only
      omega
  goes := by
    intro w s at_
    have len := at_.len
    rw [Wordcopy.more, Wordcopy.advance, decide_eq_true_eq]
    dsimp only
    omega

theorem AlignedAt.do0 (at_ : AlignedAt index total srcAt dstAt written Holds w 8 s) (last : w + 1 = total)
    : setOp s.mem s.dstp (index 8) s.a1 = written total := by
  have wrote := schedule.writes w s.a1 at_.left at_.register
  rw [← at_.dst, ← at_.mem, last] at wrote
  exact wrote

theorem AlignedAt.loop (stepwise : Stepwise srcAt dstAt step) (consecutive : Consecutive index 8 step)
    (at_ : AlignedAt index total srcAt dstAt written Holds 0 k s) (rounds : total = 1 + k + 8 * b)
    (enough : b < fuel)
    : (unrolledThrough (alignedLabel index) (.advance (step * 8) 8) Wordcopy.more 8 fuel k s).map
          (fun s => setOp s.mem s.dstp (index 8) s.a1)
        = some (written total) := by
  obtain ⟨s', ends, last⟩ :=
    (alignedAt_invariant schedule stepwise consecutive).through at_ (by omega) enough
  rw [ends, Option.map_some, last.do0 schedule (by omega)]

end

/-! The aligned copies -/

theorem fwdAligned_stepwise
    : Stepwise (fun t => srcp + t * opsiz) (fun t => dstp + t * opsiz) 1 := by
  constructor <;> intro t <;> push_cast <;> ring

theorem fwdAligned_consecutive : Consecutive fwdAlignedIndex 8 1 := by
  constructor
  · intro k
    rw [fwdAlignedIndex, fwdAlignedIndex]
    push_cast
    ring
  · rfl

/-- The state in which label `k` of `_wordcopy_fwd_aligned` is entered. -/
def fwdAlignedEntry (mem : Memory UInt8) (dstp srcp : Int) (len k : Nat) : Wordcopy :=
  let a := opAt mem srcp 0
  { mem, srcp := srcp - (7 - k) * opsiz, dstp := dstp - (8 - k) * opsiz, len := len + 7 - k,
    a0 := if k % 2 = 0 then 0 else a, a1 := if k % 2 = 0 then a else 0 }

theorem wordcopyFwdAligned_enters
    : wordcopyFwdAligned mem dstp srcp len
      = enterUnrolled 8 len (opTThres ≤ 3 * opsiz) (some mem) (fun s => some (fwdAlignedDo0 s))
          (fun k s => (fwdAlignedLoop (len + 1) k s).map fwdAlignedDo0)
          (fwdAlignedEntry mem dstp srcp len) := by
  have bound : len % 8 < 8 := Nat.mod_lt _ (by omega)
  rw [wordcopyFwdAligned, enterUnrolled]
  generalize len % 8 = r at *
  interval_cases r <;> rfl

/-- `_wordcopy_fwd_aligned` copies the words upwards. -/
theorem wordcopyFwdAligned_eq
    (schedule : AlignedSchedule len (fun t => srcp + t * opsiz) (fun t => dstp + t * opsiz) written Holds)
    : wordcopyFwdAligned (written 0) dstp srcp len = some (written len) := by
  have enter (k : Nat) (label : k ≤ 8) (some_ : 0 < len)
      : AlignedAt fwdAlignedIndex len (fun t => srcp + t * opsiz) (fun t => dstp + t * opsiz) written
          Holds 0 k (fwdAlignedEntry (written 0) dstp srcp len k) := by
    have read := schedule.reads 0 0 le_rfl some_
    refine ⟨label, some_, rfl, ?_, ?_, ?_, ?_⟩
    · rw [fwdAlignedEntry, fwdAlignedIndex]
      push_cast
      ring
    · rw [fwdAlignedEntry, fwdAlignedIndex]
      push_cast
      ring
    · rw [fwdAlignedEntry]
      split_ifs <;> exact read
    · rw [fwdAlignedEntry]
      dsimp only
      omega
  rw [wordcopyFwdAligned_enters]
  refine enterUnrolled_satisfies (P := (· = some (written len))) (by decide) (by decide) ?_ ?_ ?_
  · rintro rfl
    rfl
  · intro single
    exact congrArg some ((enter 8 le_rfl (by omega)).do0 schedule (by omega))
  · intro k b _ label rounds
    exact (enter k label (by omega)).loop schedule fwdAligned_stepwise fwdAligned_consecutive rounds
      (by omega)

theorem opAt_eq {p i q : Int} (place : p + i * opsiz = q) : opAt mem p i = mem.load (address q) := by
  rw [opAt, place]

theorem bwdAligned_stepwise
    : Stepwise (fun t => srcp - (t + 1 : Nat) * opsiz) (fun t => dstp - (t + 1 : Nat) * opsiz) (-1) := by
  constructor <;> intro t <;> push_cast <;> ring

theorem bwdAligned_consecutive : Consecutive bwdAlignedIndex 8 (-1) := by
  constructor
  · intro k
    rw [bwdAlignedIndex, bwdAlignedIndex]
    push_cast
    ring
  · rfl

/-- The state in which label `k` of `_wordcopy_bwd_aligned` is entered. -/
def bwdAlignedEntry (mem : Memory UInt8) (dstp srcp : Int) (len k : Nat) : Wordcopy :=
  let a := opAt mem (srcp - (k + 1 : Nat) * opsiz) k
  { mem, srcp := srcp - (k + 1 : Nat) * opsiz, dstp := dstp - k * opsiz, len := len + 7 - k,
    a0 := if k % 2 = 0 then 0 else a, a1 := if k % 2 = 0 then a else 0 }

theorem wordcopyBwdAligned_enters
    : wordcopyBwdAligned mem dstp srcp len
      = enterUnrolled 8 len (opTThres ≤ 3 * opsiz) (some mem) (fun s => some (bwdAlignedDo0 s))
          (fun k s => (bwdAlignedLoop (len + 1) k s).map bwdAlignedDo0)
          (bwdAlignedEntry mem dstp srcp len) := by
  have bound : len % 8 < 8 := Nat.mod_lt _ (by omega)
  rw [wordcopyBwdAligned, enterUnrolled]
  generalize len % 8 = r at *
  interval_cases r <;> rfl

/-- `_wordcopy_bwd_aligned` copies the words downwards. -/
theorem wordcopyBwdAligned_eq
    (schedule : AlignedSchedule len (fun t => srcp - (t + 1 : Nat) * opsiz)
      (fun t => dstp - (t + 1 : Nat) * opsiz) written Holds)
    : wordcopyBwdAligned (written 0) dstp srcp len = some (written len) := by
  have enter (k : Nat) (label : k ≤ 8) (some_ : 0 < len)
      : AlignedAt bwdAlignedIndex len (fun t => srcp - (t + 1 : Nat) * opsiz)
          (fun t => dstp - (t + 1 : Nat) * opsiz) written Holds 0 k
          (bwdAlignedEntry (written 0) dstp srcp len k) := by
    have read := schedule.reads 0 0 le_rfl some_
    have place : srcp - (k + 1 : Nat) * opsiz + k * opsiz = srcp - (0 + 1 : Nat) * opsiz := by
      push_cast
      ring
    refine ⟨label, some_, rfl, ?_, ?_, ?_, ?_⟩
    · rw [bwdAlignedEntry, bwdAlignedIndex]
      push_cast
      ring
    · rw [bwdAlignedEntry, bwdAlignedIndex]
      push_cast
      ring
    · rw [bwdAlignedEntry, opAt_eq place]
      split_ifs <;> exact read
    · rw [bwdAlignedEntry]
      dsimp only
      omega
  rw [wordcopyBwdAligned_enters]
  refine enterUnrolled_satisfies (P := (· = some (written len))) (by decide) (by decide) ?_ ?_ ?_
  · rintro rfl
    rfl
  · intro single
    exact congrArg some ((enter 8 le_rfl (by omega)).do0 schedule (by omega))
  · intro k b _ label rounds
    exact (enter k label (by omega)).loop schedule bwdAligned_stepwise bwdAligned_consecutive rounds
      (by omega)

/-! The copies to an aligned destination -/

/-- A copy of `total` words to aligned places, each merged from two that are read at aligned places. -/
structure MergedSchedule (total : Nat) (srcAt dstAt : Nat → Int) (written : Nat → Memory UInt8)
    (Holds : Nat → BitVec 64 → Prop) (merged : BitVec 64 → BitVec 64 → BitVec 64)
    : Prop where
  reads : ∀ w t, w = 0 ∨ w < t → t ≤ total → Holds t ((written w).load (address (srcAt t)))
  writes : ∀ t v v', t < total → Holds t v → Holds (t + 1) v'
    → (written t).storeWord (address (dstAt t)) (merged v v') = written (t + 1)

/-- The labels of a merging copy: each reads a word and writes the one merged from the two in the
registers `older` and `newer`.
-/
structure MergingLabels (label : Nat → Wordcopy → Wordcopy) (index : Nat → Int)
    (older newer : Nat → Wordcopy → BitVec 64) (merged : BitVec 64 → BitVec 64 → BitVec 64)
    : Prop where
  mem : ∀ k < 4, ∀ s, (label (k + 1) s).mem
    = setOp s.mem s.dstp (index (k + 1)) (merged (older (k + 1) s) (newer (k + 1) s))
  srcp : ∀ k < 4, ∀ s, (label (k + 1) s).srcp = s.srcp
  dstp : ∀ k < 4, ∀ s, (label (k + 1) s).dstp = s.dstp
  len : ∀ k < 4, ∀ s, (label (k + 1) s).len = s.len
  shifted : ∀ k < 4, ∀ s, older k (label (k + 1) s) = newer (k + 1) s
  read : ∀ k < 4, ∀ s, newer k (label (k + 1) s) = opAt s.mem s.srcp (index (k + 1))
  older_turn : ∀ words s, older 4 (.advance words 4 s) = older 0 s
  newer_turn : ∀ words s, newer 4 (.advance words 4 s) = newer 0 s

/-- Label `k` of a merging copy, after `w` words are written. -/
structure MergedAt (older newer : Nat → Wordcopy → BitVec 64) (index : Nat → Int) (total : Nat)
    (srcAt dstAt : Nat → Int) (written : Nat → Memory UInt8) (Holds : Nat → BitVec 64 → Prop)
    (w k : Nat) (s : Wordcopy)
    : Prop where
  label : k ≤ 4
  left : w < total
  mem : s.mem = written w
  src : s.srcp + index k * opsiz = srcAt (w + 2)
  dst : s.dstp + index k * opsiz = dstAt w
  first : Holds w (older k s)
  second : Holds (w + 1) (newer k s)
  len : s.len + w + 1 = total + (4 - k)

variable {label : Nat → Wordcopy → Wordcopy} {older newer : Nat → Wordcopy → BitVec 64}
  {merged : BitVec 64 → BitVec 64 → BitVec 64} {sh1 sh2 : Nat}

section

variable (schedule : MergedSchedule total srcAt dstAt written Holds merged)
include schedule

/-- The labels of a merging copy. -/
theorem mergedAt_invariant (labels : MergingLabels label index older newer merged)
    (stepwise : Stepwise srcAt dstAt step) (consecutive : Consecutive index 4 step)
    : UnrolledInvariant (fun k s => (.inr (label k s) : Empty ⊕ Wordcopy)) (.advance (step * 4) 4)
        Wordcopy.more 4 (total - 1) (MergedAt older newer index total srcAt dstAt written Holds)
        (fun _ => True) where
  step := by
    intro w k s at_ left
    refine .inr ⟨_, rfl, ?_⟩
    have bound := at_.label
    have len := at_.len
    have next := consecutive.next k
    have read := schedule.reads w (w + 2) (.inr (by omega)) (by omega)
    have wrote := schedule.writes w _ _ (by omega) at_.first at_.second
    rw [← at_.src, ← at_.mem] at read
    rw [← at_.dst, ← at_.mem] at wrote
    refine ⟨by omega, by omega, ?_, ?_, ?_, ?_, ?_, ?_⟩
    · rw [labels.mem k (by omega)]
      exact wrote
    · rw [labels.srcp k (by omega), stepwise.src (w + 2), ← at_.src, next]
      ring
    · rw [labels.dstp k (by omega), stepwise.dst w, ← at_.dst, next]
      ring
    · rw [labels.shifted k (by omega)]
      exact at_.second
    · rw [labels.read k (by omega)]
      exact read
    · rw [labels.len k (by omega)]
      omega
  turned := by
    intro w s at_
    have turn := consecutive.turn
    have len := at_.len
    have left := at_.left
    refine ⟨le_rfl, left, at_.mem, ?_, ?_, ?_, ?_, ?_⟩
    · rw [← at_.src, turn, Wordcopy.advance]
      push_cast
      ring
    · rw [← at_.dst, turn, Wordcopy.advance]
      push_cast
      ring
    · rw [labels.older_turn]
      exact at_.first
    · rw [labels.newer_turn]
      exact at_.second
    · rw [Wordcopy.advance]
      dsimp only
      omega
  goes := by
    intro w s at_
    have len := at_.len
    rw [Wordcopy.more, Wordcopy.advance, decide_eq_true_eq]
    dsimp only
    omega

theorem MergedAt.do0 (at_ : MergedAt older newer index total srcAt dstAt written Holds w 4 s)
    (last : w + 1 = total)
    : setOp s.mem s.dstp (index 4) (merged (older 4 s) (newer 4 s)) = written total := by
  have wrote := schedule.writes w _ _ at_.left at_.first at_.second
  rw [← at_.dst, ← at_.mem, last] at wrote
  exact wrote

theorem MergedAt.loop (labels : MergingLabels label index older newer merged)
    (stepwise : Stepwise srcAt dstAt step) (consecutive : Consecutive index 4 step)
    (at_ : MergedAt older newer index total srcAt dstAt written Holds 0 k s)
    (rounds : total = 1 + k + 4 * b) (enough : b < fuel)
    : (unrolledThrough label (.advance (step * 4) 4) Wordcopy.more 4 fuel k s).map
          (fun s => setOp s.mem s.dstp (index 4) (merged (older 4 s) (newer 4 s)))
        = some (written total) := by
  obtain ⟨s', ends, last⟩ :=
    (mergedAt_invariant schedule labels stepwise consecutive).through at_ (by omega) enough
  rw [ends, Option.map_some, last.do0 schedule (by omega)]

end

/-- The word that label `k` accesses. -/
def fwdDestAlignedIndex (k : Nat) : Int := 4 - k

/-- The registers at label `k` that hold the word of the place and the one behind it. -/
def fwdOlder : Nat → Wordcopy → BitVec 64
  | 3, s => s.a3
  | 2, s => s.a0
  | 1, s => s.a1
  | _, s => s.a2

def fwdNewer : Nat → Wordcopy → BitVec 64
  | 3, s => s.a0
  | 2, s => s.a1
  | 1, s => s.a2
  | _, s => s.a3

theorem fwdDestAligned_labels
    : MergingLabels (fwdDestAlignedLabel sh1 sh2) fwdDestAlignedIndex fwdOlder fwdNewer
        (fun v v' => merge v sh1 v' sh2) := by
  constructor
  case older_turn => exact fun _ _ => rfl
  case newer_turn => exact fun _ _ => rfl
  all_goals
    intro k bound s
    obtain rfl | rfl | rfl | rfl : k = 0 ∨ k = 1 ∨ k = 2 ∨ k = 3 := by omega
    all_goals rfl

theorem fwdDestAligned_consecutive : Consecutive fwdDestAlignedIndex 4 1 := by
  constructor
  · intro k
    rw [fwdDestAlignedIndex, fwdDestAlignedIndex]
    push_cast
    ring
  · rfl

/-- The state in which label `k` of `_wordcopy_fwd_dest_aligned` is entered. -/
def fwdDestAlignedEntry (mem : Memory UInt8) (dstp srcp : Int) (len k : Nat) : Wordcopy :=
  let a := opAt mem srcp 0
  let b := opAt mem srcp 1
  let s : Wordcopy :=
    { mem, srcp := srcp - (2 - k) * opsiz, dstp := dstp - (4 - k) * opsiz, len := len + 3 - k }
  match k with
  | 1 => { s with a1 := a, a2 := b }
  | 2 => { s with a0 := a, a1 := b }
  | 3 => { s with a3 := a, a0 := b }
  | _ => { s with a2 := a, a3 := b }

theorem wordcopyFwdDestAligned_enters
    : wordcopyFwdDestAligned mem dstp srcp len
      = enterUnrolled 4 len (opTThres ≤ 3 * opsiz) (some mem)
          (fun s => some (fwdDestAlignedDo0 (shift1 srcp) (shift2 srcp) s))
          (fun k s => (fwdDestAlignedLoop (shift1 srcp) (shift2 srcp) (len + 1) k s).map
            (fwdDestAlignedDo0 (shift1 srcp) (shift2 srcp)))
          (fwdDestAlignedEntry mem dstp (alignDown srcp) len) := by
  have bound : len % 4 < 4 := Nat.mod_lt _ (by omega)
  rw [wordcopyFwdDestAligned, enterUnrolled]
  generalize len % 4 = r at *
  interval_cases r <;> rfl

/-- `_wordcopy_fwd_dest_aligned` copies the words upwards. -/
theorem wordcopyFwdDestAligned_eq
    (schedule : MergedSchedule len (fun t => alignDown srcp + t * opsiz) (fun t => dstp + t * opsiz)
      written Holds (fun v v' => merge v (shift1 srcp) v' (shift2 srcp)))
    : wordcopyFwdDestAligned (written 0) dstp srcp len = some (written len) := by
  have enter (k : Nat) (some_ : 0 < k) (label : k ≤ 4) (rounds : 0 < len)
      : MergedAt fwdOlder fwdNewer fwdDestAlignedIndex len (fun t => alignDown srcp + t * opsiz)
          (fun t => dstp + t * opsiz) written Holds 0 k
          (fwdDestAlignedEntry (written 0) dstp (alignDown srcp) len k) := by
    have first := schedule.reads 0 0 (.inl rfl) (Nat.zero_le _)
    have second := schedule.reads 0 1 (.inl rfl) rounds
    obtain rfl | rfl | rfl | rfl : k = 1 ∨ k = 2 ∨ k = 3 ∨ k = 4 := by omega
    all_goals
      refine ⟨label, rounds, rfl, ?_, ?_, first, second, ?_⟩
      · simp only [fwdDestAlignedEntry, fwdDestAlignedIndex]
        push_cast
        ring
      · simp only [fwdDestAlignedEntry, fwdDestAlignedIndex]
        push_cast
        ring
      · simp only [fwdDestAlignedEntry]
        omega
  rw [wordcopyFwdDestAligned_enters]
  refine enterUnrolled_satisfies (P := (· = some (written len))) (by decide) (by decide) ?_ ?_ ?_
  · rintro rfl
    rfl
  · intro single
    exact congrArg some ((enter 4 (by decide) le_rfl (by omega)).do0 schedule (by omega))
  · intro k b some_ label rounds
    exact (enter k some_ label (by omega)).loop schedule fwdDestAligned_labels fwdAligned_stepwise
      fwdDestAligned_consecutive rounds (by omega)

/-- The word that label `k` accesses. -/
def bwdDestAlignedIndex (k : Nat) : Int := k - 1

/-- The registers at label `k` that hold the word of the place and the one before it. -/
def bwdOlder : Nat → Wordcopy → BitVec 64
  | 3, s => s.a0
  | 2, s => s.a3
  | 1, s => s.a2
  | _, s => s.a1

def bwdNewer : Nat → Wordcopy → BitVec 64
  | 3, s => s.a3
  | 2, s => s.a2
  | 1, s => s.a1
  | _, s => s.a0

theorem bwdDestAligned_labels
    : MergingLabels (bwdDestAlignedLabel sh1 sh2) bwdDestAlignedIndex bwdOlder bwdNewer
        (fun v v' => merge v' sh1 v sh2) := by
  constructor
  case older_turn => exact fun _ _ => rfl
  case newer_turn => exact fun _ _ => rfl
  all_goals
    intro k bound s
    obtain rfl | rfl | rfl | rfl : k = 0 ∨ k = 1 ∨ k = 2 ∨ k = 3 := by omega
    all_goals rfl

theorem bwdDestAligned_consecutive : Consecutive bwdDestAlignedIndex 4 (-1) := by
  constructor
  · intro k
    rw [bwdDestAlignedIndex, bwdDestAlignedIndex]
    push_cast
    ring
  · rfl

theorem bwdDestAligned_stepwise
    : Stepwise (fun t => srcp - t * opsiz) (fun t => dstp - (t + 1 : Nat) * opsiz) (-1) := by
  constructor <;> intro t <;> push_cast <;> ring

/-- The state in which label `k` of `_wordcopy_bwd_dest_aligned` is entered. -/
def bwdDestAlignedEntry (mem : Memory UInt8) (dstp srcp : Int) (len k : Nat) : Wordcopy :=
  let a := opAt mem (srcp - (k + 2 : Nat) * opsiz) (k + 1 : Nat)
  let b := opAt mem (srcp - (k + 2 : Nat) * opsiz) k
  let s : Wordcopy :=
    { mem, srcp := srcp - (k + 2 : Nat) * opsiz, dstp := dstp - k * opsiz, len := len + 3 - k }
  match k with
  | 1 => { s with a2 := a, a1 := b }
  | 2 => { s with a3 := a, a2 := b }
  | 3 => { s with a0 := a, a3 := b }
  | _ => { s with a1 := a, a0 := b }

theorem wordcopyBwdDestAligned_enters
    : wordcopyBwdDestAligned mem dstp srcp len
      = enterUnrolled 4 len (opTThres ≤ 3 * opsiz) (some mem)
          (fun s => some (bwdDestAlignedDo0 (shift1 srcp) (shift2 srcp) s))
          (fun k s => (bwdDestAlignedLoop (shift1 srcp) (shift2 srcp) (len + 1) k s).map
            (bwdDestAlignedDo0 (shift1 srcp) (shift2 srcp)))
          (bwdDestAlignedEntry mem dstp (alignDown srcp + opsiz) len) := by
  have bound : len % 4 < 4 := Nat.mod_lt _ (by omega)
  rw [wordcopyBwdDestAligned, enterUnrolled]
  generalize len % 4 = r at *
  interval_cases r <;> rfl

/-- `_wordcopy_bwd_dest_aligned` copies the words downwards. -/
theorem wordcopyBwdDestAligned_eq
    (schedule : MergedSchedule len (fun t => alignDown srcp - t * opsiz)
      (fun t => dstp - (t + 1 : Nat) * opsiz) written Holds
      (fun v v' => merge v' (shift1 srcp) v (shift2 srcp)))
    : wordcopyBwdDestAligned (written 0) dstp srcp len = some (written len) := by
  have enter (k : Nat) (some_ : 0 < k) (label : k ≤ 4) (rounds : 0 < len)
      : MergedAt bwdOlder bwdNewer bwdDestAlignedIndex len (fun t => alignDown srcp - t * opsiz)
          (fun t => dstp - (t + 1 : Nat) * opsiz) written Holds 0 k
          (bwdDestAlignedEntry (written 0) dstp (alignDown srcp + opsiz) len k) := by
    have first := schedule.reads 0 0 (.inl rfl) (Nat.zero_le _)
    have second := schedule.reads 0 1 (.inl rfl) rounds
    have place (t : Nat)
        : alignDown srcp + opsiz - (k + 2 : Nat) * opsiz + (k + 1 - t : Int) * opsiz
          = alignDown srcp - t * opsiz := by
      push_cast
      ring
    have older := @opAt_eq (written 0) _ _ _ (place 0)
    have newer := @opAt_eq (written 0) _ _ _ (place 1)
    rw [← older] at first
    rw [← newer] at second
    obtain rfl | rfl | rfl | rfl : k = 1 ∨ k = 2 ∨ k = 3 ∨ k = 4 := by omega
    all_goals
      refine ⟨label, rounds, rfl, ?_, ?_, first, second, ?_⟩
      · simp only [bwdDestAlignedEntry, bwdDestAlignedIndex]
        push_cast
        ring
      · simp only [bwdDestAlignedEntry, bwdDestAlignedIndex]
        push_cast
        ring
      · simp only [bwdDestAlignedEntry]
        omega
  rw [wordcopyBwdDestAligned_enters]
  refine enterUnrolled_satisfies (P := (· = some (written len))) (by decide) (by decide) ?_ ?_ ?_
  · rintro rfl
    rfl
  · intro single
    exact congrArg some ((enter 4 (by decide) le_rfl (by omega)).do0 schedule (by omega))
  · intro k b some_ label rounds
    exact (enter k some_ label (by omega)).loop schedule bwdDestAligned_labels bwdDestAligned_stepwise
      bwdDestAligned_consecutive rounds (by omega)

end Nglibc.Strings.Wordwise
