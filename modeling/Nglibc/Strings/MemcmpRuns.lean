import Mathlib.Tactic.Linarith
import Nglibc.Strings.Memcmp

/-! `memcmp` compares bytes: its word loops find the first pair of words that differ, and the bytes of
these two decide.
-/

namespace Nglibc.Strings.Wordwise

open Memory

variable {f g : Nat → UInt8} {n k w t total b fuel : Nat} {res : Int} {v v' : BitVec 64}
  {mem : Memory UInt8} {p p1 p2 : Int} {s : Memcmp}

/-- The result of comparing the first `n` bytes: 0, or the difference of the first two that differ. -/
def Compared (f g : Nat → UInt8) (n : Nat) (res : Int) : Prop := (res = 0 ∧ ∀ j < n, f j = g j)
  ∨ ∃ i < n, (∀ j < i, f j = g j) ∧ f i ≠ g i ∧ res = ((f i).toNat : Int) - (g i).toNat

/-- A result is in the range of the difference of two bytes. -/
theorem Compared.range (compared : Compared f g n res) : -255 ≤ res ∧ res ≤ 255 := by
  rcases compared with ⟨rfl, -⟩ | ⟨i, -, -, -, rfl⟩
  · exact ⟨by decide, by decide⟩
  · have left := (f i).toNat_lt
    have right := (g i).toNat_lt
    omega

/-- The result is 0 exactly if all bytes are equal. -/
theorem Compared.zero_iff (compared : Compared f g n res) : res = 0 ↔ ∀ j < n, f j = g j := by
  rcases compared with ⟨rfl, same⟩ | ⟨i, inside, -, differ, rfl⟩
  · exact iff_of_true rfl same
  · refine iff_of_false (fun zero => differ ?_) (fun same => differ (same i inside))
    apply UInt8.toNat.inj
    omega

/-- The sign of the result is that of the first difference. -/
theorem Compared.sign (compared : Compared f g n res) {i : Nat} (inside : i < n)
    (same : ∀ j < i, f j = g j) (differ : f i ≠ g i)
    : res.sign = (((f i).toNat : Int) - (g i).toNat).sign := by
  rcases compared with ⟨-, all⟩ | ⟨i', inside', same', differ', rfl⟩
  · exact absurd (all i inside) differ
  · rcases Nat.lt_trichotomy i i' with below | rfl | above
    · exact absurd (same' i below) differ
    · rfl
    · exact absurd (same i' above) differ'

/-- Equal bytes, and the result for the ones behind them. -/
theorem Compared.behind {a : Nat} (same : ∀ j < a, f j = g j)
    (rest : Compared (fun j => f (a + j)) (fun j => g (a + j)) n res)
    : Compared f g (a + n) res := by
  have all {m : Nat} (behind : ∀ j < m, f (a + j) = g (a + j)) : ∀ j < a + m, f j = g j := by
    intro j inside
    by_cases low : j < a
    · exact same j low
    · obtain ⟨d, rfl⟩ := Nat.exists_eq_add_of_le (Nat.le_of_not_lt low)
      exact behind d (by omega)
  rcases rest with ⟨rfl, behind⟩ | ⟨i, inside, behind, differ, rfl⟩
  · exact .inl ⟨rfl, all behind⟩
  · exact .inr ⟨a + i, by omega, all behind, differ, rfl⟩

theorem Compared.congr {f' g' : Nat → UInt8} (compared : Compared f g n res)
    (first : ∀ j < n, f j = f' j) (second : ∀ j < n, g j = g' j)
    : Compared f' g' n res := by
  rcases compared with ⟨rfl, same⟩ | ⟨i, inside, same, differ, rfl⟩
  · refine .inl ⟨rfl, fun j below => ?_⟩
    rw [← first j below, ← second j below]
    exact same j below
  · rw [first i inside, second i inside] at differ ⊢
    refine .inr ⟨i, inside, fun j below => ?_, differ, rfl⟩
    rw [← first j (by omega), ← second j (by omega)]
    exact same j below

/-- A result that is not 0 remains with more bytes. -/
theorem Compared.more {m : Nat} (compared : Compared f g n res) (nonzero : res ≠ 0) (le : n ≤ m)
    : Compared f g m res := by
  rcases compared with ⟨zero, -⟩ | ⟨i, inside, same, differ, rfl⟩
  · exact absurd zero nonzero
  · exact .inr ⟨i, by omega, same, differ, rfl⟩

theorem intOfOp_sub (a b : UInt8) : intOfOp (opOfByte a - opOfByte b) = (a.toNat : Int) - b.toNat := by
  have left := a.toNat_lt
  have right := b.toNat_lt
  rw [intOfOp, BitVec.toInt_eq_toNat_cond, BitVec.toNat_setWidth, BitVec.toNat_sub, opOfByte, opOfByte,
    BitVec.toNat_ofNat, BitVec.toNat_ofNat]
  omega

theorem opOfByte_inj (a b : UInt8) : opOfByte a = opOfByte b ↔ a = b := by
  have left := a.toNat_lt
  have right := b.toNat_lt
  rw [← BitVec.toNat_inj, ← UInt8.toNat_inj, opOfByte, opOfByte, BitVec.toNat_ofNat, BitVec.toNat_ofNat]
  omega

theorem opOfByte_sub (a b : UInt8) : opOfByte a - opOfByte b = 0 ↔ a = b := by
  rw [BitVec.sub_eq_iff_eq_add, ← opOfByte_inj]
  simp only [BitVec.ofNat_eq_ofNat, BitVec.zero_add]

theorem intOfOp_ofInt (low : -255 ≤ res) (high : res ≤ 255) : intOfOp (BitVec.ofInt 64 res) = res := by
  rw [intOfOp, BitVec.toInt_eq_toNat_cond, BitVec.toNat_setWidth, BitVec.toNat_ofInt]
  omega

theorem ofInt_eq_zero (low : -255 ≤ res) (high : res ≤ 255) : BitVec.ofInt 64 res = 0 ↔ res = 0 := by
  have zero : (0 : BitVec 64).toNat = 0 := rfl
  rw [← BitVec.toNat_inj, BitVec.toNat_ofInt]
  omega

/-- The loop over the bytes of two words that differ ends inside of them, by induction on the bytes that
are left.
-/
theorem memcmpBytesLoop_compared {left i : Nat} (same : ∀ j < i, byteAt v j = byteAt v' j)
    (place : i + left = 8) (differ : v ≠ v')
    : ∃ res, memcmpBytesLoop v v' left i = some res ∧ res ≠ 0
        ∧ Compared (byteAt v) (byteAt v') 8 res := by
  induction left generalizing i with
  | zero => exact absurd (word_eq (fun j inside => same j (by omega))) differ
  | succ left ih =>
    rw [memcmpBytesLoop]
    by_cases equal : byteAt v i = byteAt v' i
    · rw [if_pos ((opOfByte_inj _ _).mpr equal)]
      apply ih
      · intro j inside
        rcases Nat.lt_or_eq_of_le (Nat.le_of_lt_succ inside) with below | rfl
        · exact same j below
        · exact equal
      · omega
    · rw [if_neg (fun same => equal ((opOfByte_inj _ _).mp same)), intOfOp_sub]
      refine ⟨_, rfl, ?_, .inr ⟨i, by omega, same, equal, rfl⟩⟩
      intro zero
      apply equal
      apply UInt8.toNat.inj
      omega

theorem memcmpBytes_compared (differ : v ≠ v')
    : ∃ res, memcmpBytes v v' = some res ∧ res ≠ 0 ∧ Compared (byteAt v) (byteAt v') 8 res :=
  memcmpBytesLoop_compared (fun _ inside => absurd inside (Nat.not_lt_zero _)) rfl differ

/-- What comparing the words `x` and `y` returns: 0 if they are all equal, or what the first two that
differ give.
-/
def WordsCompared (x y : Nat → BitVec 64) (total : Nat) (out : Option Int) : Prop :=
  (out = some 0 ∧ ∀ t < total, x t = y t)
  ∨ ∃ t < total, (∀ j < t, x j = y j) ∧ x t ≠ y t ∧ out = memcmpBytes (x t) (y t)

theorem WordsCompared.bytes {x y : Nat → BitVec 64} {out : Option Int}
    (compared : WordsCompared x y total out)
    (first : ∀ t < total, ∀ i < 8, byteAt (x t) i = f (8 * t + i))
    (second : ∀ t < total, ∀ i < 8, byteAt (y t) i = g (8 * t + i))
    : ∃ res, out = some res ∧ Compared f g (8 * total) res := by
  have equal {m : Nat} (le : m ≤ total) (same : ∀ j < m, x j = y j) : ∀ j < 8 * m, f j = g j := by
    intro j inside
    have place : 8 * (j / 8) + j % 8 = j := Nat.div_add_mod j 8
    rw [← place, ← first _ (by omega) _ (by omega), ← second _ (by omega) _ (by omega),
      same _ (by omega)]
  rcases compared with ⟨rfl, same⟩ | ⟨t, left, same, differ, rfl⟩
  · exact ⟨0, rfl, .inl ⟨rfl, equal le_rfl same⟩⟩
  · obtain ⟨res, done, nonzero, bytes⟩ := memcmpBytes_compared differ
    refine ⟨res, done, ?_⟩
    have here : Compared (fun j => f (8 * t + j)) (fun j => g (8 * t + j)) 8 res :=
      bytes.congr (first t left) (second t left)
    exact (Compared.behind (equal (Nat.le_of_lt left) same) here).more nonzero (by omega)

/-- The labels of a loop that compares the words `x` and `y` in turn. `Holds w k` says of a state at label
`k` that its pending pair, from the registers `a` and `b`, is the one of the place `w`.
-/
structure ComparingLabels (label : Nat → Memcmp → Option Int ⊕ Memcmp) (a b : Nat → Memcmp → BitVec 64)
    (x y : Nat → BitVec 64) (Holds : Nat → Nat → Memcmp → Prop)
    : Prop where
  pending : ∀ w k s, Holds w k s → a k s = x w ∧ b k s = y w
  next : ∀ k < 4, ∀ s, ∃ s', label (k + 1) s = compareOp (a (k + 1) s) (b (k + 1) s) s'
    ∧ s'.len = s.len ∧ ∀ w, Holds w (k + 1) s → Holds (w + 1) k s'
  turn : ∀ w s, Holds w 0 s → Holds w 4 s.advance

/-- Label `k`, after `w` pairs have turned out equal. -/
structure ComparedAt (x y : Nat → BitVec 64) (Holds : Nat → Nat → Memcmp → Prop) (total w k : Nat)
    (s : Memcmp)
    : Prop where
  label : k ≤ 4
  left : w < total
  same : ∀ j < w, x j = y j
  holds : Holds w k s
  len : s.len + w + 1 = total + (4 - k)

variable {label : Nat → Memcmp → Option Int ⊕ Memcmp} {a c : Nat → Memcmp → BitVec 64}
  {x y : Nat → BitVec 64} {Holds : Nat → Nat → Memcmp → Prop}

section

variable (labels : ComparingLabels label a c x y Holds)
include labels

/-- Whatever words the labels compare, the ones before were equal. -/
private theorem comparedAt_invariant
    : UnrolledInvariant label Memcmp.advance Memcmp.more 4 (total - 1) (ComparedAt x y Holds total)
        (WordsCompared x y total) where
  step := by
    intro w k s at_ left
    have bound := at_.label
    have len := at_.len
    obtain ⟨s', compares, length, next⟩ := labels.next k (by omega) s
    obtain ⟨first, second⟩ := labels.pending _ _ _ at_.holds
    rw [compares, compareOp, first, second]
    by_cases differ : x w ≠ y w
    · rw [if_pos differ]
      exact .inl ⟨_, rfl, .inr ⟨w, at_.left, at_.same, differ, rfl⟩⟩
    · rw [if_neg differ]
      refine .inr ⟨s', rfl, by omega, by omega, ?_, next w at_.holds, by omega⟩
      exact Nat.forall_lt_succ_right.mpr ⟨at_.same, not_not.mp differ⟩
  turned := by
    intro w s at_
    have left := at_.left
    have len := at_.len
    refine ⟨le_rfl, left, at_.same, labels.turn w s at_.holds, ?_⟩
    rw [Memcmp.advance]
    dsimp only
    omega
  goes := by
    intro w s at_
    have len := at_.len
    rw [Memcmp.more, Memcmp.advance, decide_eq_true_eq]
    dsimp only
    omega

theorem ComparedAt.do0 (at_ : ComparedAt x y Holds total w 4 s) (last : w + 1 = total)
    : WordsCompared x y total (if a 4 s ≠ c 4 s then memcmpBytes (a 4 s) (c 4 s) else some 0) := by
  obtain ⟨first, second⟩ := labels.pending _ _ _ at_.holds
  rw [first, second]
  by_cases differ : x w ≠ y w
  · rw [if_pos differ]
    exact .inr ⟨w, at_.left, at_.same, differ, rfl⟩
  · rw [if_neg differ]
    refine .inl ⟨rfl, fun j inside => ?_⟩
    rcases Nat.lt_or_eq_of_le (Nat.le_of_lt_succ (by omega : j < w + 1)) with below | rfl
    · exact at_.same j below
    · exact not_not.mp differ

theorem ComparedAt.loop (at_ : ComparedAt x y Holds total 0 k s) (rounds : total = 1 + k + 4 * b)
    (enough : b < fuel)
    : WordsCompared x y total
        (behindLoop (fun s => if a 4 s ≠ c 4 s then memcmpBytes (a 4 s) (c 4 s) else some 0)
          (unrolled label Memcmp.advance Memcmp.more 4 fuel k s)) := by
  rcases (comparedAt_invariant labels).run at_ (by omega) enough with
    ⟨out, leaves, right⟩ | ⟨s', ends, last⟩
  · rw [leaves]
    exact right
  · rw [ends]
    exact last.do0 labels (by omega)

end

/-- The pair that is pending at label `k` of `memcmp_common_alignment`. -/
def commonA (k : Nat) (s : Memcmp) : BitVec 64 := if k % 2 = 0 then s.a1 else s.a0

def commonB (k : Nat) (s : Memcmp) : BitVec 64 := if k % 2 = 0 then s.b1 else s.b0

/-- The pending pair is the one of place `w`, and label `k` reads the one behind it. -/
structure CommonHolds (mem : Memory UInt8) (p1 p2 : Int) (w k : Nat) (s : Memcmp) : Prop where
  src1 : s.srcp1 + (4 - k) * opsiz = p1 + (w + 1) * opsiz
  src2 : s.srcp2 + (4 - k) * opsiz = p2 + (w + 1) * opsiz
  first : commonA k s = opAt mem p1 w
  second : commonB k s = opAt mem p2 w

theorem opAt_congr {q i j : Int} (place : p + i * opsiz = q + j * opsiz) : opAt mem p i = opAt mem q j := by
  rw [opAt, opAt, place]

/-- Aligned words, in the labels that take the first and the second word in turn. -/
theorem common_labels
    : ComparingLabels (commonLabel mem) commonA commonB (fun t => opAt mem p1 t) (fun t => opAt mem p2 t)
        (CommonHolds mem p1 p2) where
  pending := fun _ _ _ holds => ⟨holds.first, holds.second⟩
  next := by
    intro k bound s
    have step (i : Int) (place : i = 4 - (k + 1)) {w : Nat} (holds : CommonHolds mem p1 p2 w (k + 1) s)
        : (s.srcp1 + (4 - k) * opsiz = p1 + ((w + 1 : Nat) + 1) * opsiz
            ∧ s.srcp2 + (4 - k) * opsiz = p2 + ((w + 1 : Nat) + 1) * opsiz)
          ∧ opAt mem s.srcp1 i = opAt mem p1 (w + 1 : Nat)
          ∧ opAt mem s.srcp2 i = opAt mem p2 (w + 1 : Nat) := by
      have src1 := holds.src1
      have src2 := holds.src2
      push_cast at src1 src2 ⊢
      refine ⟨⟨by linarith, by linarith⟩, opAt_congr ?_, opAt_congr ?_⟩
      · rw [place]
        exact src1
      · rw [place]
        exact src2
    obtain rfl | rfl | rfl | rfl : k = 0 ∨ k = 1 ∨ k = 2 ∨ k = 3 := by omega
    all_goals
      refine ⟨_, rfl, rfl, fun w holds => ?_⟩
      obtain ⟨⟨src1, src2⟩, read1, read2⟩ := step _ rfl holds
      exact ⟨src1, src2, read1, read2⟩
  turn := by
    intro w s holds
    have src1 := holds.src1
    have src2 := holds.src2
    refine ⟨?_, ?_, holds.first, holds.second⟩
    · rw [Memcmp.advance]
      push_cast at src1 ⊢
      linarith
    · rw [Memcmp.advance]
      push_cast at src2 ⊢
      linarith

theorem commonDo0_eq (s : Memcmp)
    : commonDo0 s = if commonA 4 s ≠ commonB 4 s then memcmpBytes (commonA 4 s) (commonB 4 s) else some 0 :=
  rfl

/-- The state in which label `k` of `memcmp_common_alignment` is entered. -/
def commonEntry (mem : Memory UInt8) (p1 p2 : Int) (len k : Nat) : Memcmp :=
  let a := opAt mem p1 0
  let b := opAt mem p2 0
  let s : Memcmp := { srcp1 := p1 - (3 - k) * opsiz, srcp2 := p2 - (3 - k) * opsiz, len := len + 3 - k }
  if k % 2 = 0 then { s with a1 := a, b1 := b } else { s with a0 := a, b0 := b }

theorem memcmpCommonAlignment_enters (len : Nat)
    : memcmpCommonAlignment mem p1 p2 len
      = enterUnrolled 4 len (opTThres ≤ 3 * opsiz) (some 0) commonDo0 (commonGoto mem (len + 1))
          (commonEntry mem p1 p2 len) := by
  have bound : len % 4 < 4 := Nat.mod_lt _ (by omega)
  rw [memcmpCommonAlignment, enterUnrolled]
  generalize len % 4 = r at *
  interval_cases r <;> simp [commonEntry]

/-- `memcmp_common_alignment` compares the words. -/
theorem memcmpCommonAlignment_compared (len : Nat)
    : WordsCompared (fun t => opAt mem p1 t) (fun t => opAt mem p2 t) len
        (memcmpCommonAlignment mem p1 p2 len) := by
  have enter (k : Nat) (label : k ≤ 4) (rounds : 0 < len)
      : ComparedAt (fun t => opAt mem p1 t) (fun t => opAt mem p2 t) (CommonHolds mem p1 p2) len 0 k
          (commonEntry mem p1 p2 len k) := by
    refine ⟨label, rounds, fun j none_ => absurd none_ (Nat.not_lt_zero j), ⟨?_, ?_, ?_, ?_⟩, ?_⟩
    · rw [commonEntry, apply_ite Memcmp.srcp1, ite_self]
      push_cast
      ring
    · rw [commonEntry, apply_ite Memcmp.srcp2, ite_self]
      push_cast
      ring
    · rw [commonA, commonEntry]
      split_ifs <;> rfl
    · rw [commonB, commonEntry]
      split_ifs <;> rfl
    · rw [commonEntry, apply_ite Memcmp.len, ite_self]
      dsimp only
      omega
  rw [memcmpCommonAlignment_enters]
  refine enterUnrolled_satisfies (by decide) (by decide) ?_ ?_ ?_
  · rintro rfl
    exact .inl ⟨rfl, fun j inside => absurd inside (Nat.not_lt_zero j)⟩
  · intro single
    rw [commonDo0_eq]
    exact (enter 4 le_rfl (by omega)).do0 common_labels (by omega)
  · intro k b _ label rounds
    exact (enter k label (by omega)).loop common_labels rounds (by omega)

/-- The registers at label `k` of `memcmp_not_common_alignment` that hold the two words to be merged, and
the one of the other block.
-/
def olderA : Nat → Memcmp → BitVec 64
  | 3, s => s.a3
  | 2, s => s.a0
  | 1, s => s.a1
  | _, s => s.a2

def newerA : Nat → Memcmp → BitVec 64
  | 3, s => s.a0
  | 2, s => s.a1
  | 1, s => s.a2
  | _, s => s.a3

def pendingB : Nat → Memcmp → BitVec 64
  | 3, s => s.b0
  | 2, s => s.b1
  | 1, s => s.b2
  | _, s => s.b3

variable {shl shr : Nat}

/-- The words to be merged are the ones of the places `w` and `w + 1`. -/
structure NotCommonHolds (mem : Memory UInt8) (p1 p2 : Int) (w k : Nat) (s : Memcmp) : Prop where
  src1 : s.srcp1 + (4 - k) * opsiz = p1 + (w + 2) * opsiz
  src2 : s.srcp2 + (4 - k) * opsiz = p2 + (w + 1) * opsiz
  older : olderA k s = opAt mem p1 w
  newer : newerA k s = opAt mem p1 (w + 1 : Nat)
  other : pendingB k s = opAt mem p2 w

/-- Words merged from two reads, in the labels that exchange the older and the newer. -/
theorem notCommon_labels
    : ComparingLabels (notCommonLabel mem shl shr) (fun k s => merge (olderA k s) shl (newerA k s) shr)
        pendingB (fun t => merge (opAt mem p1 t) shl (opAt mem p1 (t + 1 : Nat)) shr)
        (fun t => opAt mem p2 t) (NotCommonHolds mem p1 p2) where
  pending := by
    intro w k s holds
    rw [holds.older, holds.newer]
    exact ⟨rfl, holds.other⟩
  next := by
    intro k bound s
    have step (i : Int) (place : i = 4 - (k + 1)) {w : Nat} (holds : NotCommonHolds mem p1 p2 w (k + 1) s)
        : (s.srcp1 + (4 - k) * opsiz = p1 + ((w + 1 : Nat) + 2) * opsiz
            ∧ s.srcp2 + (4 - k) * opsiz = p2 + ((w + 1 : Nat) + 1) * opsiz)
          ∧ opAt mem s.srcp1 i = opAt mem p1 (w + 1 + 1 : Nat)
          ∧ opAt mem s.srcp2 i = opAt mem p2 (w + 1 : Nat) := by
      have src1 := holds.src1
      have src2 := holds.src2
      push_cast at src1 src2 ⊢
      refine ⟨⟨by linarith, by linarith⟩, opAt_congr ?_, opAt_congr ?_⟩
      · rw [place]
        linarith
      · rw [place]
        linarith
    obtain rfl | rfl | rfl | rfl : k = 0 ∨ k = 1 ∨ k = 2 ∨ k = 3 := by omega
    all_goals
      refine ⟨_, rfl, rfl, fun w holds => ?_⟩
      obtain ⟨⟨src1, src2⟩, read1, read2⟩ := step _ rfl holds
      exact ⟨src1, src2, holds.newer, read1, read2⟩
  turn := by
    intro w s holds
    have src1 := holds.src1
    have src2 := holds.src2
    refine ⟨?_, ?_, holds.older, holds.newer, holds.other⟩
    · rw [Memcmp.advance]
      push_cast at src1 ⊢
      linarith
    · rw [Memcmp.advance]
      push_cast at src2 ⊢
      linarith

def mergedAt (mem : Memory UInt8) (p : Int) (t : Nat) : BitVec 64 :=
  merge (opAt mem (alignDown p) t) (shift1 p) (opAt mem (alignDown p) (t + 1 : Nat)) (shift2 p)

theorem notCommonDo0_eq (s : Memcmp)
    : notCommonDo0 shl shr s = if merge (olderA 4 s) shl (newerA 4 s) shr ≠ pendingB 4 s then
          memcmpBytes (merge (olderA 4 s) shl (newerA 4 s) shr) (pendingB 4 s)
        else some 0 :=
  rfl

/-- The state in which label `k` of `memcmp_not_common_alignment` is entered. -/
def notCommonEntry (mem : Memory UInt8) (p1 p2 : Int) (len k : Nat) : Memcmp :=
  let a := opAt mem p1 0
  let a' := opAt mem p1 1
  let b := opAt mem p2 0
  let s : Memcmp := { srcp1 := p1 - (2 - k) * opsiz, srcp2 := p2 - (3 - k) * opsiz, len := len + 3 - k }
  match k with
  | 1 => { s with a1 := a, a2 := a', b2 := b }
  | 2 => { s with a0 := a, a1 := a', b1 := b }
  | 3 => { s with a3 := a, a0 := a', b0 := b }
  | _ => { s with a2 := a, a3 := a', b3 := b }

theorem memcmpNotCommonAlignment_enters (len : Nat)
    : memcmpNotCommonAlignment mem p1 p2 len
      = enterUnrolled 4 len (opTThres ≤ 3 * opsiz) (some 0) (notCommonDo0 (shift1 p1) (shift2 p1))
          (notCommonGoto mem (shift1 p1) (shift2 p1) (len + 1))
          (notCommonEntry mem (alignDown p1) p2 len) := by
  have bound : len % 4 < 4 := Nat.mod_lt _ (by omega)
  rw [memcmpNotCommonAlignment, enterUnrolled]
  generalize len % 4 = r at *
  interval_cases r <;> simp [notCommonEntry]

/-- `memcmp_not_common_alignment` compares the words that are merged. -/
theorem memcmpNotCommonAlignment_compared (len : Nat)
    : WordsCompared (mergedAt mem p1) (fun t => opAt mem p2 t) len
        (memcmpNotCommonAlignment mem p1 p2 len) := by
  have enter (k : Nat) (some_ : 0 < k) (label : k ≤ 4) (rounds : 0 < len)
      : ComparedAt (mergedAt mem p1) (fun t => opAt mem p2 t) (NotCommonHolds mem (alignDown p1) p2) len 0 k
          (notCommonEntry mem (alignDown p1) p2 len k) := by
    obtain rfl | rfl | rfl | rfl : k = 1 ∨ k = 2 ∨ k = 3 ∨ k = 4 := by omega
    all_goals
      refine ⟨label, rounds, fun j none_ => absurd none_ (Nat.not_lt_zero j), ⟨?_, ?_, rfl, rfl, rfl⟩, ?_⟩
      · simp only [notCommonEntry]
        push_cast
        ring
      · simp only [notCommonEntry]
        push_cast
        ring
      · simp only [notCommonEntry]
        omega
  rw [memcmpNotCommonAlignment_enters]
  refine enterUnrolled_satisfies (by decide) (by decide) ?_ ?_ ?_
  · rintro rfl
    exact .inl ⟨rfl, fun j inside => absurd inside (Nat.not_lt_zero j)⟩
  · intro single
    rw [notCommonDo0_eq]
    exact (enter 4 (by decide) le_rfl (by omega)).do0 notCommon_labels (by omega)
  · intro k b some_ label rounds
    exact (enter k some_ label (by omega)).loop notCommon_labels rounds (by omega)

theorem address_add {q : Int} {i : Nat} (aligned : q % 8 = 0) (inside : i < 8)
    : address q + i = address (q + i) := by
  rw [address, address]
  omega

theorem byteAt_opAt {i : Nat} (aligned : p % 8 = 0) (inside : i < 8)
    : byteAt (opAt mem p t) i = byte mem p (8 * t + i) := by
  have width : (opsiz : Int) = 8 := rfl
  have place : p + t * opsiz + i = p + (8 * t + i : Nat) := by
    rw [width]
    push_cast
    ring
  rw [opAt, byteAt_load inside, address_add (by rw [width]; omega) inside, place, byte]

private theorem byteAt_mergedAt {i : Nat} (off : p % 8 ≠ 0) (inside : i < 8)
    : byteAt (mergedAt mem p t) i = byte mem p (8 * t + i) := by
  have width : (opsiz : Int) = 8 := rfl
  have round : alignDown p % 8 = 0 := by
    rw [alignDown, width]
    omega
  have shift : shift2 p = 64 - shift1 p := by rw [shift2, opsiz]
  obtain ⟨o, place⟩ : ∃ o : Nat, p % 8 = o := Int.eq_ofNat_of_zero_le (Int.emod_nonneg _ (by decide))
  have residue : (p % (opsiz : Int)).toNat = o := by
    rw [width, place]
    rfl
  rw [mergedAt, merge, shift, shift1, residue, byteAt_shifts inside (by omega) (by omega)]
  by_cases near : i + o < 8
  · rw [if_pos near, byteAt_opAt round near, byte, alignDown, width, place]
    congr 2
    push_cast
    ring
  · rw [if_neg near, byteAt_opAt round (by omega), byte, alignDown, width]
    congr 2
    omega

theorem byte_add {d j : Nat} : byte mem (p + d) j = byte mem p (d + j) := by
  rw [byte, byte, Nat.cast_add, Int.add_assoc]

theorem byteLoop_compared : Compared (byte mem p1) (byte mem p2) n (byteLoop mem n p1 p2) := by
  induction n generalizing p1 p2 with
  | zero => exact .inl ⟨rfl, fun j inside => absurd inside (Nat.not_lt_zero j)⟩
  | succ n ih =>
    rw [byteLoop]
    by_cases same : byte mem p1 0 = byte mem p2 0
    · rw [if_neg (not_not_intro ((opOfByte_sub _ _).mpr same)), Nat.add_comm]
      have next := @ih (p1 + (1 : Nat)) (p2 + (1 : Nat))
      apply Compared.behind
      · intro j inside
        obtain rfl : j = 0 := by omega
        exact same
      · exact next.congr (fun _ _ => byte_add) (fun _ _ => byte_add)
    · rw [if_pos (fun zero => same ((opOfByte_sub _ _).mp zero)), intOfOp_sub]
      exact .inr ⟨0, Nat.succ_pos n, fun j inside => absurd inside (Nat.not_lt_zero j), same, rfl⟩

/-- The state of `memcmp` when the first `d` bytes have turned out equal. -/
structure EqualTo (mem : Memory UInt8) (p1 p2 : Int) (n d : Nat) (s : Memcmp) : Prop where
  src1 : s.srcp1 = p1 + d
  src2 : s.srcp2 = p2 + d
  len : s.len + d = n
  same : ∀ j < d, byte mem p1 j = byte mem p2 j

/-- The loop up to the alignment ends with a result, or in front of an aligned word. -/
theorem alignmentLoop_compared {d : Nat} (at_ : EqualTo mem p1 p2 n d s)
    (enough : (-s.srcp2 % 8).toNat < fuel) (room : (-s.srcp2 % 8).toNat ≤ s.len)
    : (∃ res, alignmentLoop mem fuel s = some (.inl res) ∧ Compared (byte mem p1) (byte mem p2) n res)
      ∨ ∃ s' d', alignmentLoop mem fuel s = some (.inr s') ∧ EqualTo mem p1 p2 n d' s'
        ∧ s'.srcp2 % 8 = 0 := by
  have width : (opsiz : Int) = 8 := rfl
  induction fuel generalizing s d with
  | zero => omega
  | succ fuel ih =>
    rw [alignmentLoop]
    by_cases unaligned : s.srcp2 % opsiz ≠ 0
    · rw [if_pos unaligned]
      rw [width] at unaligned
      have len := at_.len
      have first : byte mem s.srcp1 0 = byte mem p1 d := by rw [at_.src1, byte_add, Nat.add_zero]
      have second : byte mem s.srcp2 0 = byte mem p2 d := by rw [at_.src2, byte_add, Nat.add_zero]
      rw [first, second]
      by_cases same : byte mem p1 d = byte mem p2 d
      · rw [if_neg (not_not_intro ((opOfByte_sub _ _).mpr same))]
        refine @ih _ (d + 1) ⟨?_, ?_, ?_, ?_⟩ ?_ ?_
        · rw [at_.src1]
          push_cast
          ring
        · rw [at_.src2]
          push_cast
          ring
        · dsimp only
          omega
        · intro j inside
          rcases Nat.lt_or_eq_of_le (Nat.le_of_lt_succ inside) with below | rfl
          · exact at_.same j below
          · exact same
        · dsimp only
          omega
        · dsimp only
          omega
      · rw [if_pos (fun zero => same ((opOfByte_sub _ _).mp zero)), intOfOp_sub]
        exact .inl ⟨_, rfl, .inr ⟨d, by omega, at_.same, same, rfl⟩⟩
    · rw [if_neg unaligned]
      exact .inr ⟨s, d, rfl, at_, not_not.mp unaligned⟩

/-- The whole words and the bytes behind them are compared. -/
theorem compareWords_compared (aligned : s.srcp2 % 8 = 0)
    : ∃ res, compareWords mem s = some res
        ∧ Compared (byte mem s.srcp1) (byte mem s.srcp2) s.len res := by
  have width' : opsiz = 8 := rfl
  have words : ∃ res, (if s.srcp1 % opsiz = 0 then
        memcmpCommonAlignment mem s.srcp1 s.srcp2 (s.len / opsiz)
      else memcmpNotCommonAlignment mem s.srcp1 s.srcp2 (s.len / opsiz)) = some res
      ∧ Compared (byte mem s.srcp1) (byte mem s.srcp2) (8 * (s.len / opsiz)) res := by
    by_cases common : s.srcp1 % opsiz = 0
    · rw [if_pos common]
      exact (memcmpCommonAlignment_compared _).bytes (fun t _ i inside => byteAt_opAt common inside)
        (fun t _ i inside => byteAt_opAt aligned inside)
    · rw [if_neg common]
      exact (memcmpNotCommonAlignment_compared _).bytes
        (fun t _ i inside => byteAt_mergedAt common inside)
        (fun t _ i inside => byteAt_opAt aligned inside)
  obtain ⟨res, done, compared⟩ := words
  obtain ⟨low, high⟩ := compared.range
  rw [compareWords]
  rw [done, Option.map_some]
  refine ⟨_, rfl, ?_⟩
  by_cases zero : res = 0
  · rw [if_neg (not_not_intro ((ofInt_eq_zero low high).mpr zero))]
    have whole : s.len - s.len % 8 + s.len % 8 = s.len := by omega
    have place : 8 * (s.len / 8) = s.len - s.len % 8 := by omega
    have same := compared.zero_iff.mp zero
    rw [width', place] at same
    have rest := @byteLoop_compared (s.len % 8) mem (s.srcp1 + (s.len - s.len % 8 : Nat))
      (s.srcp2 + (s.len - s.len % 8 : Nat))
    have all := Compared.behind same (rest.congr (fun _ _ => byte_add) (fun _ _ => byte_add))
    rwa [whole] at all
  · rw [if_pos (fun nothing => zero ((ofInt_eq_zero low high).mp nothing)), intOfOp_ofInt low high]
    exact compared.more zero (by rw [width']; omega)

/-- `memcmp` returns 0 exactly if the blocks are equal, and otherwise a number with the sign of the
difference of the first two bytes that differ.
-/
theorem memcmp_compares (mem : Memory UInt8) (s1 s2 len : Nat)
    : ∃ res, memcmp mem s1 s2 len = some res ∧ (res = 0 ↔ ∀ i < len, byte mem s1 i = byte mem s2 i)
        ∧ ∀ i < len, (∀ j < i, byte mem s1 j = byte mem s2 j) → byte mem s1 i ≠ byte mem s2 i
          → res.sign = (((byte mem s1 i).toNat : Int) - (byte mem s2 i).toNat).sign := by
  have threshold : opTThres = 16 := rfl
  have width : opsiz = 8 := rfl
  have compares : ∃ res, memcmp mem s1 s2 len = some res
      ∧ Compared (byte mem s1) (byte mem s2) len res := by
    rw [memcmp]
    by_cases long : len ≥ opTThres
    · have start : EqualTo mem s1 s2 len 0 { srcp1 := s1, srcp2 := s2, len } :=
        ⟨by simp, by simp, rfl, fun j inside => absurd inside (Nat.not_lt_zero j)⟩
      rw [if_pos long]
      rcases @alignmentLoop_compared _ opsiz mem _ _ _ _ start (by dsimp only; omega)
          (by dsimp only; omega) with
        ⟨res, done, compared⟩ | ⟨s, d, done, at_, aligned⟩
      · rw [done]
        exact ⟨res, rfl, compared⟩
      · rw [done]
        obtain ⟨res, words, compared⟩ := @compareWords_compared mem s aligned
        have total : d + s.len = len := by rw [Nat.add_comm, at_.len]
        rw [at_.src1, at_.src2] at compared
        have all :=
          Compared.behind at_.same (compared.congr (fun _ _ => byte_add) (fun _ _ => byte_add))
        rw [total] at all
        exact ⟨res, words, all⟩
    · rw [if_neg long]
      exact ⟨_, rfl, byteLoop_compared⟩
  obtain ⟨res, done, compared⟩ := compares
  exact ⟨res, done, compared.zero_iff, fun i inside same differ => compared.sign inside same differ⟩

end Nglibc.Strings.Wordwise
