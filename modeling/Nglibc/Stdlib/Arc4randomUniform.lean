import Mathlib.Tactic

/-! `arc4random_uniform` of `stdlib/arc4random_uniform.c`. A turn of its loop draws a word and looks
at the pieces of it one after the other; every number below the bound comes from the same number of
words.
-/

namespace Nglibc.Arc4random

/-- `powerof2` of `sys/param.h`. -/
def powerof2 (x : Nat) : Bool := (x - 1) &&& x == 0

/-- `__builtin_clz` for a number of 32 bits. -/
def clz (n : Nat) : Nat := 31 - n.log2

/-- The loop over the rest of a word. -/
def leftoverLoop (n mask bits : Nat) : Nat → Nat → Nat → Option Nat
  | 0, _, _ => none
  | fuel + 1, bitsLeft, value =>
    if bitsLeft ≥ bits then
      let value := value >>> bits
      let r := value &&& mask
      if r < n then some r else leftoverLoop n mask bits fuel (bitsLeft - bits) value
    else none

/-- What a drawn word gives, `none` if all pieces of it are rejected. -/
def turn (n word : Nat) : Option Nat :=
  if powerof2 n then some (word &&& (n - 1))
  else
    let z := clz n
    let mask := (2 ^ 32 - 1) >>> z
    let bits := 32 - z
    let r := word &&& mask
    if r < n then some r else leftoverLoop n mask bits (z + 1) z word

/-- `__arc4random_uniform` on the words that `__arc4random` gives, and the words that it leaves. It
is `none` if there are too few of them.
-/
def arc4randomUniform (n : Nat) : List Nat → Option (Nat × List Nat)
  | [] => if n ≤ 1 then some (0, []) else none
  | word :: words =>
    if n ≤ 1 then some (0, word :: words)
    else match turn n word with
      | some r => some (r, words)
      | none => arc4randomUniform n words

/-- How many words give a number. -/
def hits (n r : Nat) : Nat := ((Finset.range (2 ^ 32)).filter fun word => turn n word = some r).card

/-- The first piece of `b` bits that is less than `n`, from the low end of a word of `w` bits. -/
def chunks (n b : Nat) : Nat → Nat → Nat → Option Nat
  | 0, _, _ => none
  | fuel + 1, w, value =>
    if b ≤ w then
      if value % 2 ^ b < n then some (value % 2 ^ b) else chunks n b fuel (w - b) (value / 2 ^ b)
    else none

theorem leftoverLoop_eq (n b fuel w value : Nat)
    : leftoverLoop n (2 ^ b - 1) b fuel w value = chunks n b fuel w (value / 2 ^ b) := by
  induction fuel generalizing w value with
  | zero => rfl
  | succ fuel ih =>
    rw [leftoverLoop, chunks]
    dsimp only
    rw [Nat.and_two_pow_sub_one_eq_mod, Nat.shiftRight_eq_div_pow, ih]

theorem chunks_lt {n b fuel w value r : Nat} (found : chunks n b fuel w value = some r)
    : r < n := by
  induction fuel generalizing w value with
  | zero => cases found
  | succ fuel ih =>
    rw [chunks] at found
    split_ifs at found with fits below
    · cases found
      exact below
    · exact ih found

/-- A turn looks at pieces of at most 32 bits. At least half of the pieces are below the bound. -/
theorem turn_eq {n : Nat} (two : 2 ≤ n) (int : n < 2 ^ 32)
    : ∃ b fuel, b ≤ 32 ∧ n ≤ 2 ^ b ∧ 2 ^ b ≤ 2 * n
      ∧ ∀ word, turn n word = chunks n b (fuel + 1) 32 word := by
  have log : n.log2 < 32 := (Nat.log2_lt (by omega)).mpr int
  have power := Nat.and_sub_one_eq_zero_iff_isPowerOfTwo (show n ≠ 0 by omega)
  unfold turn powerof2
  by_cases easy : (n - 1) &&& n = 0
  · obtain ⟨b, rfl⟩ := power.mp (by rwa [Nat.and_comm])
    refine ⟨b, 0, ?_, le_rfl, Nat.le_mul_of_pos_left _ (by norm_num), fun word => ?_⟩
    · exact ((Nat.pow_lt_pow_iff_right (by norm_num)).mp int).le
    · have small := (Nat.pow_lt_pow_iff_right (by norm_num)).mp int
      rw [if_pos (by rw [easy]; rfl), chunks, if_pos small.le,
        if_pos (Nat.mod_lt _ (Nat.two_pow_pos b)), Nat.and_two_pow_sub_one_eq_mod]
  · have width : 32 - clz n = n.log2 + 1 := by
      unfold clz
      omega
    have mask : (2 ^ 32 - 1) >>> clz n = 2 ^ (n.log2 + 1) - 1 := by
      rw [← width]
      have below : clz n ≤ 31 := Nat.sub_le _ _
      generalize clz n = z at below
      interval_cases z <;> rfl
    refine ⟨n.log2 + 1, clz n + 1, by omega, Nat.lt_log2_self.le, ?_, fun word => ?_⟩
    · rw [Nat.pow_succ, Nat.mul_comm]
      exact Nat.mul_le_mul_left 2 (Nat.log2_self_le (by omega))
    · rw [if_neg (by simpa using easy)]
      dsimp only
      rw [mask, width, chunks, if_pos (show n.log2 + 1 ≤ 32 by omega),
        Nat.and_two_pow_sub_one_eq_mod, leftoverLoop_eq,
        show 32 - (n.log2 + 1) = clz n by omega]

/-- Numbers are counted block by block. -/
theorem count_blocks {p : Nat → Prop} [DecidablePred p] {q : Nat → Nat → Prop}
    [∀ k, DecidablePred (q k)] {size : Nat} (blocks : Nat)
    (same : ∀ k, ∀ i < size, p (size * k + i) ↔ q k i)
    : Nat.count p (size * blocks) = ∑ k ∈ Finset.range blocks, Nat.count (q k) size := by
  induction blocks with
  | zero => simp
  | succ blocks ih =>
    rw [Nat.mul_succ, Nat.count_add, ih, Finset.sum_range_succ]
    refine congrArg _ (le_antisymm ?_ ?_)
    · exact Nat.count_mono_left fun i below => (same blocks i below).mp
    · exact Nat.count_mono_left fun i below => (same blocks i below).mpr

theorem count_eq {n r : Nat} (below : r < n) : Nat.count (fun i => i = r) n = 1 := by
  rw [Nat.count_eq_card_filter_range, Finset.filter_eq', if_pos (Finset.mem_range.mpr below),
    Finset.card_singleton]

/-- The words of which the first piece is the number, and those of which it is rejected. -/
theorem count_chunks {n b fuel w r : Nat} (below : r < n) (cover : n ≤ 2 ^ b) (fits : b ≤ w)
    : Nat.count (fun value => chunks n b (fuel + 1) w value = some r) (2 ^ w)
      = 2 ^ (w - b) + (2 ^ b - n)
        * Nat.count (fun value => chunks n b fuel (w - b) value = some r) (2 ^ (w - b)) := by
  have positive := Nat.two_pow_pos b
  rw [show 2 ^ w = 2 ^ b * 2 ^ (w - b) by rw [← Nat.pow_add, Nat.add_sub_cancel' fits],
    count_blocks (q := fun k i => if i < n then i = r else chunks n b fuel (w - b) k = some r)]
  · have block : ∀ k, Nat.count
        (fun i => if i < n then i = r else chunks n b fuel (w - b) k = some r) (2 ^ b)
        = 1 + (2 ^ b - n) * if chunks n b fuel (w - b) k = some r then 1 else 0 := by
      intro k
      rw [show 2 ^ b = n + (2 ^ b - n) by omega, Nat.count_add]
      refine congrArg₂ _ ?_ ?_
      · rw [← count_eq below]
        refine le_antisymm (Nat.count_mono_left fun i inside => ?_)
          (Nat.count_mono_left fun i inside => ?_)
        · rw [if_pos inside]
          exact id
        · rw [if_pos inside]
          exact id
      · split_ifs with later
        · simp [later]
        · simp [later]
    simp only [block, Finset.sum_add_distrib, Finset.sum_const, Finset.card_range, smul_eq_mul,
      mul_one, ← Finset.mul_sum, Nat.count_eq_card_filter_range, Finset.card_filter]
  · intro k i inside
    rw [chunks, Nat.mul_add_mod, Nat.mod_eq_of_lt inside, Nat.mul_add_div positive,
      Nat.div_eq_of_lt inside]
    split_ifs
    · rw [Option.some.injEq]
    · rfl

/-- How many words give a number does not depend on the number. -/
theorem count_chunks_eq {n b : Nat} (cover : n ≤ 2 ^ b) (fuel w : Nat)
    : ∃ c, ∀ r < n, Nat.count (fun value => chunks n b fuel w value = some r) (2 ^ w) = c := by
  induction fuel generalizing w with
  | zero => exact ⟨0, fun r _ => by simp [chunks]⟩
  | succ fuel ih =>
    by_cases fits : b ≤ w
    · obtain ⟨c, rest⟩ := ih (w - b)
      refine ⟨2 ^ (w - b) + (2 ^ b - n) * c, fun r below => ?_⟩
      rw [count_chunks below cover fits, rest r below]
    · exact ⟨0, fun r _ => by simp [chunks, fits]⟩

theorem arc4randomUniform_eq {n : Nat} (two : 2 ≤ n) (words : List Nat)
    : (arc4randomUniform n words).map Prod.fst = words.findSome? (turn n) := by
  induction words with
  | nil => rw [arc4randomUniform, if_neg (by omega)]; rfl
  | cons word words ih =>
    rw [arc4randomUniform, if_neg (by omega), List.findSome?_cons]
    cases turn n word with
    | none => exact ih
    | some r => rfl

/-- The result is that of the first word that gives one. Every number below the bound comes from
the same number of words, other numbers from none, and at least half of the words give a result.
-/
theorem arc4randomUniform_uniform {n : Nat} (two : 2 ≤ n) (int : n < 2 ^ 32)
    : (∀ words, (arc4randomUniform n words).map Prod.fst = words.findSome? (turn n))
      ∧ (∀ r < n, ∀ r' < n, hits n r = hits n r')
      ∧ (∀ word r, turn n word = some r → r < n)
      ∧ 2 ^ 32 ≤ 2 * ((Finset.range (2 ^ 32)).filter fun word => (turn n word).isSome).card := by
  obtain ⟨b, fuel, fits, cover, half, pieces⟩ := turn_eq two int
  have range : ∀ word r, turn n word = some r → r < n := fun word r found =>
    chunks_lt ((pieces word).symm.trans found)
  have counted : ∀ r, hits n r
      = Nat.count (fun value => chunks n b (fuel + 1) 32 value = some r) (2 ^ 32) := by
    intro r
    rw [Nat.count_eq_card_filter_range, hits]
    simp only [pieces]
  refine ⟨arc4randomUniform_eq two, fun r below r' below' => ?_, range, ?_⟩
  · obtain ⟨c, all⟩ := count_chunks_eq cover (fuel + 1) 32
    rw [counted, counted, all r below, all r' below']
  · -- The words are counted by their results.
    have each : ∀ r ∈ Finset.range n, 2 ^ (32 - b) ≤ hits n r := by
      intro r below
      rw [counted, count_chunks (Finset.mem_range.mp below) cover fits]
      exact Nat.le_add_right _ _
    have results : ∑ r ∈ Finset.range n, hits n r
        = ((Finset.range (2 ^ 32)).filter fun word => (turn n word).isSome).card := by
      rw [Finset.card_eq_sum_card_fiberwise (f := fun word => (turn n word).getD 0)
        (t := Finset.range n)]
      · refine Finset.sum_congr rfl fun r below => ?_
        rw [Finset.filter_filter]
        refine congrArg Finset.card (Finset.filter_congr fun word _ => ?_)
        cases turn n word <;> simp
      · intro word drawn
        rw [Finset.mem_coe, Finset.mem_filter] at drawn
        obtain ⟨r, found⟩ := Option.isSome_iff_exists.mp drawn.2
        simpa [found] using range word r found
    rw [← results]
    calc 2 ^ 32 = 2 ^ b * 2 ^ (32 - b) := by rw [← Nat.pow_add, Nat.add_sub_cancel' fits]
      _ ≤ 2 * n * 2 ^ (32 - b) := Nat.mul_le_mul_right _ half
      _ = 2 * (n * 2 ^ (32 - b)) := Nat.mul_assoc _ _ _
      _ ≤ 2 * ∑ r ∈ Finset.range n, hits n r := by
        refine Nat.mul_le_mul_left 2 ?_
        simpa using Finset.card_nsmul_le_sum _ _ _ each

/-- A die. -/
theorem arc4randomUniform_uniform_six : hits 6 0 = hits 6 5 :=
  (arc4randomUniform_uniform (by norm_num) (by norm_num)).2.1 0 (by norm_num) 5
    (by norm_num)

end Nglibc.Arc4random
