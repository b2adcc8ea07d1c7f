import Mathlib.Tactic.Ring
import Mathlib.Tactic.IntervalCases
import Nglibc.Lib.Memory

/-! Words of eight bytes over a memory of bytes, the byte of least significance at the lowest address.
-/

namespace Nglibc

namespace Memory

variable {m : Memory UInt8} {a i j o x : Nat} {w v : BitVec 64} {bytes : List UInt8}

/-- The number that has these digits to the base 256, the digit of least significance first. -/
def littleEndian : List UInt8 → Nat
  | [] => 0
  | b :: rest => b.toNat + 256 * littleEndian rest

def load (m : Memory UInt8) (a : Nat) : BitVec 64 := BitVec.ofNat 64 (littleEndian (m.slice a 8))

/-- A byte of a word, counted from the one of least significance. -/
def byteAt (w : BitVec 64) (i : Nat) : UInt8 := UInt8.ofNat (w.toNat / 256 ^ i)

def storeWord (m : Memory UInt8) (a : Nat) (w : BitVec 64) : Memory UInt8 :=
  m.store a ((List.range 8).map (byteAt w))

theorem littleEndian_lt : littleEndian bytes < 256 ^ bytes.length := by
  induction bytes with
  | nil => exact Nat.one_pos
  | cons b rest ih =>
    have digit := b.toNat_lt
    rw [littleEndian, List.length_cons]
    omega

private theorem littleEndian_digit (inside : i < bytes.length)
    : UInt8.ofNat (littleEndian bytes / 256 ^ i) = bytes[i] := by
  induction bytes generalizing i with
  | nil => exact absurd inside (Nat.not_lt_zero i)
  | cons b rest ih =>
    have digit := b.toNat_lt
    rw [littleEndian]
    cases i with
    | zero =>
      apply UInt8.toNat.inj
      rw [UInt8.toNat_ofNat', Nat.pow_zero, List.getElem_cons_zero]
      omega
    | succ i =>
      have shifted : (b.toNat + 256 * littleEndian rest) / 256 ^ (i + 1)
          = littleEndian rest / 256 ^ i := by
        rw [Nat.pow_succ', ← Nat.div_div_eq_div_mul]
        congr 1
        omega
      rw [shifted]
      exact ih (Nat.lt_of_succ_lt_succ inside)

theorem byteAt_load (inside : i < 8) : byteAt (m.load a) i = m (a + i) := by
  have bound : littleEndian (m.slice a 8) < 2 ^ 64 := by
    have below := @littleEndian_lt (m.slice a 8)
    rwa [length_slice] at below
  have within : i < (m.slice a 8).length := by rwa [length_slice]
  rw [byteAt, load, BitVec.toNat_ofNat, Nat.mod_eq_of_lt bound, littleEndian_digit within,
    getElem_slice]

theorem storeWord_apply
    : m.storeWord a w x = if a ≤ x ∧ x < a + 8 then byteAt w (x - a) else m x := by
  rw [storeWord]
  by_cases inside : a ≤ x ∧ x < a + 8
  · have within : x - a < ((List.range 8).map (byteAt w)).length := by simp; omega
    rw [if_pos inside, store, if_pos inside.1, List.getElem?_eq_getElem within, Option.getD_some,
      List.getElem_map, List.getElem_range]
  · rw [if_neg inside]
    exact store_outside (by simp; omega)

theorem testBit_byteAt : (byteAt w i).toNat.testBit j = (decide (j < 8) && w.getLsbD (8 * i + j)) := by
  have power : 256 ^ i = 2 ^ (8 * i) := by
    rw [Nat.pow_mul]
  rw [byteAt, UInt8.toNat_ofNat', Nat.testBit_mod_two_pow, power, Nat.testBit_div_two_pow,
    BitVec.testBit_toNat, Nat.add_comm j]

theorem byte_eq {b c : UInt8} (same : ∀ j < 8, b.toNat.testBit j = c.toNat.testBit j) : b = c := by
  apply UInt8.toNat.inj
  apply Nat.eq_of_testBit_eq
  intro j
  by_cases low : j < 8
  · exact same j low
  · have high : 2 ^ 8 ≤ 2 ^ j := Nat.pow_le_pow_right (by omega) (by omega)
    have left := b.toNat_lt
    have right := c.toNat_lt
    rw [Nat.testBit_lt_two_pow (by omega), Nat.testBit_lt_two_pow (by omega)]

theorem word_eq (same : ∀ i < 8, byteAt w i = byteAt v i) : w = v := by
  apply BitVec.eq_of_getLsbD_eq
  intro k inside
  have bit := congrArg (fun b => b.toNat.testBit (k % 8)) (same (k / 8) (by omega))
  have place : 8 * (k / 8) + k % 8 = k := Nat.div_add_mod k 8
  simp only [testBit_byteAt, place] at bit
  simpa [Nat.mod_lt k (show 0 < 8 by omega)] using bit

theorem byteAt_shifts (inside : i < 8) (low : 0 < o) (high : o < 8)
    : byteAt (w >>> (8 * o) ||| v <<< (64 - 8 * o)) i
      = if i + o < 8 then byteAt w (i + o) else byteAt v (i + o - 8) := by
  apply byte_eq
  intro j small
  rw [testBit_byteAt, BitVec.getLsbD_or, BitVec.getLsbD_ushiftRight, BitVec.getLsbD_shiftLeft]
  by_cases near : i + o < 8
  · have place : 8 * o + (8 * i + j) = 8 * (i + o) + j := by ring
    have below : 8 * i + j < 64 - 8 * o := by omega
    rw [if_pos near, testBit_byteAt, place]
    simp [below]
  · have place : 8 * i + j - (64 - 8 * o) = 8 * (i + o - 8) + j := by omega
    have outside : w.getLsbD (8 * o + (8 * i + j)) = false := BitVec.getLsbD_of_ge _ _ (by omega)
    have above : ¬ 8 * i + j < 64 - 8 * o := by omega
    have within : 8 * i + j < 64 := by omega
    rw [if_neg near, testBit_byteAt, place, outside]
    simp [above, within]

end Memory

end Nglibc

/-! Tests whether a word has a zero byte. None of them misses a zero byte; they may also fire without one.
-/

namespace Nglibc

namespace Memory

variable {w v : BitVec 64} {b : UInt8} {i k : Nat}

theorem ne_zero_of_bit (bit : w.getLsbD i = true) : w ≠ 0 := by
  rintro rfl
  rw [BitVec.ofNat_eq_ofNat, BitVec.getLsbD_zero] at bit
  cases bit

theorem getLsbD_eq : w.getLsbD i = decide (w.toNat / 2 ^ i % 2 = 1) := by
  rw [← BitVec.testBit_toNat, Nat.testBit_eq_decide_div_mod_eq]

theorem byteAt_zero_iff : byteAt w k = 0 ↔ w.toNat / 256 ^ k % 256 = 0 := by
  rw [← UInt8.toNat_inj, byteAt]
  rfl

/-- The bytes below the first zero byte borrow nothing from it, so that it becomes 255. -/
theorem subtract_bit (inside : k < 8) (zero : byteAt w k = 0) (first : ∀ j < k, byteAt w j ≠ 0)
    : (w - 0x0101010101010101#64).getLsbD (8 * k + 7) = true := by
  rw [byteAt_zero_iff] at zero
  rw [getLsbD_eq, BitVec.toNat_sub, decide_eq_true_eq]
  interval_cases k
  all_goals
    simp only [BitVec.toNat_ofNat] at *
    omega

theorem first_zero (zero : byteAt w k = 0) : ∃ j ≤ k, byteAt w j = 0 ∧ ∀ i < j, byteAt w i ≠ 0 := by
  induction k using Nat.strong_induction_on with
  | _ k ih =>
    by_cases before : ∃ j < k, byteAt w j = 0
    · obtain ⟨j, lower, here⟩ := before
      obtain ⟨i, le, first⟩ := ih j lower here
      exact ⟨i, le.trans lower.le, first⟩
    · exact ⟨k, le_rfl, zero, fun i lower here => before ⟨i, lower, here⟩⟩

theorem subtract_filtered_ne (inside : k < 8) (zero : byteAt w k = 0)
    : (w - 0x0101010101010101#64) &&& ~~~w &&& 0x8080808080808080#64 ≠ 0 := by
  obtain ⟨j, le, here, first⟩ := first_zero zero
  have bit := subtract_bit (by omega) here first
  have clear : w.getLsbD (8 * j + 7) = false := by
    have bits := @testBit_byteAt j 7 w
    rw [here] at bits
    simpa using bits.symm
  have mask : (0x8080808080808080#64).getLsbD (8 * j + 7) = true := by
    have bound : j < 8 := by omega
    interval_cases j <;> rfl
  apply @ne_zero_of_bit _ (8 * j + 7)
  rw [BitVec.getLsbD_and, BitVec.getLsbD_and, bit, BitVec.getLsbD_not, clear, mask]
  simp
  omega

/-- So does the subtraction alone. -/
theorem subtract_ne (inside : k < 8) (zero : byteAt w k = 0)
    : (w - 0x0101010101010101#64) &&& 0x8080808080808080#64 ≠ 0 := by
  intro none_
  apply subtract_filtered_ne inside zero
  rw [BitVec.and_assoc, BitVec.and_comm (~~~w), ← BitVec.and_assoc, none_]
  simp

/-- The bit above a byte, or the highest one of the word. -/
def hole (k : Nat) : Nat := 8 * k + 8 - k / 7

theorem add_bit (inside : k < 8) (zero : byteAt w k = 0)
    : (w + 0x7efefefefefefeff#64).getLsbD (hole k) = w.getLsbD (hole k) := by
  rw [byteAt_zero_iff] at zero
  have same : (w + 0x7efefefefefefeff#64).toNat / 2 ^ hole k % 2 = w.toNat / 2 ^ hole k % 2 := by
    rw [BitVec.toNat_add]
    interval_cases k
    all_goals
      simp only [hole, BitVec.toNat_ofNat]
      omega
  rw [getLsbD_eq, getLsbD_eq, same]

theorem add_ne (inside : k < 8) (zero : byteAt w k = 0)
    : ((w + 0x7efefefefefefeff#64) ^^^ ~~~w) &&& ~~~0x7efefefefefefeff#64 ≠ 0 := by
  have bit := add_bit inside zero
  have mask : (0x7efefefefefefeff#64).getLsbD (hole k) = false := by
    interval_cases k <;> rfl
  apply @ne_zero_of_bit _ (hole k)
  rw [BitVec.getLsbD_and, BitVec.getLsbD_xor, bit, BitVec.getLsbD_not, BitVec.getLsbD_not, mask]
  have bound : hole k < 64 := by
    rw [hole]
    omega
  simp [bound]

theorem byteAt_xor : byteAt (w ^^^ v) i = byteAt w i ^^^ byteAt v i := by
  apply byte_eq
  intro j small
  rw [testBit_byteAt, UInt8.toNat_xor, Nat.testBit_xor, testBit_byteAt, testBit_byteAt]
  simp [small]

theorem byteAt_xor_zero (same : byteAt v i = b) : byteAt (w ^^^ v) i = 0 ↔ byteAt w i = b := by
  rw [byteAt_xor, same, UInt8.xor_eq_zero_iff]

end Memory

end Nglibc
