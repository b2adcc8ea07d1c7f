import Mathlib.Tactic

/-! The hash functions for symbol names. A name is the list of its bytes without the final zero. -/

namespace Nglibc.SymbolHash

/-- The loop of `_dl_new_hash`, with two bytes a round. -/
def newHashLoop (h : UInt32) : List UInt8 → UInt32
  | [] => h
  | [c0] => h * 32 + (c0.toUInt32 + h)
  | c0 :: c1 :: s => newHashLoop (h * (33 * 33) + (c1.toUInt32 + c0.toUInt32 + c0.toUInt32 * 32)) s

def dlNewHash (str : List UInt8) : UInt32 := newHashLoop 5381 str

/-- The loop of `_dl_elf_hash` for the bytes after the fifth. -/
def elfHashLoop (hash : UInt64) : List UInt8 → UInt64
  | [] => hash
  | c :: name =>
    let hash := (hash <<< 4) + c.toUInt64
    let hi := hash &&& 0xf0000000
    elfHashLoop (hash ^^^ (hi >>> 24)) name

/-- `_dl_elf_hash`, where no overflow is possible for the first five bytes. -/
def dlElfHash : List UInt8 → UInt32
  | [] => 0
  | [c0] => c0.toUInt32
  | [c0, c1] => (c0.toUInt32 <<< 4) + c1.toUInt32
  | [c0, c1, c2] => (((c0.toUInt32 <<< 4) + c1.toUInt32) <<< 4) + c2.toUInt32
  | [c0, c1, c2, c3] =>
    (((((c0.toUInt32 <<< 4) + c1.toUInt32) <<< 4) + c2.toUInt32) <<< 4) + c3.toUInt32
  | c0 :: c1 :: c2 :: c3 :: c4 :: name =>
    let hash := (((((c0.toUInt64 <<< 4) + c1.toUInt64) <<< 4) + c2.toUInt64) <<< 4) + c3.toUInt64
    (elfHashLoop ((hash <<< 4) + c4.toUInt64) name &&& 0x0fffffff).toUInt32

/-- `__simple_dl_new_hash` of `elf/simple-dl-new-hash.h`. -/
def simpleDlNewHash (s : List UInt8) : UInt32 := s.foldl (fun h c => h * 33 + c.toUInt32) 5381

/-- A round of `__simple_dl_elf_hash` of `elf/simple-dl-hash.h`. -/
def simpleElfRound (hash : UInt64) (c : UInt8) : UInt64 :=
  let hash := (hash <<< 4) + c.toUInt64
  let hi := hash &&& 0xf0000000
  (hash ^^^ (hi >>> 24)) &&& 0x0fffffff

def simpleDlElfHash (name : List UInt8) : UInt32 := (name.foldl simpleElfRound 0).toUInt32

theorem newHashLoop_eq (h : UInt32) (s : List UInt8)
    : newHashLoop h s = s.foldl (fun h c => h * 33 + c.toUInt32) h := by
  fun_induction newHashLoop h s with
  | case1 => rfl
  | case2 h c0 =>
    rw [List.foldl_cons, List.foldl_nil]
    grind
  | case3 h c0 c1 s ih =>
    rw [ih, List.foldl_cons, List.foldl_cons]
    congr 1
    grind

theorem toNat_shift (hash : UInt64) (c : UInt8)
    : ((hash <<< 4) + c.toUInt64).toNat = (hash.toNat * 16 + c.toNat) % 2 ^ 64 := by
  simp [Nat.shiftLeft_eq]

theorem toNat_mask (hash : UInt64) : (hash &&& 0x0fffffff).toNat = hash.toNat % 2 ^ 28 :=
  Nat.and_two_pow_sub_one_eq_mod hash.toNat 28

/-- The upper half of a hash does not count, so it need not be cleared in each round. -/
theorem round_congr {h h' : UInt64} (same : h.toNat % 2 ^ 32 = h'.toNat % 2 ^ 32)
    : (h ^^^ ((h &&& 0xf0000000) >>> 24)) &&& (0x0fffffff : UInt64)
      = (h' ^^^ ((h' &&& 0xf0000000) >>> 24)) &&& 0x0fffffff := by
  have high : h &&& 0xf0000000 = h' &&& 0xf0000000 := by
    have cut (x : Nat) : x &&& 0xf0000000 = x % 2 ^ 32 &&& 0xf0000000 := by
      have less : x &&& 0xf0000000 < 2 ^ 32 := Nat.and_lt_two_pow x (by decide)
      rw [← Nat.mod_eq_of_lt less, Nat.and_mod_two_pow]
    refine UInt64.toNat_inj.mp ?_
    rw [UInt64.toNat_and, UInt64.toNat_and]
    exact (cut _).trans (same ▸ (cut _).symm)
  have low : h.toNat % 2 ^ 28 = h'.toNat % 2 ^ 28 := by omega
  refine UInt64.toNat_inj.mp ?_
  rw [high, toNat_mask, toNat_mask, UInt64.toNat_xor, UInt64.toNat_xor, Nat.xor_mod_two_pow,
    Nat.xor_mod_two_pow, low]

theorem elfHashLoop_eq (hash : UInt64) (name : List UInt8)
    : elfHashLoop hash name &&& 0x0fffffff = name.foldl simpleElfRound (hash &&& 0x0fffffff) := by
  induction name generalizing hash with
  | nil => rfl
  | cons c name ih =>
    rw [elfHashLoop, ih, List.foldl_cons]
    congr 1
    refine round_congr ?_
    rw [toNat_shift, toNat_shift, toNat_mask]
    omega

theorem toNat_simpleElfRound {hash : UInt64} {c : UInt8} (small : hash.toNat < 2 ^ 24 - 16)
    : (simpleElfRound hash c).toNat = hash.toNat * 16 + c.toNat := by
  have byte := c.toNat_lt
  have value := toNat_shift hash c
  have none : ((hash <<< 4) + c.toUInt64) &&& (0xf0000000 : UInt64) = 0 := by
    have low : ((hash <<< 4) + c.toUInt64) &&& (0x0fffffff : UInt64) = (hash <<< 4) + c.toUInt64 := by
      refine UInt64.toNat_inj.mp ?_
      rw [toNat_mask, value]
      omega
    rw [← low, UInt64.and_assoc]
    exact UInt64.and_zero
  rw [simpleElfRound, none, UInt64.zero_shiftRight, UInt64.xor_zero, toNat_mask]
  omega

/-- The hash of at most five bytes is a number in base 16. -/
theorem toNat_foldl_simpleElfRound {name : List UInt8} (short : name.length ≤ 5)
    : (name.foldl simpleElfRound 0).toNat = name.foldl (fun hash c => hash * 16 + c.toNat) 0
      ∧ (name.foldl simpleElfRound 0).toNat + 17 ≤ 17 * 16 ^ name.length := by
  induction name using List.reverseRecOn with
  | nil => exact ⟨rfl, by decide⟩
  | append_singleton name c ih =>
    rw [List.length_append, List.length_singleton] at short ⊢
    obtain ⟨value, small⟩ := ih (by omega)
    have power : 16 ^ name.length ≤ 16 ^ 4 := Nat.pow_le_pow_right (by decide) (by omega)
    have byte := c.toNat_lt
    rw [List.foldl_concat, List.foldl_concat, toNat_simpleElfRound (by omega), value]
    exact ⟨rfl, by omega⟩

/-- Both functions give the hashes of the plain ones. -/
theorem dlHash_simple (name : List UInt8)
    : dlNewHash name = simpleDlNewHash name ∧ dlElfHash name = simpleDlElfHash name := by
  refine ⟨newHashLoop_eq 5381 name, UInt32.toNat_inj.mp ?_⟩
  rcases name with _ | ⟨c0, _ | ⟨c1, _ | ⟨c2, _ | ⟨c3, _ | ⟨c4, name⟩⟩⟩⟩⟩
  case cons.cons.cons.cons.cons =>
    obtain ⟨value, small⟩ := @toNat_foldl_simpleElfRound [c0, c1, c2, c3, c4] (by simp)
    rw [dlElfHash, elfHashLoop_eq, simpleDlElfHash]
    refine congrArg (fun hash => (name.foldl simpleElfRound hash).toUInt32.toNat)
      (UInt64.toNat_inj.mp ?_)
    rw [toNat_mask]
    simp [Nat.shiftLeft_eq] at value small ⊢
    omega
  all_goals
    rw [simpleDlElfHash, UInt64.toNat_toUInt32, (toNat_foldl_simpleElfRound (by simp)).1]
    simp [dlElfHash, Nat.shiftLeft_eq]

end Nglibc.SymbolHash
