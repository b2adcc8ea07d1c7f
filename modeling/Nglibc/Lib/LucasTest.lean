import Mathlib.NumberTheory.LucasPrimality
import Mathlib.Tactic

/-! Primality of large numbers by powers, when the prime factors of the predecessor are known. -/

namespace Nglibc

/-- `a ^ b % p` by squaring, for exponents of at most `digits` binary digits. -/
def powMod (a p : Nat) : Nat → Nat → Nat
  | 0, _ => 1 % p
  | digits + 1, b =>
    let half := powMod a p digits (b / 2)
    if b % 2 = 0 then half * half % p else half * half % p * a % p

private theorem powMod_eq {a p : Nat} (digits b : Nat) (less : b < 2 ^ digits)
    : powMod a p digits b = a ^ b % p := by
  induction digits generalizing b with
  | zero =>
    obtain rfl : b = 0 := by simpa using less
    rfl
  | succ digits ih =>
    have half := ih (b / 2) (by rw [pow_succ] at less; omega)
    have square : a ^ (b / 2) % p * (a ^ (b / 2) % p) % p = a ^ (b / 2 + b / 2) % p := by
      rw [← Nat.mul_mod, ← pow_add]
    rw [powMod, half, square]
    split
    next even =>
      have double : b / 2 + b / 2 = b := by omega
      rw [double]
    next odd =>
      have double : b / 2 + b / 2 + 1 = b := by omega
      rw [Nat.mod_mul_mod, ← pow_succ, double]

/-- Lucas' test: a power of `a` is one for the predecessor, and for no proper divisor of it. -/
theorem prime_of_powMod {p : Nat} (a digits : Nat) (factors : List Nat) (pos : 1 < p)
    (bound : p ≤ 2 ^ digits) (prime : ∀ q ∈ factors, q.Prime) (product : factors.prod = p - 1)
    (power : powMod a p digits (p - 1) = 1)
    (proper : ∀ q ∈ factors, powMod a p digits ((p - 1) / q) ≠ 1)
    : p.Prime := by
  have cast : ∀ b ≤ p - 1, (a : ZMod p) ^ b = 1 ↔ powMod a p digits b = 1 := by
    intro b le
    rw [powMod_eq digits b (by omega), ← Nat.cast_pow, ← Nat.cast_one, ZMod.natCast_eq_natCast_iff,
      Nat.ModEq, Nat.mod_eq_of_lt pos]
  apply lucas_primality p (a : ZMod p) ((cast _ le_rfl).mpr power)
  intro q primeQ divides one
  rw [← product] at divides
  obtain ⟨r, mem, dvd⟩ := primeQ.prime.dvd_prod_iff.mp divides
  obtain rfl := (Nat.prime_dvd_prime_iff_eq primeQ (prime r mem)).mp dvd
  exact proper q mem ((cast _ (Nat.div_le_self _ _)).mp one)

end Nglibc
