import Nglibc.Lib.LucasTest
import Nglibc.Lib.OpenAddressing
import Nglibc.Elf.UniqueSymbols

/-! Table sizes are prime, so a search through the table of unique symbols visits every entry and ends
at one that is free.
-/

namespace Nglibc.UniqueSymbols

variable {ν σ μ : Type}

/-- For each large size a base for Lucas' test and the prime factors of the predecessor. -/
def certificates : List (Nat × Nat × List Nat) :=
  [(131071, 3, [2, 3, 5, 17, 257]), (262139, 2, [2, 53, 2473]),
    (524287, 3, [2, 3, 3, 3, 7, 19, 73]), (1048573, 2, [2, 2, 3, 3, 3, 7, 19, 73]),
    (2097143, 5, [2, 1048571]), (4194301, 7, [2, 2, 3, 5, 5, 11, 31, 41]),
    (8388593, 3, [2, 2, 2, 2, 524287]), (16777213, 5, [2, 2, 3, 23, 89, 683]),
    (33554393, 3, [2, 2, 2, 29, 61, 2371]), (67108859, 2, [2, 479, 70051]),
    (134217689, 3, [2, 2, 2, 11, 101, 15101]), (268435399, 3, [2, 3, 7, 11, 581029]),
    (536870909, 2, [2, 2, 7, 73, 262657]), (1073741789, 2, [2, 2, 7, 2341, 16381]),
    (2147483647, 7, [2, 3, 3, 7, 11, 31, 151, 331]), (4294967291, 2, [2, 5, 19, 22605091])]

theorem certificates_prime : ∀ c ∈ certificates, c.1.Prime := by
  have factors : ∀ c ∈ certificates, ∀ q ∈ c.2.2, q.Prime := by
    rw [certificates]
    simp only [List.forall_mem_cons, List.not_mem_nil, false_implies, implies_true, and_true]
    norm_num
  have tests : ∀ c ∈ certificates, 1 < c.1 ∧ c.1 ≤ 2 ^ 32 ∧ c.2.2.prod = c.1 - 1
      ∧ powMod c.2.1 c.1 32 (c.1 - 1) = 1
      ∧ ∀ q ∈ c.2.2, powMod c.2.1 c.1 32 ((c.1 - 1) / q) ≠ 1 := by
    decide +kernel
  intro c mem
  obtain ⟨pos, bound, product, power, proper⟩ := tests c mem
  exact prime_of_powMod c.2.1 32 c.2.2 pos bound (factors c mem) product power proper

theorem prime_of_mem {p : Nat} (mem : p ∈ primes) : p.Prime := by
  have small : ∀ p ∈ primes.take 14, p.Prime := by
    simp only [primes, List.take, List.forall_mem_cons, List.not_mem_nil, false_implies, implies_true,
      and_true]
    norm_num
  have large : ∀ p ∈ primes.drop 14, ∃ c ∈ certificates, c.1 = p := by decide
  rw [← List.take_append_drop 14 primes] at mem
  rcases List.mem_append.mp mem with early | late
  · exact small p early
  · obtain ⟨c, inside, rfl⟩ := large p late
    exact certificates_prime c inside

theorem bounds_of_mem : ∀ p ∈ primes, 7 ≤ p ∧ p % 2 = 1 := by decide

private theorem primeSearch_spec {n : Nat} (low high : Nat) (le : low ≤ high) (inside : high ≤ primes.length)
    (above : high < primes.length → n ≤ primes.getD high 0)
    (below : low = 0 ∨ primes.getD (low - 1) 0 < n)
    : (primeSearch n low high < primes.length → n ≤ primes.getD (primeSearch n low high) 0)
      ∧ (primeSearch n low high = primes.length → primes.getD (primes.length - 1) 0 < n) := by
  fun_induction primeSearch n low high with
  | case1 low high less mid greater ih =>
    exact ih (by omega) inside above (.inr (by simpa using greater))
  | case2 low high less mid notGreater ih =>
    exact ih (by omega) (by omega) (fun _ => Nat.le_of_not_lt notGreater) below
  | case3 low high notLess =>
    obtain rfl : low = high := by omega
    refine ⟨above, fun atEnd => ?_⟩
    rcases below with zero | less
    · rw [zero] at atEnd
      exact absurd atEnd (by decide)
    · rwa [atEnd] at less

theorem primeSearch_le {n : Nat} (low high : Nat) (le : low ≤ high) : primeSearch n low high ≤ high := by
  fun_induction primeSearch n low high with
  | case1 low high less mid greater ih => exact ih (by omega)
  | case2 low high less mid notGreater ih => exact (ih (by omega)).trans (by omega)
  | case3 low high notLess => exact le

theorem higherPrimeNumber_spec {n : Nat} (bound : n ≤ 4294967291)
    : ∃ p, higherPrimeNumber n = .ok p ∧ p ∈ primes ∧ n ≤ p := by
  obtain ⟨above, atEnd⟩ := primeSearch_spec (n := n) 0 primes.length (Nat.zero_le _) le_rfl
    (fun less => absurd less (Nat.lt_irrefl _)) (.inl rfl)
  have inside : primeSearch n 0 primes.length < primes.length := by
    apply Nat.lt_of_le_of_ne (primeSearch_le 0 primes.length (Nat.zero_le _))
    intro same
    have last : primes.getD (primes.length - 1) 0 = 4294967291 := by decide
    omega
  refine ⟨primes[primeSearch n 0 primes.length], ?_, List.getElem_mem inside, ?_⟩
  · rw [higherPrimeNumber, List.getElem?_eq_getElem inside]
  · have := above inside
    rwa [List.getD_eq_getElem?_getD, List.getElem?_eq_getElem inside] at this

def path (size hash n : Nat) : Nat := pathSlot size (hash % size) (1 + hash % (size - 2)) n

variable {size : Nat}

section

variable (valid : size ∈ primes)
include valid

theorem step_bounds (hash : Nat)
    : 0 < 1 + hash % (size - 2) ∧ 1 + hash % (size - 2) < size := by
  have := bounds_of_mem size valid
  have := Nat.mod_lt hash (show 0 < size - 2 by omega)
  omega

theorem step_coprime (hash : Nat)
    : size.Coprime (1 + hash % (size - 2)) := by
  have bounds := step_bounds valid hash
  exact (prime_of_mem valid).coprime_iff_not_dvd.mpr (Nat.not_dvd_of_pos_of_lt bounds.1 bounds.2)

theorem path_lt (hash n : Nat) : path size hash n < size := pathSlot_lt (prime_of_mem valid).pos

theorem path_zero (hash : Nat) : path size hash 0 = hash % size :=
  pathSlot_zero (Nat.mod_lt _ (prime_of_mem valid).pos)

theorem advance_path (hash n : Nat)
    : advance size (1 + hash % (size - 2)) (path size hash n) = path size hash (n + 1) :=
  stepOn_pathSlot (step_bounds valid hash).2

theorem path_covers (hash : Nat) {i : Nat} (inside : i < size)
    : ∃ n < size, path size hash n = i :=
  pathSlot_covers (step_coprime valid hash) inside

end

variable {entries : Nat → UniqueSym ν σ μ}

/-- While an entry is free, the loop of `enter_unique_sym` ends at the first one on the path. -/
theorem freeSlot_spec (hash : Nat) (valid : size ∈ primes) (room : ∃ i < size, (entries i).name = none)
    : ∃ n < size, freeSlot entries size (1 + hash % (size - 2)) size (hash % size)
        = .ok (path size hash n) ∧ (entries (path size hash n)).name = none
      ∧ ∀ j < n, (entries (path size hash j)).name ≠ none := by
  have walk (steps n : Nat) (left : steps + n = size)
      (passed : ∀ j < n, (entries (path size hash j)).name ≠ none)
      : ∃ k < size, freeSlot entries size (1 + hash % (size - 2)) steps (path size hash n)
          = .ok (path size hash k) ∧ (entries (path size hash k)).name = none
        ∧ ∀ j < k, (entries (path size hash j)).name ≠ none := by
    induction steps generalizing n with
    | zero =>
      obtain ⟨i, inside, free⟩ := room
      obtain ⟨k, less, rfl⟩ := path_covers valid hash inside
      exact absurd free (passed k (by omega))
    | succ steps ih =>
      rw [freeSlot]
      cases here : (entries (path size hash n)).name with
      | none => exact ⟨n, by omega, rfl, here, passed⟩
      | some x =>
        simp only [advance_path valid]
        refine ih (n + 1) (by omega) (Nat.forall_lt_succ_right.mpr ⟨passed, ?_⟩)
        rw [here]
        exact Option.some_ne_none x
  have run := walk size 0 (Nat.add_zero _) (fun j less => absurd less (Nat.not_lt_zero j))
  rwa [path_zero valid] at run

variable [DecidableEq ν]

/-- While an entry is free, the search ends. It finds the entry of the name unless a free entry lies
before it, and it compares no null pointer unless the hash is zero and the name is not there.
-/
theorem search_spec (hash : Nat) (name : ν) (valid : size ∈ primes) (room : ∃ i < size, (entries i).name = none)
    (hashed : ∀ i < size, (entries i).name = some name → (entries i).hashval = hash)
    (cleared : ∀ i < size, (entries i).name = none → (entries i).hashval = 0)
    (reached : ∀ i j, j < i → i < size → (entries (path size hash i)).name = some name →
      (entries (path size hash j)).name ≠ none)
    (zero : hash = 0 → ∃ i < size, (entries i).name = some name)
    : ∃ result, search entries size (1 + hash % (size - 2)) hash name size (hash % size) = .ok result
      ∧ (∀ e, result = some e → ∃ i < size, entries i = e ∧ e.name = some name)
      ∧ (result = none → ∀ i < size, (entries i).name ≠ some name) := by
  -- A free entry on the path ends the search for good.
  have absent (n : Nat) (passed : ∀ j < n, (entries (path size hash j)).name ≠ some name)
      (free : (entries (path size hash n)).name = none)
      : ∀ i < size, (entries i).name ≠ some name := by
    intro i inside stored
    obtain ⟨k, less, rfl⟩ := path_covers valid hash inside
    rcases Nat.lt_trichotomy k n with before | rfl | behind
    · exact passed k before stored
    · rw [free] at stored
      cases stored
    · exact reached k n behind less stored free
  have walk (steps n : Nat) (left : steps + n = size)
      (passed : ∀ j < n, (entries (path size hash j)).name ≠ none
        ∧ (entries (path size hash j)).name ≠ some name)
      : ∃ result, search entries size (1 + hash % (size - 2)) hash name steps (path size hash n)
          = .ok result
        ∧ (∀ e, result = some e → ∃ i < size, entries i = e ∧ e.name = some name)
        ∧ (result = none → ∀ i < size, (entries i).name ≠ some name) := by
    induction steps generalizing n with
    | zero =>
      obtain ⟨i, inside, free⟩ := room
      obtain ⟨k, less, rfl⟩ := path_covers valid hash inside
      exact absurd free (passed k (by omega)).1
    | succ steps ih =>
      have inside := path_lt valid hash n
      have different : ∀ j < n, (entries (path size hash j)).name ≠ some name :=
        fun j less => (passed j less).2
      rw [search]
      cases here : (entries (path size hash n)).name with
      | none =>
        have notStored := absent n different here
        have nonzero : (entries (path size hash n)).hashval ≠ hash := by
          intro same
          rw [cleared _ inside here] at same
          obtain ⟨i, insideI, stored⟩ := zero same.symm
          exact notStored i insideI stored
        simp only [nonzero, false_and, reduceCtorEq, and_false, if_false, if_true]
        exact ⟨none, rfl, nofun, fun _ => notStored⟩
      | some x =>
        simp only [reduceCtorEq, and_false, if_false]
        split
        next found =>
          refine ⟨_, rfl, ?_, nofun⟩
          rintro e ⟨⟩
          exact ⟨_, inside, rfl, here.trans found.2⟩
        next other =>
          rw [advance_path valid]
          refine ih (n + 1) (by omega) (Nat.forall_lt_succ_right.mpr ⟨passed, by simp [here], fun same => ?_⟩)
          exact other ⟨hashed _ inside same, here.symm.trans same⟩
  have run := walk size 0 (Nat.add_zero _) (fun j less => absurd less (Nat.not_lt_zero j))
  rwa [path_zero valid] at run

end Nglibc.UniqueSymbols
