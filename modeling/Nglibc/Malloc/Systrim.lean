import Mathlib.Tactic
import Mathlib.Data.Nat.Bitwise

/-! `systrim` of `malloc/malloc.c`, which gives the end of the top chunk back to the system. The program
break is that of `sbrk`; whether the kernel moves it is a parameter.
-/

namespace Nglibc.Malloc

/-- The conversion of a `long` to `size_t`. -/
def toSize (n : Int) : Nat := (n % 2 ^ 64).toNat

/-- The conversion of a `size_t` to `long`. -/
def toLong (n : Nat) : Int := if n % 2 ^ 64 < 2 ^ 63 then (n % 2 ^ 64 : Nat) else (n % 2 ^ 64 : Nat) - 2 ^ 64

def alignDown (base size : Nat) : Nat := base &&& toSize (-size)

/-- The address behind the increment would not be in order. -/
def wraps (brk : Nat) (increment : Int) : Bool :=
  if increment > 0 then toSize (brk + increment) < brk else brk < toSize (-increment)

/-- `__sbrk`: the old break, or none for -1, and the new one. `moves` tells for which addresses `__brk`
succeeds.
-/
def sbrk (moves : Nat → Bool) (brk : Nat) (increment : Int) : Option Nat × Nat :=
  if increment = 0 then (some brk, brk)
  else if wraps brk increment then (none, brk)
  else if moves (toSize (brk + increment)) then (some brk, toSize (brk + increment))
  else (none, brk)

/-- The kernel and the switch of `morecore.c`. -/
structure System where
  alwaysFail : Bool
  moves : Nat → Bool

/-- `__glibc_morecore`; none is `MORECORE_FAILURE`. -/
def System.morecore (sys : System) (brk : Nat) (increment : Int) : Option Nat × Nat :=
  if sys.alwaysFail then (none, brk) else sbrk sys.moves brk increment

def minSize : Nat := 32

/-- The sizes of pages: that of the system, and `mp_.thp_pagesize`, which may be 0. -/
structure PageSizes where
  page : Nat
  thp : Nat
  page_pow : ∃ k, k < 64 ∧ page = 2 ^ k
  thp_pow : thp = 0 ∨ ∃ k, k < 64 ∧ thp = 2 ^ k
  thp_dvd : page ∣ thp

/-- The granularity of `systrim`. -/
def PageSizes.unit (pages : PageSizes) : Nat := if pages.thp ≠ 0 then pages.thp else pages.page

/-- What `systrim` uses of an arena: the top chunk lies inside of the address space and its size is that
of a chunk, at least `MINSIZE` and no more than the memory of the arena.
-/
@[ext] structure Arena where
  top : Nat
  topSize : Nat
  systemMem : Nat
  mapped : 0 < top ∧ top + topSize < 2 ^ 64
  aligned : 16 ∣ topSize
  minimal : minSize ≤ topSize
  owned : topSize ≤ systemMem ∧ systemMem < 2 ^ 63

/-- `top_area` for a value of `top_size`. -/
def topArea (topSize : Nat) : Int := toLong (toSize (topSize - minSize - 1))

/-- `extra` -/
def extraOf (pages : PageSizes) (pad : Nat) (area : Int) : Int :=
  toLong (alignDown (toSize (area - pad)) pages.unit)

/-- The size of top, the memory of the arena, the break and the result after `systrim`. -/
structure Trim where
  topSize : Nat
  systemMem : Nat
  brk : Nat
  result : Nat
  deriving DecidableEq, Repr

def systrim (sys : System) (pages : PageSizes) (pad : Nat) (av : Arena) (brk : Nat) : Trim :=
  let nothing : Trim := ⟨av.topSize, av.systemMem, brk, 0⟩
  let area := topArea av.topSize
  if toSize area ≤ pad then nothing
  else
    let extra := extraOf pages pad area
    if extra = 0 then nothing
    else
      let (current, brk) := sys.morecore brk 0
      if current = some (av.top + av.topSize) then
        let (_, brk) := sys.morecore brk (-extra)
        let (newBrk, brk) := sys.morecore brk 0
        match current, newBrk with
        | some currentBrk, some newBrk =>
          let released : Int := toLong (toSize (currentBrk - newBrk))
          if released ≠ 0 then
            ⟨toSize (av.topSize - released), toSize (av.systemMem - released), brk, 1⟩
          else ⟨av.topSize, av.systemMem, brk, 0⟩
        | _, _ => ⟨av.topSize, av.systemMem, brk, 0⟩
      else ⟨av.topSize, av.systemMem, brk, 0⟩

/-- A trim changes nothing, or it releases a positive number of whole pages from the end of top and
leaves top with `MINSIZE` and the pad.
-/
def Trims (pages : PageSizes) (pad : Nat) (av : Arena) (brk : Nat) (trim : Trim) : Prop :=
  trim = ⟨av.topSize, av.systemMem, brk, 0⟩
  ∨ ∃ count, 0 < count ∧ trim.result = 1 ∧ trim.brk + count * pages.page = brk
      ∧ trim.topSize + count * pages.page = av.topSize
      ∧ trim.systemMem + count * pages.page = av.systemMem
      ∧ minSize + pad ≤ trim.topSize

/-- No difference is negative where it is used as a size: `top_area` in the comparison with the pad, and
the amount to release behind it.
-/
def NoNegativeSize (pages : PageSizes) (pad : Nat) (av : Arena) : Prop := 0 ≤ topArea av.topSize
  ∧ (¬ toSize (topArea av.topSize) ≤ pad
      → 0 ≤ topArea av.topSize - pad ∧ 0 ≤ extraOf pages pad (topArea av.topSize))

theorem toSize_of_nonneg {n : Int} (nonneg : 0 ≤ n) (small : n < 2 ^ 64) : toSize n = n.toNat := by
  unfold toSize
  rw [Int.emod_eq_of_lt nonneg small]

theorem toLong_of_small {n : Nat} (small : n < 2 ^ 63) : toLong n = n := by
  unfold toLong
  rw [Nat.mod_eq_of_lt (by omega), if_pos small]

private theorem alignDown_pow {base k : Nat} (small : base < 2 ^ 64) (below : k < 64)
    : alignDown base (2 ^ k) = base / 2 ^ k * 2 ^ k := by
  have pow : (2 : Nat) ^ 64 = 2 ^ (64 - k) * 2 ^ k := by
    rw [← Nat.pow_add, Nat.sub_add_cancel below.le]
  have pos : 0 < (2 : Nat) ^ k := Nat.two_pow_pos k
  have mask : toSize (-((2 ^ k : Nat) : Int)) = (2 ^ (64 - k) - 1) <<< k := by
    have le : 2 ^ k ≤ (2 : Nat) ^ 64 := Nat.pow_le_pow_right Nat.two_pos below.le
    rw [Nat.shiftLeft_eq, Nat.sub_mul]
    unfold toSize
    omega
  unfold alignDown
  rw [mask, ← Nat.shiftRight_eq_div_pow, ← Nat.shiftLeft_eq]
  apply Nat.eq_of_testBit_eq
  intro i
  by_cases low : k ≤ i
  · by_cases high : i - k < 64 - k
    · simp [low, high]
    · have big : base < 2 ^ i := Nat.lt_of_lt_of_le small (Nat.pow_le_pow_right Nat.two_pos (by omega))
      simp [low, high, Nat.testBit_lt_two_pow big]
  · simp [low]

theorem PageSizes.unit_pow (pages : PageSizes) : ∃ k, k < 64 ∧ pages.unit = 2 ^ k := by
  unfold PageSizes.unit
  split
  case isTrue large =>
    rcases pages.thp_pow with none | power
    · exact absurd none large
    · exact power
  case isFalse => exact pages.page_pow

theorem PageSizes.page_dvd_unit (pages : PageSizes) : pages.page ∣ pages.unit := by
  unfold PageSizes.unit
  split
  · exact pages.thp_dvd
  · exact dvd_rfl

variable {sys : System} {pages : PageSizes} {pad brk : Nat} {av : Arena}

theorem topArea_of_ne (above : av.topSize ≠ minSize)
    : topArea av.topSize = ((av.topSize - minSize - 1 : Nat) : Int) := by
  have minimal := av.minimal
  have owned := av.owned
  unfold minSize at above minimal ⊢
  have exact_ : ((av.topSize : Int) - (32 : Nat) - 1) = ((av.topSize - 32 - 1 : Nat) : Int) := by omega
  rw [topArea, minSize, exact_, toSize_of_nonneg (Int.natCast_nonneg _) (by omega), Int.toNat_natCast,
    toLong_of_small (by omega)]

theorem extraOf_eq {area : Nat} (small : area < 2 ^ 63) (more : pad < area)
    : ∃ count, extraOf pages pad area = ((count * pages.page : Nat) : Int)
      ∧ count * pages.page ≤ area - pad := by
  obtain ⟨k, below, unit⟩ := pages.unit_pow
  obtain ⟨factor, multiple⟩ := pages.page_dvd_unit
  have surplus : ((area : Int) - (pad : Nat)) = ((area - pad : Nat) : Int) := by omega
  have size : toSize ((area : Int) - (pad : Nat)) = area - pad := by
    rw [surplus, toSize_of_nonneg (Int.natCast_nonneg _) (by omega), Int.toNat_natCast]
  have down : (area - pad) / 2 ^ k * 2 ^ k ≤ area - pad := Nat.div_mul_le_self _ _
  have whole : (area - pad) / 2 ^ k * 2 ^ k = (area - pad) / 2 ^ k * factor * pages.page := by
    rw [← unit, multiple, Nat.mul_assoc, Nat.mul_comm factor]
  refine ⟨(area - pad) / 2 ^ k * factor, ?_, whole ▸ down⟩
  unfold extraOf
  rw [size, unit, alignDown_pow (by omega) below, toLong_of_small (by omega), whole]

/-- What the break does when memory below it is given back. -/
theorem sbrk_release {moves : Nat → Bool} {amount : Nat} (some_ : 0 < amount) (below : amount < brk)
    (inside : brk < 2 ^ 64)
    : (sbrk moves brk (-(amount : Int))).2 = brk - amount ∨ (sbrk moves brk (-(amount : Int))).2 = brk := by
  have inOrder : wraps brk (-(amount : Int)) = false := by
    unfold wraps
    rw [if_neg (by omega), Int.neg_neg, toSize_of_nonneg (Int.natCast_nonneg _) (by omega)]
    exact decide_eq_false (by omega)
  have target : toSize ((brk : Int) + -(amount : Int)) = brk - amount := by
    rw [toSize_of_nonneg (by omega) (by omega)]
    omega
  unfold sbrk
  rw [if_neg (by omega), inOrder, if_neg Bool.false_ne_true, target]
  split
  · exact .inl rfl
  · exact .inr rfl

/-- Asking for the break does not move it. -/
theorem morecore_zero (sys : System) (brk : Nat)
    : sys.morecore brk 0 = (if sys.alwaysFail then none else some brk, brk) := by
  unfold System.morecore sbrk
  split <;> simp

/-- Above `MINSIZE`, `systrim` trims. -/
theorem systrim_trims (above : av.topSize ≠ minSize)
    : Trims pages pad av brk (systrim sys pages pad av brk) := by
  have owned := av.owned
  have mapped := av.mapped
  have area := topArea_of_ne above
  unfold systrim
  simp only
  rw [area, toSize_of_nonneg (Int.natCast_nonneg _) (by omega), Int.toNat_natCast]
  by_cases enough : av.topSize - minSize - 1 ≤ pad
  · rw [if_pos enough]
    exact .inl rfl
  rw [if_neg enough]
  obtain ⟨count, extra, le⟩ := @extraOf_eq pages pad
    (av.topSize - minSize - 1) (by omega) (Nat.not_le.mp enough)
  rw [extra]
  by_cases zero : ((count * pages.page : Nat) : Int) = 0
  · rw [if_pos zero]
    exact .inl rfl
  rw [if_neg zero, morecore_zero]
  by_cases fails : sys.alwaysFail = true
  · rw [if_pos fails]
    exact .inl rfl
  rw [if_neg fails]
  by_cases ours : some brk = some (av.top + av.topSize)
  case neg =>
    rw [if_neg ours]
    exact .inl rfl
  rw [if_pos ours]
  have here := Option.some.inj ours
  have moved : (sys.morecore brk (-((count * pages.page : Nat) : Int))).2 = brk - count * pages.page
      ∨ (sys.morecore brk (-((count * pages.page : Nat) : Int))).2 = brk := by
    unfold System.morecore
    rw [if_neg fails]
    exact sbrk_release (by omega) (by omega) (by omega)
  simp only [morecore_zero, if_neg fails]
  rcases moved with released | kept
  · have amount : toLong (toSize ((brk : Int) - (brk - count * pages.page : Nat)))
        = ((count * pages.page : Nat) : Int) := by
      rw [toSize_of_nonneg (by omega) (by omega), toLong_of_small (by omega)]
      omega
    rw [released, amount, if_pos zero]
    have top : toSize ((av.topSize : Int) - (count * pages.page : Nat)) = av.topSize - count * pages.page := by
      rw [toSize_of_nonneg (by omega) (by omega)]
      omega
    have memory : toSize ((av.systemMem : Int) - (count * pages.page : Nat))
        = av.systemMem - count * pages.page := by
      rw [toSize_of_nonneg (by omega) (by omega)]
      omega
    rw [top, memory]
    refine .inr ⟨count, ?_, rfl, ?_, ?_, ?_, ?_⟩
    · exact Nat.pos_of_ne_zero fun none => zero (by rw [none, Nat.zero_mul]; rfl)
    · exact Nat.sub_add_cancel (by omega)
    · exact Nat.sub_add_cancel (by omega)
    · exact Nat.sub_add_cancel (by omega)
    · simp only
      omega
  · have amount : toLong (toSize ((brk : Int) - (brk : Nat))) = 0 := by
      rw [Int.sub_self]
      rfl
    rw [kept, amount]
    exact .inl rfl

theorem noNegativeSize_of_ne (above : av.topSize ≠ minSize) : NoNegativeSize pages pad av := by
  have owned := av.owned
  have area := topArea_of_ne above
  refine ⟨area ▸ Int.natCast_nonneg _, fun more => ?_⟩
  rw [area, toSize_of_nonneg (Int.natCast_nonneg _) (by omega)] at more
  obtain ⟨count, extra, _⟩ := @extraOf_eq pages pad
    (av.topSize - minSize - 1) (by omega) (Nat.not_le.mp more)
  rw [area, extra]
  exact ⟨by omega, Int.natCast_nonneg _⟩

/-- `systrim` trims with no negative size exactly when the top chunk is larger than `MINSIZE`. -/
theorem systrim_iff (sys : System) (pages : PageSizes) (pad : Nat) (av : Arena) (brk : Nat)
    : (Trims pages pad av brk (systrim sys pages pad av brk) ∧ NoNegativeSize pages pad av)
      ↔ av.topSize ≠ minSize := by
  constructor
  · rintro ⟨_, area, _⟩ minimal
    rw [minimal] at area
    exact absurd area (by decide)
  · exact fun above => ⟨systrim_trims above, noNegativeSize_of_ne above⟩

def smallPages : PageSizes := ⟨4096, 0, ⟨12, by decide, rfl⟩, .inl rfl, dvd_zero _⟩

/-- An arena whose top chunk has the size `MINSIZE` and ends at the break. -/
def minimalArena : Arena where
  top := 0x21fe0
  topSize := 32
  systemMem := 0x21000
  mapped := by decide
  aligned := ⟨2, rfl⟩
  minimal := le_rfl
  owned := by decide

/-- Trimming the arena without a pad extends the heap by a page. -/
theorem systrim_grows
    : systrim ⟨false, fun _ => true⟩ smallPages 0 minimalArena 0x22000
        = ⟨32 + 4096, 0x21000 + 4096, 0x22000 + 4096, 1⟩
      ∧ ¬ Trims smallPages 0 minimalArena 0x22000
          (systrim ⟨false, fun _ => true⟩ smallPages 0 minimalArena 0x22000) := by
  have run : systrim ⟨false, fun _ => true⟩ smallPages 0 minimalArena 0x22000
      = ⟨32 + 4096, 0x21000 + 4096, 0x22000 + 4096, 1⟩ := by decide +kernel
  refine ⟨run, ?_⟩
  rw [run]
  rintro (same | ⟨count, _, _, brk, _⟩)
  · exact absurd same (by decide)
  · simp only at brk
    omega

end Nglibc.Malloc
