import Nglibc.Elf.StaticTls

/-! The blocks in the static TLS area stay apart, whatever modules are loaded and closed after the
start.
-/

namespace Nglibc.StaticTls

open List

/-- Two blocks do not overlap, as intervals of offsets. -/
def Apart (m n : Module) : Prop :=
  m.offset ≤ n.offset - n.blocksize ∨ n.offset ≤ m.offset - m.blocksize

theorem Apart.symm {m n : Module} (apart : Apart m n) : Apart n m := Or.symm apart

/-- A block between two offsets, with the alignment of its first byte. -/
structure Placed (low high : Nat) (m : Module) : Prop where
  low : low + m.blocksize ≤ m.offset
  high : m.offset ≤ high
  aligned : m.align ∣ m.offset + m.firstbyteOffset
  first : m.firstbyteOffset < m.align

/-! The layout at the start -/

/-- What the loop at the start keeps: the blocks so far lie outside of the gap. -/
structure Layout.Good (s : Layout) (placed : List Module) : Prop where
  gap : s.freetop ≤ s.freebottom
  inside : s.freebottom ≤ s.offset
  power : ∃ k, s.maxAlign = 2 ^ k
  blocks : ∀ m ∈ placed, Placed 0 s.offset m ∧ m.align ∣ s.maxAlign
    ∧ (m.offset ≤ s.freetop ∨ s.freebottom ≤ m.offset - m.blocksize)
  apart : placed.Pairwise Apart

variable {s : Layout} {m : Module}

theorem power_dvd {a b : Nat} (first : ∃ k, a = 2 ^ k) (second : ∃ k, b = 2 ^ k) (le : a ≤ b)
    : a ∣ b := by
  obtain ⟨j, rfl⟩ := first
  obtain ⟨k, rfl⟩ := second
  exact Nat.pow_dvd_pow 2 ((Nat.pow_le_pow_iff_right (by decide)).mp le)

/-- The larger alignment is a power of two that both divide. -/
theorem power_max {a b : Nat} (first : ∃ k, a = 2 ^ k) (second : ∃ k, b = 2 ^ k)
    : (∃ k, max a b = 2 ^ k) ∧ a ∣ max a b ∧ b ∣ max a b := by
  have power : ∃ k, max a b = 2 ^ k := by
    rcases Nat.le_total a b with le | le
    · rwa [Nat.max_eq_right le]
    · rwa [Nat.max_eq_left le]
  exact ⟨power, power_dvd first power (Nat.le_max_left a b),
    power_dvd second power (Nat.le_max_right a b)⟩

/-- One module is placed in the gap or behind all blocks. -/
theorem Layout.Good.place {placed : List Module} (good : s.Good placed) (valid : m.Valid)
    (bound : s.offset + m.blocksize + m.align ≤ 2 ^ 63)
    : (s.place m).2.Good ({ m with offset := (s.place m).1 } :: placed)
      ∧ (s.place m).2.offset ≤ s.offset + m.blocksize + m.align
      ∧ s.offset ≤ (s.place m).2.offset
      ∧ (s.place m).2.maxAlign = max s.maxAlign m.align := by
  have gap := good.gap
  have inside := good.inside
  obtain ⟨power, oldDivides, newDivides⟩ := power_max good.power valid.power
  have difference : sub64 s.freebottom s.freetop = s.freebottom - s.freetop :=
    sub64_eq gap (by omega)
  have total : add64 (add64 s.offset m.blocksize) (s.freebottom - s.freetop)
      = s.offset + m.blocksize + (s.freebottom - s.freetop) := by
    have first := valid.first
    have inner : add64 s.offset m.blocksize = s.offset + m.blocksize := add64_eq (by omega)
    rw [inner, add64_eq (by omega)]
  simp only [Layout.place, difference, total]
  split
  next fits =>
    have fitsTop : s.freetop + m.blocksize + m.align ≤ 2 ^ 63 := by omega
    obtain ⟨low, -, aligned⟩ := valid.offsetAbove fitsTop
    refine ⟨?_, by simp only; omega, le_rfl, rfl⟩
    constructor
    · exact fits.2
    · exact inside
    · exact power
    · intro n mem
      rcases mem_cons.mp mem with rfl | old
      · exact ⟨⟨by simp only; omega, by simp only; omega, aligned, valid.first⟩, newDivides, .inl le_rfl⟩
      · obtain ⟨block, divides, outside⟩ := good.blocks n old
        refine ⟨block, divides.trans oldDivides, outside.imp_left fun below => ?_⟩
        simp only
        omega
    · refine pairwise_cons.mpr ⟨fun n old => ?_, good.apart⟩
      rcases (good.blocks n old).2.2 with below | above
      · refine .inr ?_
        simp only
        omega
      · exact .inl (fits.2.trans above)
  next =>
    have fitsOffset : s.offset + m.blocksize + m.align ≤ 2 ^ 63 := by omega
    obtain ⟨low, high, aligned⟩ := valid.offsetAbove fitsOffset
    have bottom : sub64 (m.offsetAbove s.offset) m.blocksize
        = m.offsetAbove s.offset - m.blocksize := sub64_eq (by omega) (by omega)
    have apart : ({ m with offset := m.offsetAbove s.offset } :: placed).Pairwise Apart := by
      refine pairwise_cons.mpr ⟨fun n old => .inr ?_, good.apart⟩
      have := (good.blocks n old).1.high
      simp only
      omega
    have block : Placed 0 (m.offsetAbove s.offset) { m with offset := m.offsetAbove s.offset } :=
      ⟨by simp only; omega, le_rfl, aligned, valid.first⟩
    rw [bottom]
    split
    next =>
      refine ⟨?_, by simp only; omega, by simp only; omega, rfl⟩
      constructor
      · simp only
        omega
      · exact Nat.sub_le _ _
      · exact power
      · intro n mem
        rcases mem_cons.mp mem with rfl | old
        · exact ⟨block, newDivides, .inr le_rfl⟩
        · obtain ⟨oldBlock, divides, -⟩ := good.blocks n old
          have le := oldBlock.high
          exact ⟨⟨oldBlock.low, by simp only; omega, oldBlock.aligned, oldBlock.first⟩,
            divides.trans oldDivides,
            .inl le⟩
      · exact apart
    next =>
      refine ⟨?_, by simp only; omega, by simp only; omega, rfl⟩
      constructor
      · exact gap
      · simp only
        omega
      · exact power
      · intro n mem
        rcases mem_cons.mp mem with rfl | old
        · refine ⟨block, newDivides, .inr ?_⟩
          simp only
          omega
        · obtain ⟨oldBlock, divides, outside⟩ := good.blocks n old
          have le := oldBlock.high
          exact ⟨⟨oldBlock.low, by simp only; omega, oldBlock.aligned, oldBlock.first⟩,
            divides.trans oldDivides,
            outside⟩
      · exact apart

/-- The sizes and alignments of modules, added up. -/
def total (modules : List Module) : Nat := (modules.map fun m => m.blocksize + m.align).sum

theorem total_cons (m : Module) (ms : List Module)
    : total (m :: ms) = m.blocksize + m.align + total ms :=
  sum_cons

theorem Layout.Good.placeAll {placed : List Module} (good : s.Good placed) (modules : List Module)
    (valid : ∀ m ∈ modules, m.Valid) (bound : s.offset + total modules ≤ 2 ^ 63)
    : (∃ all, (s.placeAll modules).2.Good all ∧ all.Perm ((s.placeAll modules).1 ++ placed))
      ∧ (s.placeAll modules).2.offset ≤ s.offset + total modules
      ∧ (s.placeAll modules).2.maxAlign ≤ s.maxAlign + total modules := by
  induction modules generalizing s placed with
  | nil =>
    exact ⟨⟨placed, good, .refl _⟩, Nat.le_add_right _ _, Nat.le_add_right _ _⟩
  | cons m ms ih =>
    rw [total_cons] at bound ⊢
    obtain ⟨next, offset, -, maxAlign⟩ := good.place (valid m mem_cons_self) (by omega)
    obtain ⟨⟨all, final, perm⟩, offsets, aligns⟩ :=
      ih next (fun n mem => valid n (mem_cons_of_mem m mem)) (by omega)
    rw [Layout.placeAll]
    refine ⟨⟨all, final, perm.trans perm_middle⟩, by simp only; omega, ?_⟩
    simp only
    omega

/-! Worlds -/

/-- The sums of sizes and alignments at the start stay below `2 ^ 63`. -/
def Machine.Fits (c : Machine) (modules : List Module) : Prop :=
  total modules + c.surplus + c.tcbAlignment + c.tcbSize ≤ 2 ^ 63

/-- The runs from a start: a module that is loaded later has a block of its own, as the loader
ignores empty segments, and the modules closed together are different ones.
-/
inductive Reachable (c : Machine) : World → Prop
  | start (modules : List Module) (valid : ∀ m ∈ modules, m.Valid) (fits : c.Fits modules) :
      Reachable c (start c modules)
  | allocate {w : World} {m : Module} (optional : Bool) (before : Reachable c w) (valid : m.Valid)
      (nonempty : 0 < m.blocksize) (bound : m.blocksize + m.align ≤ 2 ^ 63) :
      Reachable c (w.tryAllocate c m optional).2
  | close {w : World} {modules : List Module} (before : Reachable c w)
      (loaded : ∀ m ∈ modules, m.Static → m ∈ w.loaded)
      (distinct : (modules.filter (·.Static)).Nodup) : Reachable c (w.close modules)

def World.area (c : Machine) (w : World) : Nat := w.staticSize - c.tcbSize

/-- What every run keeps. The blocks of modules that are loaded later lie above `base`, the blocks of
the start below it.
-/
structure Invariant (c : Machine) (base : Nat) (w : World) : Prop where
  size : c.tcbSize ≤ w.staticSize
  size_lt : w.staticSize < 2 ^ 64
  power : ∃ k, w.staticAlign = 2 ^ k
  area : w.staticAlign ∣ w.area c
  base_le : base ≤ w.used
  used : w.used ≤ w.area c
  startup : ∀ m ∈ w.startup, Placed 0 base m ∧ m.align ∣ w.staticAlign
  loaded : ∀ m ∈ w.loaded, Placed base w.used m ∧ m.align ∣ w.staticAlign ∧ 0 < m.blocksize
  startApart : w.startup.Pairwise Apart
  apart : w.loaded.Pairwise Apart

variable {c : Machine} {w : World} {base : Nat}

/-- The layout at the start. -/
theorem start_invariant (modules : List Module) (valid : ∀ m ∈ modules, m.Valid)
    (fits : c.Fits modules)
    : Invariant c (start c modules).used (start c modules) := by
  have first : Layout.Good ⟨c.tcbAlignment, 0, 0, 0⟩ [] :=
    ⟨le_rfl, le_rfl, ⟨c.tcbBits, rfl⟩, nofun, .nil⟩
  rw [Machine.Fits] at fits
  obtain ⟨⟨all, good, perm⟩, offsets, aligns⟩ := first.placeAll modules valid (by simp only; omega)
  rw [append_nil] at perm
  rw [start]
  generalize Layout.placeAll ⟨c.tcbAlignment, 0, 0, 0⟩ modules = result at good perm offsets aligns
  obtain ⟨placed, s⟩ := result
  simp only at good perm offsets aligns ⊢
  have pos : 0 < s.maxAlign := by
    obtain ⟨k, power⟩ := good.power
    exact power ▸ Nat.two_pow_pos k
  have sum : add64 s.offset c.surplus = s.offset + c.surplus := add64_eq (by omega)
  obtain ⟨whole, low, high⟩ := roundup_spec (x := s.offset + c.surplus) pos (by omega)
  have size : add64 (roundup (add64 s.offset c.surplus) s.maxAlign) c.tcbSize
      = roundup (s.offset + c.surplus) s.maxAlign + c.tcbSize := by
    rw [sum]
    exact add64_eq (by omega)
  rw [size]
  exact {
    size := Nat.le_add_left _ _
    size_lt := by
      simp only
      omega
    power := good.power
    area := by
      rw [World.area]
      simpa using whole
    base_le := le_rfl
    used := by
      rw [World.area]
      simp only
      omega
    startup := by
      intro m mem
      obtain ⟨block, divides, -⟩ := good.blocks m (perm.symm.subset mem)
      exact ⟨block, divides⟩
    loaded := nofun
    startApart := (perm.pairwise_iff Apart.symm).mp good.apart
    apart := .nil
  }

/-- A later module gets a block behind the used area, with its end counted from the end of the static
area, or nothing changes.
-/
theorem Invariant.tryAllocate (invariant : Invariant c base w) {m : Module} (optional : Bool)
    (valid : m.Valid) (nonempty : 0 < m.blocksize) (bound : m.blocksize + m.align ≤ 2 ^ 63)
    : w.tryAllocate c m optional = (-1, w) ∨ ((w.tryAllocate c m optional).1 = 0
        ∧ Invariant c base (w.tryAllocate c m optional).2) := by
  have size := invariant.size
  have size_lt := invariant.size_lt
  have used := invariant.used
  have first := valid.first
  rw [World.area] at used
  have free : sub64 w.staticSize w.used = w.staticSize - w.used := sub64_eq (by omega) size_lt
  have enough : ¬ w.staticSize - w.used < c.tcbSize := by omega
  have rest : sub64 (w.staticSize - w.used) c.tcbSize = w.staticSize - w.used - c.tcbSize :=
    sub64_eq (by omega) (by omega)
  have blsize : add64 m.blocksize m.firstbyteOffset = m.blocksize + m.firstbyteOffset :=
    add64_eq (by omega)
  simp only [World.tryAllocate, free, if_neg enough, rest, blsize]
  by_cases refused : m.offset = forcedDynamic ∨ m.align > w.staticAlign
  · exact .inl (if_pos refused)
  rw [if_neg refused]
  by_cases large : w.staticSize - w.used - c.tcbSize < m.blocksize + m.firstbyteOffset
  · exact .inl (if_pos large)
  rw [if_neg large]
  have difference : sub64 (w.staticSize - w.used - c.tcbSize) (m.blocksize + m.firstbyteOffset)
      = w.staticSize - w.used - c.tcbSize - (m.blocksize + m.firstbyteOffset) :=
    sub64_eq (by omega) (by omega)
  rw [difference]
  generalize count : (w.staticSize - w.used - c.tcbSize - (m.blocksize + m.firstbyteOffset))
    / m.align = n
  have whole : n * m.align
      ≤ w.staticSize - w.used - c.tcbSize - (m.blocksize + m.firstbyteOffset) :=
    count ▸ Nat.div_mul_le_self _ _
  have product : n * m.align % 2 ^ 64 = n * m.align := Nat.mod_eq_of_lt (by omega)
  have inner : sub64 (w.staticSize - w.used - c.tcbSize) (n * m.align)
      = w.staticSize - w.used - c.tcbSize - n * m.align := sub64_eq (by omega) (by omega)
  have use : sub64 (w.staticSize - w.used - c.tcbSize - n * m.align) m.firstbyteOffset
      = w.staticSize - w.used - c.tcbSize - n * m.align - m.firstbyteOffset :=
    sub64_eq (by omega) (by omega)
  rw [product, inner, use]
  generalize taken : w.staticSize - w.used - c.tcbSize - n * m.align - m.firstbyteOffset = u
  by_cases exhausted : optional = true ∧ u > w.optional
  · exact .inl (if_pos exhausted)
  rw [if_neg exhausted]
  have offset : add64 w.used u = w.used + u := add64_eq (by omega)
  have divides : m.align ∣ w.staticAlign :=
    power_dvd valid.power invariant.power (Nat.le_of_not_lt fun more => refused (.inr more))
  have aligned : m.align ∣ w.used + u + m.firstbyteOffset := by
    have sum : w.used + u + m.firstbyteOffset + n * m.align = w.area c := by
      rw [World.area]
      omega
    refine (Nat.dvd_add_left (Nat.dvd_mul_left m.align n)).mp ?_
    rw [sum]
    exact divides.trans invariant.area
  refine .inr ⟨rfl, ?_⟩
  rw [offset]
  have base_le := invariant.base_le
  exact {
    size := size
    size_lt := size_lt
    power := invariant.power
    area := invariant.area
    base_le := by
      simp only
      omega
    used := by
      simp only [World.area]
      omega
    startup := invariant.startup
    loaded := by
      intro k mem
      rcases mem_cons.mp mem with rfl | old
      · exact ⟨⟨by simp only; omega, le_rfl, aligned, valid.first⟩, divides, nonempty⟩
      · obtain ⟨block, oldDivides, oldNonempty⟩ := invariant.loaded k old
        have high := block.high
        exact ⟨⟨block.low, by simp only; omega, block.aligned, block.first⟩, oldDivides, oldNonempty⟩
    startApart := invariant.startApart
    apart := by
      refine pairwise_cons.mpr ⟨fun k old => .inr ?_, invariant.apart⟩
      have := (invariant.loaded k old).1.high
      simp only
      omega
  }

/-! Closing -/

/-- The chunk holds no byte of a block, so the used area may end where the chunk starts once it ends
where the chunk ends.
-/
structure Chunk.Good (c : Chunk) (base area : Nat) (loaded : List Module) : Prop where
  used : base ≤ c.used ∧ c.used ≤ area
  start : c.freeStart = 0 ∧ c.freeEnd = 0 ∨ base ≤ c.freeStart ∧ c.freeStart ≤ area
  blocks : ∀ n ∈ loaded, base + n.blocksize ≤ n.offset ∧ 0 < n.blocksize ∧ n.offset ≤ c.used
  free : ∀ n ∈ loaded,
    c.freeEnd ≤ c.freeStart ∨ n.offset ≤ c.freeStart ∨ c.freeEnd ≤ n.offset - n.blocksize
  apart : loaded.Pairwise Apart

/-- Closing one module merges its block into the chunk, replaces the chunk or drops the block. -/
theorem Chunk.Good.closeOne {chunk : Chunk} {area : Nat} {loaded : List Module}
    (good : chunk.Good base area loaded) (areaBound : area < 2 ^ 64)
    (mem : m.Static → m ∈ loaded)
    : (chunk.closeOne m).Good base area (loaded.erase m) := by
  have blocks : ∀ n ∈ loaded.erase m,
      base + n.blocksize ≤ n.offset ∧ 0 < n.blocksize ∧ n.offset ≤ chunk.used :=
    fun n later => good.blocks n (mem_of_mem_erase later)
  have free : ∀ n ∈ loaded.erase m, chunk.freeEnd ≤ chunk.freeStart
      ∨ n.offset ≤ chunk.freeStart ∨ chunk.freeEnd ≤ n.offset - n.blocksize :=
    fun n later => good.free n (mem_of_mem_erase later)
  have apart : (loaded.erase m).Pairwise Apart := good.apart.sublist erase_sublist
  obtain ⟨baseUsed, usedArea⟩ := good.used
  have start := good.start
  by_cases isStatic : m.Static
  swap
  · rw [Chunk.closeOne, if_neg isStatic]
    exact ⟨⟨baseUsed, usedArea⟩, start, blocks, free, apart⟩
  have inside := mem isStatic
  obtain ⟨low, nonempty, high⟩ := good.blocks m inside
  have bottom : sub64 m.offset m.blocksize = m.offset - m.blocksize :=
    sub64_eq (by omega) (by omega)
  have other : ∀ n ∈ loaded.erase m, Apart m n := by
    have ordered : (m :: loaded.erase m).Pairwise Apart :=
      ((perm_cons_erase inside).pairwise_iff Apart.symm).mp good.apart
    exact (pairwise_cons.mp ordered).1
  have zero : noOffset = 0 := rfl
  simp only [Chunk.closeOne, if_pos isStatic, bottom]
  split
  next touches =>
    refine ⟨⟨baseUsed, usedArea⟩, .inr ⟨by simp only; omega, by simp only; omega⟩, blocks, ?_, apart⟩
    intro n later
    have := free n later
    have := blocks n later
    have := other n later
    simp only [Apart] at *
    by_cases none : chunk.freeEnd = noOffset
    · rw [if_pos none]
      omega
    · rw [if_neg none]
      omega
  next =>
    split
    next below =>
      refine ⟨⟨baseUsed, usedArea⟩, ?_, blocks, ?_, apart⟩
      · simp only
        omega
      · intro n later
        have := free n later
        have := blocks n later
        have := other n later
        simp only [Apart] at *
        omega
    next =>
      split
      next reclaimed =>
        refine ⟨?_, .inr ⟨by simp only; omega, by simp only; omega⟩, ?_, ?_, apart⟩
        · simp only
          omega
        · intro n later
          have := free n later
          have := blocks n later
          simp only
          omega
        · intro n later
          have := other n later
          simp only [Apart] at *
          omega
      next =>
        split
        next last =>
          refine ⟨?_, start, ?_, free, apart⟩
          · simp only
            omega
          · intro n later
            have := blocks n later
            have := other n later
            simp only [Apart] at *
            omega
        next =>
          split
          next later =>
            refine ⟨⟨baseUsed, usedArea⟩, .inr ⟨by simp only; omega, by simp only; omega⟩, blocks, ?_,
              apart⟩
            intro n later
            have := other n later
            simp only [Apart] at *
            omega
          next => exact ⟨⟨baseUsed, usedArea⟩, start, blocks, free, apart⟩

private theorem Chunk.Good.closeAll {chunk : Chunk} {area : Nat} {loaded modules : List Module}
    (good : chunk.Good base area loaded) (areaBound : area < 2 ^ 64)
    (mem : ∀ m ∈ modules, m.Static → m ∈ loaded)
    (distinct : (modules.filter (·.Static)).Nodup)
    : (modules.foldl Chunk.closeOne chunk).Good base area (loaded.diff modules) := by
  induction modules generalizing chunk loaded with
  | nil => exact good
  | cons m ms ih =>
    rw [diff_cons]
    apply ih (good.closeOne areaBound (mem m mem_cons_self))
    · intro n later isStatic
      have differ : n ≠ m := by
        rintro rfl
        rw [filter_cons_of_pos (by simpa using isStatic)] at distinct
        exact (nodup_cons.mp distinct).1 (mem_filter.mpr ⟨later, by simpa using isStatic⟩)
      exact (mem_erase_of_ne differ).mpr (mem n (mem_cons_of_mem m later) isStatic)
    · exact distinct.sublist ((sublist_cons_self m ms).filter _)

/-- The end of a close. -/
theorem Invariant.close (invariant : Invariant c base w) {modules : List Module}
    (loaded : ∀ m ∈ modules, m.Static → m ∈ w.loaded)
    (distinct : (modules.filter (·.Static)).Nodup)
    : Invariant c base (w.close modules) := by
  have areaBound : w.area c < 2 ^ 64 := by
    have := invariant.size_lt
    rw [World.area]
    omega
  have first : Chunk.Good ⟨noOffset, noOffset, w.used⟩ base (w.area c) w.loaded :=
    ⟨⟨invariant.base_le, invariant.used⟩, .inl ⟨rfl, rfl⟩,
      fun n mem => ⟨(invariant.loaded n mem).1.low, (invariant.loaded n mem).2.2,
        (invariant.loaded n mem).1.high⟩,
      fun _ _ => .inl le_rfl, invariant.apart⟩
  have good := first.closeAll areaBound loaded distinct
  have bounds : base ≤ (w.close modules).used ∧ (w.close modules).used ≤ w.area c
      ∧ ∀ n ∈ w.loaded.diff modules, n.offset ≤ (w.close modules).used := by
    obtain ⟨baseUsed, usedArea⟩ := good.used
    have start := good.start
    simp only [World.close]
    split
    next reclaimed =>
      refine ⟨by omega, by omega, fun n mem => ?_⟩
      have := good.blocks n mem
      have := good.free n mem
      omega
    next => exact ⟨baseUsed, usedArea, fun n mem => (good.blocks n mem).2.2⟩
  exact {
    size := invariant.size
    size_lt := invariant.size_lt
    power := invariant.power
    area := invariant.area
    base_le := bounds.1
    used := bounds.2.1
    startup := invariant.startup
    loaded := by
      intro n mem
      obtain ⟨block, divides, nonempty⟩ := invariant.loaded n (diff_subset _ _ mem)
      exact ⟨⟨block.low, bounds.2.2 n mem, block.aligned, block.first⟩, divides, nonempty⟩
    startApart := invariant.startApart
    apart := good.apart
  }

/-! Runs -/

/-- Every run keeps the invariant, by induction on the run. -/
theorem Reachable.invariant (reachable : Reachable c w) : ∃ base, Invariant c base w := by
  induction reachable with
  | start modules valid fits => exact ⟨_, start_invariant modules valid fits⟩
  | allocate optional _ valid nonempty bound ih =>
    obtain ⟨base, invariant⟩ := ih
    rcases invariant.tryAllocate optional valid nonempty bound with failed | ⟨-, next⟩
    · exact ⟨base, failed.symm ▸ invariant⟩
    · exact ⟨base, next⟩
  | close _ loaded distinct ih =>
    obtain ⟨base, invariant⟩ := ih
    exact ⟨base, invariant.close loaded distinct⟩

def World.blocks (w : World) : List Module := w.startup ++ w.loaded

/-- The addresses of a block below the thread pointer. -/
def Module.Contains (m : Module) (tp x : Nat) : Prop :=
  tp - m.offset ≤ x ∧ x < tp - m.offset + m.blocksize

/-- Below a thread pointer the blocks are disjoint, inside the static area and aligned. -/
structure World.Sound (c : Machine) (w : World) (tp : Nat) : Prop where
  disjoint : w.blocks.Pairwise fun m n => ∀ x, m.Contains tp x → ¬ n.Contains tp x
  inside : ∀ m ∈ w.blocks, tp - w.area c ≤ tp - m.offset ∧ tp - m.offset + m.blocksize ≤ tp
  firstByte : ∀ m ∈ w.blocks, (tp - m.offset) % m.align = m.firstbyteOffset
  used : ∀ m ∈ w.blocks, m.offset ≤ w.used

/-- All blocks lie below the end of the used area and do not overlap. -/
theorem Invariant.blocks (invariant : Invariant c base w)
    : (∀ m ∈ w.blocks, Placed 0 w.used m ∧ m.align ∣ w.staticAlign) ∧ w.blocks.Pairwise Apart := by
  constructor
  · intro m mem
    rcases mem_append.mp mem with early | late
    · obtain ⟨block, divides⟩ := invariant.startup m early
      exact ⟨⟨block.low, block.high.trans invariant.base_le, block.aligned, block.first⟩, divides⟩
    · obtain ⟨block, divides, -⟩ := invariant.loaded m late
      have low := block.low
      exact ⟨⟨by omega, block.high, block.aligned, block.first⟩, divides⟩
  · refine pairwise_append.mpr ⟨invariant.startApart, invariant.apart, ?_⟩
    intro m early n late
    left
    have high := (invariant.startup m early).1.high
    have low := (invariant.loaded n late).1.low
    omega

/-- Below an aligned thread pointer the first byte has the alignment that the module asks for. -/
theorem Placed.firstByte {low high : Nat} (placed : Placed low high m) {tp : Nat}
    (aligned : m.align ∣ tp) (below : m.offset ≤ tp)
    : (tp - m.offset) % m.align = m.firstbyteOffset := by
  obtain ⟨q, multiple⟩ := placed.aligned
  obtain ⟨p, rfl⟩ := aligned
  calc (m.align * p - m.offset) % m.align
    _ = (m.align * p - m.offset + m.align * q) % m.align := (Nat.add_mul_mod_self_left _ _ _).symm
    _ = (m.align * p + m.firstbyteOffset) % m.align := by
        congr 1
        omega
    _ = m.firstbyteOffset % m.align := Nat.mul_add_mod _ _ _
    _ = m.firstbyteOffset := Nat.mod_eq_of_lt placed.first

theorem Invariant.sound (invariant : Invariant c base w) {tp : Nat} (aligned : w.staticAlign ∣ tp)
    (room : w.area c ≤ tp)
    : w.Sound c tp := by
  obtain ⟨blocks, apart⟩ := invariant.blocks
  have used := invariant.used
  constructor
  · refine apart.imp_of_mem ?_
    intro m n memM memN separate x inM inN
    have := (blocks m memM).1.low
    have := (blocks m memM).1.high
    have := (blocks n memN).1.high
    simp only [Apart, Module.Contains] at *
    omega
  · intro m mem
    have := (blocks m mem).1.low
    have := (blocks m mem).1.high
    omega
  · intro m mem
    obtain ⟨block, divides⟩ := blocks m mem
    exact block.firstByte (divides.trans aligned) ((block.high.trans used).trans room)
  · exact fun m mem => (blocks m mem).1.high

/-- An allocation places the module in front of the others, or fails and changes nothing. -/
theorem World.tryAllocate_cases (c : Machine) (w : World) (m : Module) (optional : Bool)
    : ((w.tryAllocate c m optional).1 = 0 ∧ ∃ offset,
        (w.tryAllocate c m optional).2.loaded = { m with offset := offset } :: w.loaded)
      ∨ w.tryAllocate c m optional = (-1, w) := by
  unfold World.tryAllocate
  dsimp only
  repeat' split
  all_goals first | exact .inr rfl | exact .inl ⟨rfl, _, rfl⟩

/-- The loop at the start changes only the offsets. -/
theorem Layout.placeAll_modules (s : Layout) (modules : List Module)
    : ∃ offsets : List Nat, offsets.length = modules.length
      ∧ (s.placeAll modules).1 = List.zipWith (fun m offset => { m with offset }) modules offsets := by
  induction modules generalizing s with
  | nil => exact ⟨[], rfl, rfl⟩
  | cons m modules ih =>
    obtain ⟨offsets, length, placed⟩ := ih (s.place m).2
    exact ⟨(s.place m).1 :: offsets, by rw [length_cons, length, length_cons],
      congrArg (_ :: ·) placed⟩

/-- In every run the blocks are sound below every thread pointer with the static alignment, and an
allocation places its module or changes nothing. At the start the given modules are placed.
-/
theorem static_tls_sound (c : Machine) (w : World) (reachable : Reachable c w)
    : (∀ tp, w.staticAlign ∣ tp → w.area c ≤ tp → w.Sound c tp)
      ∧ (∀ m optional, ((w.tryAllocate c m optional).1 = 0 ∧ ∃ offset,
            (w.tryAllocate c m optional).2.loaded = { m with offset := offset } :: w.loaded)
          ∨ w.tryAllocate c m optional = (-1, w))
      ∧ ∀ modules, ∃ offsets : List Nat, offsets.length = modules.length ∧ (start c modules).startup
          = List.zipWith (fun m offset => { m with offset }) modules offsets := by
  obtain ⟨base, invariant⟩ := reachable.invariant
  exact ⟨fun _ aligned room => invariant.sound aligned room, w.tryAllocate_cases c,
    Layout.placeAll_modules _⟩

def smallMachine : Machine := ⟨6, 2304, 1664, 512⟩

theorem static_tls_sound_small
    : World.Sound smallMachine
        ((start smallMachine [⟨100, 32, 8, 0⟩]).tryAllocate smallMachine ⟨24, 8, 0, 0⟩ true).2
        (2 ^ 20) := by
  have valid : ∀ m ∈ [(⟨100, 32, 8, 0⟩ : Module)], m.Valid := by
    intro m mem
    obtain rfl := mem_singleton.mp mem
    exact ⟨⟨5, rfl⟩, by decide⟩
  have fits : smallMachine.Fits [⟨100, 32, 8, 0⟩] := by
    rw [Machine.Fits]
    decide
  refine (static_tls_sound smallMachine _ ?_).1 (2 ^ 20) (by decide) (by decide)
  exact (Reachable.start _ valid fits).allocate true ⟨⟨3, rfl⟩, by decide⟩ (by decide) (by decide)

end Nglibc.StaticTls
