import Mathlib.Tactic

/-! The allocator of the dynamic loader, `elf/dl-minimal-malloc.c`. Pointers and sizes have 64 bits.
The kernel's answers to `mmap` come with the calls.
-/

namespace Nglibc.MinimalMalloc

/-- `x` rounded up to a multiple of `2 ^ k`, by a mask. -/
def alignUp (x k : Nat) : Nat := (x + (2 ^ k - 1)) % 2 ^ 64 / 2 ^ k * 2 ^ k

/-- The page size `2 ^ pageBits` and the end of the data segment. -/
structure Machine where
  pageBits : Nat
  dataEnd : Nat
  pageBits_ge : 4 ≤ pageBits
  dataEnd_pos : 0 < dataEnd
  dataEnd_lt : dataEnd + 2 ^ pageBits < 2 ^ 64

def Machine.pagesize (m : Machine) : Nat := 2 ^ m.pageBits

/-- The variables of the allocator, and the memory. -/
structure Heap where
  allocPtr : Nat
  allocEnd : Nat
  lastBlock : Nat
  memory : Nat → UInt8

/-- The bytes from `a` on, `n` of them, are set by a function of their addresses. -/
def setBytes (memory : Nat → UInt8) (a n : Nat) (bytes : Nat → UInt8) : Nat → UInt8 :=
  fun x => if a ≤ x ∧ x < a + n then bytes x else memory x

section

variable (m : Machine)

def Heap.start (h : Heap) : Heap :=
  if h.allocEnd = 0 then { h with allocPtr := m.dataEnd, allocEnd := alignUp m.dataEnd m.pageBits }
  else h

/-- The block at the allocation pointer is handed out. -/
def Heap.take (h : Heap) (n : Nat) : Option Nat × Heap := (some h.allocPtr,
    { h with lastBlock := h.allocPtr, allocPtr := (h.allocPtr + n) % 2 ^ 64 })

/-- A region from `mmap` is added. It is filled with zeros. -/
def Heap.extend (h : Heap) (page nup : Nat) : Heap where
  allocPtr := if page ≠ h.allocEnd then page else h.allocPtr
  allocEnd := (page + nup) % 2 ^ 64
  lastBlock := h.lastBlock
  memory := setBytes h.memory page nup fun _ => 0

/-- The length of the region for a block of `n` bytes, before one page is added. -/
def roundedSize (n : Nat) : Nat := alignUp n m.pageBits

def Heap.aligned (h : Heap) : Heap :=
  { h.start m with allocPtr := alignUp (h.start m).allocPtr 4 }

def Heap.Full (h : Heap) (n : Nat) : Prop :=
  (h.allocPtr + n) % 2 ^ 64 ≥ h.allocEnd ∨ n ≥ (2 ^ 64 - h.allocPtr) % 2 ^ 64

instance (h : Heap) (n : Nat) : Decidable (h.Full n) := inferInstanceAs (Decidable (_ ∨ _))

/-- `__minimal_malloc`. -/
def Heap.malloc (h : Heap) (n : Nat) (mmap : Nat → Option Nat) : Option Nat × Heap :=
  let h := h.aligned m
  if h.Full n then
    let nup := roundedSize m n
    if nup = 0 ∧ n ≠ 0 then (none, h)
    else
      let nup := (nup + m.pagesize) % 2 ^ 64
      match mmap nup with
      -- `MAP_FAILED`
      | none => (none, h)
      | some page => (h.extend page nup).take n
  else h.take n

/-- `__minimal_calloc`. -/
def Heap.calloc (h : Heap) (nmemb size : Nat) (mmap : Nat → Option Nat) : Option Nat × Heap :=
  let bytes := nmemb * size % 2 ^ 64
  if nmemb ||| size ≥ 2 ^ 32 ∧ size ≠ 0 ∧ bytes / size ≠ nmemb then (none, h)
  else h.malloc m bytes mmap

/-- `__minimal_free`. -/
def Heap.free (h : Heap) (ptr : Nat) : Heap :=
  if ptr = h.lastBlock then
    { h with
      memory := setBytes h.memory h.lastBlock (h.allocPtr - h.lastBlock) fun _ => 0
      allocPtr := h.lastBlock }
  else h

/-- The last block is given back, though not cleared, before `realloc` allocates anew. -/
def Heap.reset (h : Heap) : Heap := { h with allocPtr := h.lastBlock }

/-- `__minimal_realloc`, where `none` is a failed assertion or a copy to a null pointer. -/
def Heap.realloc (h : Heap) (ptr n : Nat) (mmap : Nat → Option Nat) : Option (Option Nat × Heap) :=
  if ptr = 0 then some (h.malloc m n mmap)
  else if ptr ≠ h.lastBlock then none
  else
    let oldSize := h.allocPtr - h.lastBlock
    match h.reset.malloc m n mmap with
    | (none, h) => if oldSize = 0 then some (none, h) else none
    | (some new, h) =>
      if new ≠ ptr then
        some (some new,
          { h with memory := setBytes h.memory new oldSize fun x => h.memory (ptr + (x - new)) })
      else some (some new, h)

end

structure Block where
  addr : Nat
  size : Nat
deriving DecidableEq

def Block.Contains (b : Block) (x : Nat) : Prop := b.addr ≤ x ∧ x < b.addr + b.size

/-- The allocator with the memory that was obtained, the live blocks except the most recent one, and
that one while it lives.
-/
structure World where
  heap : Heap
  obtained : List Block
  older : List Block
  recent : Option Block

def World.live (w : World) : List Block := w.recent.toList ++ w.older

def World.Obtained (w : World) (x : Nat) : Prop := ∃ r ∈ w.obtained, r.Contains x

/-- The calls, with the answers of `mmap`, and what users write into their blocks. The argument of
`realloc` is `NULL` or the most recent block.
-/
inductive Event where
  | malloc (n : Nat) (mmap : Nat → Option Nat)
  | calloc (nmemb size : Nat) (mmap : Nat → Option Nat)
  | free (b : Block)
  | freeNull
  | reallocNull (n : Nat) (mmap : Nat → Option Nat)
  | realloc (n : Nat) (mmap : Nat → Option Nat)
  | write (b : Block) (bytes : Nat → UInt8)

/-- The region that a call obtains from `mmap`, if it asks for one and gets it. -/
def Heap.region (m : Machine) (h : Heap) (n : Nat) (mmap : Nat → Option Nat) : Option Block :=
  if (h.aligned m).Full n ∧ ¬ (roundedSize m n = 0 ∧ n ≠ 0) then
    (mmap ((roundedSize m n + m.pagesize) % 2 ^ 64)).map fun page =>
      ⟨page, (roundedSize m n + m.pagesize) % 2 ^ 64⟩
  else none

/-- The world behind a call of `malloc` for `n` bytes. -/
def World.allocated (m : Machine) (w : World) (h : Heap) (n : Nat) (mmap : Nat → Option Nat)
    (result : Option Nat × Heap)
    : World where
  heap := result.2
  obtained := (h.region m n mmap).toList ++ w.obtained
  older := match result.1 with
    | none => w.older
    | some _ => w.live
  recent := match result.1 with
    | none => w.recent
    | some p => some ⟨p, n⟩

/-- One event, with the pointer that a call returns. -/
def World.step (m : Machine) (w : World) : Event → Option (Option Nat × World)
  | .malloc n mmap =>
    let result := w.heap.malloc m n mmap
    some (result.1, w.allocated m w.heap n mmap result)
  | .calloc nmemb size mmap =>
    let result := w.heap.calloc m nmemb size mmap
    match result.1 with
    | none => some (none, { w with heap := result.2 })
    | some p => some (some p, w.allocated m w.heap (nmemb * size) mmap result)
  | .free b =>
    some (none, { w with
      heap := w.heap.free b.addr
      older := w.older.erase b
      recent := if w.recent = some b ∧ b ∉ w.older then none else w.recent })
  | .freeNull => some (none, { w with heap := w.heap.free 0 })
  | .reallocNull n mmap => (w.heap.realloc m 0 n mmap).map fun result =>
    (result.1, w.allocated m w.heap n mmap result)
  | .realloc n mmap =>
    match w.recent with
    | none => none
    | some b => (w.heap.realloc m b.addr n mmap).map fun result =>
      (result.1, { w with
        heap := result.2
        obtained := (w.heap.reset.region m n mmap).toList ++ w.obtained
        recent := match result.1 with
          | none => some b
          | some p => some ⟨p, n⟩ })
  | .write b bytes =>
    some (none, { w with
      heap := { w.heap with memory := setBytes w.heap.memory b.addr b.size bytes } })

/-! What one call of `malloc` hands out: a block at the allocation pointer, or a region of its own,
and in both cases only bytes that no block holds.
-/

/-- Without overflow the mask rounds up to the next multiple. -/
theorem alignUp_bounds {x k : Nat} (fits : x + (2 ^ k - 1) < 2 ^ 64)
    : 2 ^ k ∣ alignUp x k ∧ x ≤ alignUp x k ∧ alignUp x k < x + 2 ^ k := by
  simp only [alignUp, Nat.mod_eq_of_lt fits]
  have whole := Nat.div_add_mod (x + (2 ^ k - 1)) (2 ^ k)
  rw [Nat.mul_comm] at whole
  exact ⟨Nat.dvd_mul_left _ _, by omega, by omega⟩

theorem room_above {y k : Nat} (small : k ≤ 64) (multiple : 2 ^ k ∣ y) (bound : y < 2 ^ 64)
    : y + 2 ^ k ≤ 2 ^ 64 := by
  obtain ⟨a, rfl⟩ := multiple
  obtain ⟨c, hc⟩ := Nat.pow_dvd_pow 2 small
  rw [hc] at bound ⊢
  have less : a < c := Nat.lt_of_mul_lt_mul_left bound
  calc 2 ^ k * a + 2 ^ k = 2 ^ k * (a + 1) := by ring
    _ ≤ 2 ^ k * c := Nat.mul_le_mul_left _ less

/-- Rounding up stays below every multiple that is not below the value. -/
theorem alignUp_le {x y k : Nat} (small : k ≤ 64) (le : x ≤ y) (multiple : 2 ^ k ∣ y)
    (bound : y < 2 ^ 64)
    : 2 ^ k ∣ alignUp x k ∧ x ≤ alignUp x k ∧ alignUp x k ≤ y := by
  have room := room_above small multiple bound
  obtain ⟨aligned, above, below⟩ := alignUp_bounds (x := x) (k := k) (by omega)
  refine ⟨aligned, above, ?_⟩
  obtain ⟨a, ha⟩ := aligned
  obtain ⟨c, rfl⟩ := multiple
  rw [ha] at below ⊢
  apply Nat.mul_le_mul_left
  apply Nat.le_of_lt_succ
  apply Nat.lt_of_mul_lt_mul_left (a := 2 ^ k)
  rw [Nat.mul_succ]
  omega

theorem alignUp_self {x k : Nat} (small : k ≤ 64) (multiple : 2 ^ k ∣ x) (bound : x < 2 ^ 64)
    : alignUp x k = x :=
  Nat.le_antisymm (alignUp_le small (Nat.le_refl x) multiple bound).2.2
    (alignUp_le small (Nat.le_refl x) multiple bound).2.1

variable (m : Machine)

theorem Machine.bits_le : m.pageBits ≤ 64 := by
  have small : 2 ^ m.pageBits < 2 ^ 64 := by have := m.dataEnd_lt; omega
  exact ((Nat.pow_lt_pow_iff_right (by decide)).mp small).le

theorem Machine.sixteen_dvd : 16 ∣ m.pagesize := Nat.pow_dvd_pow 2 m.pageBits_ge

theorem Machine.pagesize_pos : 0 < m.pagesize := Nat.two_pow_pos _

/-- The rounded size of a request is zero after overflow, and else it is not below the request. -/
theorem roundedSize_cases {n : Nat} (bound : n < 2 ^ 64)
    : m.pagesize ∣ roundedSize m n ∧ roundedSize m n + m.pagesize ≤ 2 ^ 64
      ∧ (¬ (roundedSize m n = 0 ∧ n ≠ 0) → n ≤ roundedSize m n) := by
  have below : roundedSize m n < 2 ^ 64 := by
    simp only [roundedSize, alignUp]
    have := Nat.div_mul_le_self ((n + (2 ^ m.pageBits - 1)) % 2 ^ 64) (2 ^ m.pageBits)
    omega
  have multiple : m.pagesize ∣ roundedSize m n := Nat.dvd_mul_left _ _
  refine ⟨multiple, room_above m.bits_le multiple below, ?_⟩
  intro normal
  by_cases fits : n + (2 ^ m.pageBits - 1) < 2 ^ 64
  · exact (alignUp_bounds fits).2.1
  · have wrapped : (n + (2 ^ m.pageBits - 1)) % 2 ^ 64 < 2 ^ m.pageBits := by omega
    have zero : roundedSize m n = 0 := by
      rw [roundedSize, alignUp, Nat.div_eq_of_lt wrapped, Nat.zero_mul]
    omega

def Covered (obtained : List Block) (x : Nat) : Prop := ∃ r ∈ obtained, r.Contains x

/-- `mmap` gives whole pages of memory that is not in use. The end of a region is an address. -/
def Answers (obtained : List Block) (mmap : Nat → Option Nat) : Prop :=
  ∀ len page, mmap len = some page → 0 < len ∧ m.pagesize ∣ page ∧ 0 < page ∧ page + len < 2 ^ 64
      ∧ ∀ x, page ≤ x → x < page + len → ¬ Covered obtained x

/-- No space is left for `n` bytes and there is no region for them. -/
def Heap.Unavailable (h : Heap) (n : Nat) (mmap : Nat → Option Nat) : Prop := (h.aligned m).Full n
    ∧ ((roundedSize m n = 0 ∧ n ≠ 0) ∨ mmap ((roundedSize m n + m.pagesize) % 2 ^ 64) = none)

/-- A free area that starts at an aligned allocation pointer. -/
structure Ready (obtained : List Block) (h : Heap) : Prop where
  pos : 0 < h.allocPtr
  aligned : 16 ∣ h.allocPtr
  ptr_le : h.allocPtr ≤ h.allocEnd
  page : m.pagesize ∣ h.allocEnd
  end_lt : h.allocEnd < 2 ^ 64
  inside : ∀ x, h.allocPtr ≤ x → x < h.allocEnd → Covered obtained x

/-- The block `p` of `n` bytes from the free area of `h` or from a new region, with the free area
behind it.
-/
structure Served (obtained : List Block) (h : Heap) (n p : Nat) (obtained' : List Block)
    (h' : Heap)
    : Prop where
  last : h'.lastBlock = p
  ptr : h'.allocPtr = p + n
  ptr_le : p + n ≤ h'.allocEnd
  lt_end : p < h'.allocEnd
  page : m.pagesize ∣ h'.allocEnd
  end_lt : h'.allocEnd < 2 ^ 64
  pos : 0 < p
  aligned : 16 ∣ p
  origin : p = h.allocPtr
    ∨ h.allocEnd ≤ h.allocPtr + n ∧ ∀ x, p ≤ x → x < h'.allocEnd → ¬ Covered obtained x
  inside : ∀ x, p ≤ x → x < h'.allocEnd → Covered obtained' x
  area : ∀ x, p ≤ x → x < h'.allocEnd → (h.allocPtr ≤ x ∧ x < h.allocEnd) ∨ ¬ Covered obtained x
  more : ∀ x, Covered obtained x → Covered obtained' x
  kept : ∀ x, Covered obtained x → h'.memory x = h.memory x
  zero : ∀ x, Covered obtained' x → ¬ Covered obtained x → h'.memory x = 0

variable {m} {obtained : List Block} {h : Heap} {n : Nat} {mmap : Nat → Option Nat}

/-- The test for space is exact. -/
theorem Ready.full_iff (ready : Ready m obtained h) (bound : n < 2 ^ 64)
    : h.Full n ↔ h.allocEnd ≤ h.allocPtr + n := by
  have pos := ready.pos
  have lt := ready.end_lt
  have negated : (2 ^ 64 - h.allocPtr) % 2 ^ 64 = 2 ^ 64 - h.allocPtr := Nat.mod_eq_of_lt (by omega)
  rw [Heap.Full]
  omega

theorem Ready.take (ready : Ready m obtained h) (fits : h.allocPtr + n < h.allocEnd)
    : Served m obtained h n h.allocPtr obtained (h.take n).2 := by
  have lt := ready.end_lt
  have noWrap : (h.allocPtr + n) % 2 ^ 64 = h.allocPtr + n := Nat.mod_eq_of_lt (by omega)
  exact {
    last := rfl
    ptr := noWrap
    ptr_le := fits.le
    lt_end := (by omega : h.allocPtr < h.allocEnd)
    page := ready.page
    end_lt := lt
    pos := ready.pos
    aligned := ready.aligned
    origin := .inl rfl
    inside := ready.inside
    area := fun _ low high => .inl ⟨low, high⟩
    more := fun _ covered => covered
    kept := fun _ _ => rfl
    zero := fun _ covered fresh => absurd covered fresh
  }

theorem covered_cons {r : Block} {x : Nat}
    : Covered (r :: obtained) x ↔ r.Contains x ∨ Covered obtained x := by
  simp [Covered]

/-- A block from a new region, which continues the free area or stands elsewhere. -/
theorem Ready.extend (ready : Ready m obtained h) {page len : Nat}
    (full : h.allocEnd ≤ h.allocPtr + n) (long : n < len) (whole : m.pagesize ∣ page + len)
    (pageAligned : m.pagesize ∣ page) (pos : 0 < page) (top : page + len < 2 ^ 64)
    (fresh : ∀ x, page ≤ x → x < page + len → ¬ Covered obtained x)
    : ∃ p, ((h.extend page len).take n).1 = some p
      ∧ Served m obtained h n p (⟨page, len⟩ :: obtained) ((h.extend page len).take n).2 := by
  have endEq : (page + len) % 2 ^ 64 = page + len := Nat.mod_eq_of_lt top
  have le := ready.ptr_le
  have more : ∀ x, Covered obtained x → Covered (⟨page, len⟩ :: obtained) x :=
    fun x covered => covered_cons.mpr (.inr covered)
  have kept : ∀ x, Covered obtained x → (h.extend page len).memory x = h.memory x := by
    intro x covered
    apply if_neg
    rintro ⟨low, high⟩
    exact fresh x low high covered
  have zero : ∀ x, Covered (⟨page, len⟩ :: obtained) x → ¬ Covered obtained x →
      (h.extend page len).memory x = 0 := by
    intro x covered outside
    exact if_pos ((covered_cons.mp covered).resolve_right outside)
  by_cases adjacent : page = h.allocEnd
  · have start : (h.extend page len).allocPtr = h.allocPtr := if_neg (by simpa using adjacent)
    have noWrap : (h.allocPtr + n) % 2 ^ 64 = h.allocPtr + n := Nat.mod_eq_of_lt (by omega)
    refine ⟨h.allocPtr, congrArg some start, ?_⟩
    exact {
      last := start
      ptr := by simpa only [Heap.take, start] using noWrap
      ptr_le := by simp only [Heap.take, Heap.extend, endEq]; omega
      lt_end := by simp only [Heap.take, Heap.extend, endEq]; omega
      page := by simpa only [Heap.take, Heap.extend, endEq] using whole
      end_lt := by simpa only [Heap.take, Heap.extend, endEq] using top
      pos := ready.pos
      aligned := ready.aligned
      origin := .inl rfl
      inside := by
        intro x low high
        simp only [Heap.take, Heap.extend, endEq] at high
        by_cases old : x < h.allocEnd
        · exact more x (ready.inside x low old)
        · exact covered_cons.mpr (.inl ⟨by simpa only [adjacent] using Nat.le_of_not_lt old, high⟩)
      area := by
        intro x low high
        simp only [Heap.take, Heap.extend, endEq] at high
        by_cases old : x < h.allocEnd
        · exact .inl ⟨low, old⟩
        · exact .inr (fresh x (by omega) high)
      more := more
      kept := kept
      zero := zero
    }
  · have start : (h.extend page len).allocPtr = page := if_pos adjacent
    have noWrap : (page + n) % 2 ^ 64 = page + n := Nat.mod_eq_of_lt (by omega)
    refine ⟨page, congrArg some start, ?_⟩
    exact {
      last := start
      ptr := by simpa only [Heap.take, start] using noWrap
      ptr_le := by simp only [Heap.take, Heap.extend, endEq]; omega
      lt_end := by simp only [Heap.take, Heap.extend, endEq]; omega
      page := by simpa only [Heap.take, Heap.extend, endEq] using whole
      end_lt := by simpa only [Heap.take, Heap.extend, endEq] using top
      pos := pos
      aligned := m.sixteen_dvd.trans pageAligned
      origin := by
        refine .inr ⟨full, ?_⟩
        intro x low high
        simp only [Heap.take, Heap.extend, endEq] at high
        exact fresh x low high
      inside := by
        intro x low high
        simp only [Heap.take, Heap.extend, endEq] at high
        exact covered_cons.mpr (.inl ⟨low, high⟩)
      area := by
        intro x low high
        simp only [Heap.take, Heap.extend, endEq] at high
        exact .inr (fresh x low high)
      more := more
      kept := kept
      zero := zero
    }

/-- A call fails only when nothing is available, and then only the pointer is aligned. Else it serves
a block.
-/
theorem Heap.malloc_cases (ready : Ready m obtained (h.aligned m)) (answers : Answers m obtained mmap)
    (bound : n < 2 ^ 64)
    : (h.Unavailable m n mmap ∧ h.malloc m n mmap = (none, h.aligned m) ∧ h.region m n mmap = none)
      ∨ ¬ h.Unavailable m n mmap ∧ ∃ p h', h.malloc m n mmap = (some p, h')
        ∧ Served m obtained (h.aligned m) n p ((h.region m n mmap).toList ++ obtained) h' := by
  by_cases full : (h.aligned m).Full n
  · by_cases overflow : roundedSize m n = 0 ∧ n ≠ 0
    · exact .inl ⟨⟨full, .inl overflow⟩, by rw [Heap.malloc, if_pos full, if_pos overflow],
        if_neg fun both => both.2 overflow⟩
    cases answer : mmap ((roundedSize m n + m.pagesize) % 2 ^ 64) with
    | none =>
      refine .inl ⟨⟨full, .inr answer⟩, ?_, ?_⟩
      · rw [Heap.malloc, if_pos full, if_neg overflow]
        simp only [answer]
      · rw [Heap.region, if_pos ⟨full, overflow⟩, answer, Option.map_none]
    | some page =>
      obtain ⟨pos, pageAligned, pagePos, top, fresh⟩ := answers _ _ answer
      obtain ⟨multiple, room, atLeast⟩ := roundedSize_cases m bound
      have noWrap : (roundedSize m n + m.pagesize) % 2 ^ 64 = roundedSize m n + m.pagesize := by
        rcases Nat.lt_or_eq_of_le room with less | equal
        · exact Nat.mod_eq_of_lt less
        · rw [equal] at pos
          exact absurd pos (Nat.lt_irrefl 0)
      have pagePositive := m.pagesize_pos
      have long : n < (roundedSize m n + m.pagesize) % 2 ^ 64 := by
        omega
      have whole : m.pagesize ∣ page + (roundedSize m n + m.pagesize) % 2 ^ 64 := by
        rw [noWrap]
        exact (Nat.dvd_add_right pageAligned).mpr
          ((Nat.dvd_add_right multiple).mpr (Nat.dvd_refl _))
      obtain ⟨p, served, block⟩ := ready.extend ((ready.full_iff bound).mp full) long whole
        pageAligned pagePos top fresh
      refine .inr ⟨?_, p,
        (((h.aligned m).extend page ((roundedSize m n + m.pagesize) % 2 ^ 64)).take n).2, ?_, ?_⟩
      · rintro ⟨-, wrapped | refused⟩
        · exact overflow wrapped
        · exact nomatch answer.symm.trans refused
      · rw [Heap.malloc, if_pos full, if_neg overflow]
        simp only [answer]
        exact Prod.ext served rfl
      · have region : h.region m n mmap = some ⟨page, (roundedSize m n + m.pagesize) % 2 ^ 64⟩ := by
          rw [Heap.region, if_pos ⟨full, overflow⟩, answer, Option.map_some]
        rw [region]
        exact block
  · have fits : (h.aligned m).allocPtr + n < (h.aligned m).allocEnd :=
      Nat.lt_of_not_le fun more => full ((ready.full_iff bound).mpr more)
    refine .inr ⟨fun unavailable => full unavailable.1, (h.aligned m).allocPtr,
      ((h.aligned m).take n).2, ?_, ?_⟩
    · rw [Heap.malloc, if_neg full]
      rfl
    · have region : h.region m n mmap = none := if_neg fun both => full both.1
      rw [region]
      exact ready.take fits

end Nglibc.MinimalMalloc
