import Nglibc.Elf.MinimalMalloc

/-! Runs of the minimal allocator. Behind the most recent block lie only zeros, so `calloc` need not
clear anything, as long as no call gives back bytes that it does not clear.
-/

namespace Nglibc.MinimalMalloc

/-- Users free and write only live blocks and reallocate the most recent one while it lives. -/
def Event.Legal (m : Machine) (w : World) : Event → Prop
  | .malloc n mmap => n < 2 ^ 64 ∧ Answers m w.obtained mmap
  | .calloc nmemb size mmap => (nmemb < 2 ^ 64 ∧ size < 2 ^ 64) ∧ Answers m w.obtained mmap
  | .free b => b ∈ w.live
  | .freeNull => True
  | .reallocNull n mmap => n < 2 ^ 64 ∧ Answers m w.obtained mmap
  | .realloc n mmap => w.recent ≠ none ∧ n < 2 ^ 64 ∧ Answers m w.obtained mmap
  | .write b _ => b ∈ w.live

/-- Where the code meets its purpose. A realloc gives back only zeros and does not fail for a block
with contents, an empty block is not freed once its address is that of a block with contents, and
`NULL` is not freed between a failed first call and the first block.
-/
def Event.Safe (m : Machine) (w : World) : Event → Prop
  | .free b => b ∉ w.recent → ∀ r ∈ w.recent, b.addr = r.addr → b.size = 0 → r.size = 0
  | .freeNull => w.heap.lastBlock = 0 → w.heap.allocPtr = 0
  | .realloc n mmap => ∀ b ∈ w.recent,
      (∀ x, b.addr + n ≤ x → x < b.addr + b.size → w.heap.memory x = 0)
      ∧ (0 < b.size → ¬ w.heap.reset.Unavailable m n mmap)
  | _ => True

def Event.Correct (m : Machine) (w : World) (result : Option Nat) (w' : World) : Event → Prop
  | .malloc n mmap | .reallocNull n mmap =>
    (result = none ↔ w.heap.Unavailable m n mmap) ∧ result ≠ some 0
  | .calloc nmemb size mmap =>
    (result = none ↔ 2 ^ 64 ≤ nmemb * size ∨ w.heap.Unavailable m (nmemb * size) mmap)
    ∧ result ≠ some 0
    ∧ ∀ p ∈ result, ∀ x, p ≤ x → x < p + nmemb * size → w'.heap.memory x = 0
  | .realloc n mmap => ∀ b ∈ w.recent, (result = none ↔ w.heap.reset.Unavailable m n mmap)
      ∧ result ≠ some 0
      ∧ ∀ p ∈ result, ∀ i < min b.size n, w'.heap.memory (p + i) = w.heap.memory (b.addr + i)
  | _ => True

def Block.Disjoint (b c : Block) : Prop := ∀ x, b.Contains x → ¬ c.Contains x

/-- The live blocks are aligned, pairwise disjoint and inside memory that was obtained. -/
structure World.Sound (w : World) : Prop where
  aligned : ∀ b ∈ w.live, 16 ∣ b.addr
  disjoint : w.live.Pairwise Block.Disjoint
  inside : ∀ b ∈ w.live, ∀ x, b.Contains x → w.Obtained x

def World.start (m : Machine) (memory : Nat → UInt8) : World where
  heap := { allocPtr := 0, allocEnd := 0, lastBlock := 0, memory }
  obtained := [⟨m.dataEnd, alignUp m.dataEnd m.pageBits - m.dataEnd⟩]
  older := []
  recent := none

/-- The worlds that allowed events reach from the start of the program, where the rest of the last
page of the data segment is zero.
-/
inductive Reachable (m : Machine) (Allowed : World → Event → Prop) : World → Prop
  | start (memory : Nat → UInt8)
      (zero : ∀ x, m.dataEnd ≤ x → x < alignUp m.dataEnd m.pageBits → memory x = 0) :
      Reachable m Allowed (World.start m memory)
  | step {w w' : World} {e : Event} {result : Option Nat} (before : Reachable m Allowed w)
      (allowed : Allowed w e) (stepped : w.step m e = some (result, w')) :
      Reachable m Allowed w'

/-! The invariant -/

/-- Where the most recent block starts while it lives, and else where free memory starts. -/
def World.base (w : World) : Nat :=
  match w.recent with
  | some b => b.addr
  | none => w.heap.allocPtr

/-- Where the most recent block ends while it lives, and else where free memory starts. -/
def World.top (w : World) : Nat :=
  match w.recent with
  | some b => b.addr + b.size
  | none => w.heap.allocPtr

/-- The allocator runs: free memory is zero, and no older block reaches into it. -/
structure Running (m : Machine) (w : World) : Prop where
  ptr_pos : 0 < w.heap.allocPtr
  ptr_le : w.heap.allocPtr ≤ w.heap.allocEnd
  page : m.pagesize ∣ w.heap.allocEnd
  end_lt : w.heap.allocEnd < 2 ^ 64
  last : 16 ∣ w.heap.lastBlock
  recent : ∀ b ∈ w.recent, b.addr = w.heap.lastBlock ∧ 0 < b.addr ∧ b.addr < w.heap.allocEnd
      ∧ b.addr + b.size ≤ w.heap.allocPtr ∧ (b.size = 0 → w.heap.allocPtr = b.addr)
  freed : w.recent = none → w.heap.lastBlock = 0 ∨ w.heap.lastBlock = w.heap.allocPtr
  zero : ∀ x, w.top ≤ x → x < w.heap.allocEnd → w.heap.memory x = 0
  inside : ∀ x, w.base ≤ x → x < w.heap.allocEnd → Covered w.obtained x
  older : ∀ b ∈ w.older, 16 ∣ b.addr ∧ 0 < b.addr
    ∧ ∀ x, b.Contains x → Covered w.obtained x ∧ ¬ (w.base ≤ x ∧ x < w.heap.allocEnd)
  apart : w.older.Pairwise Block.Disjoint

structure Unstarted (m : Machine) (w : World) : Prop where
  ptr : w.heap.allocPtr = 0
  «end» : w.heap.allocEnd = 0
  last : w.heap.lastBlock = 0
  obtained : w.obtained = [⟨m.dataEnd, alignUp m.dataEnd m.pageBits - m.dataEnd⟩]
  older : w.older = []
  recent : w.recent = none
  zero : ∀ x, m.dataEnd ≤ x → x < alignUp m.dataEnd m.pageBits → w.heap.memory x = 0

def World.aligned (m : Machine) (w : World) : World := { w with heap := w.heap.aligned m }

variable {m : Machine} {w : World}

/-- Aligning the pointer skips only free bytes. -/
theorem Running.aligned (running : Running m w)
    : Running m (w.aligned m) ∧ 16 ∣ (w.aligned m).heap.allocPtr := by
  have notZero : w.heap.allocEnd ≠ 0 := by
    have := running.ptr_pos
    have := running.ptr_le
    omega
  have same : w.heap.start m = w.heap := if_neg notZero
  have endAligned : 2 ^ 4 ∣ w.heap.allocEnd := m.sixteen_dvd.trans running.page
  obtain ⟨multiple, above, below⟩ := alignUp_le (by decide) running.ptr_le endAligned running.end_lt
  have ptr : (w.aligned m).heap.allocPtr = alignUp w.heap.allocPtr 4 := by
    simp only [World.aligned, Heap.aligned, same]
  have ends : (w.aligned m).heap.allocEnd = w.heap.allocEnd := by
    simp only [World.aligned, Heap.aligned, same]
  have last : (w.aligned m).heap.lastBlock = w.heap.lastBlock := by
    simp only [World.aligned, Heap.aligned, same]
  have memory : (w.aligned m).heap.memory = w.heap.memory := by
    simp only [World.aligned, Heap.aligned, same]
  have base : w.base ≤ (w.aligned m).base := by
    cases recent : w.recent with
    | none => simpa only [World.base, World.aligned, recent, ← ptr] using above
    | some b => simp [World.base, World.aligned, recent]
  have top : w.top ≤ (w.aligned m).top := by
    cases recent : w.recent with
    | none => simpa only [World.top, World.aligned, recent, ← ptr] using above
    | some b => simp [World.top, World.aligned, recent]
  refine ⟨?_, ptr ▸ multiple⟩
  exact {
    ptr_pos := ptr ▸ Nat.lt_of_lt_of_le running.ptr_pos above
    ptr_le := by rw [ptr, ends]; exact below
    page := ends ▸ running.page
    end_lt := ends ▸ running.end_lt
    last := last ▸ running.last
    recent := by
      intro b mem
      obtain ⟨addr, pos, lt, le, empty⟩ := running.recent b mem
      rw [ptr, ends, last]
      refine ⟨addr, pos, lt, le.trans above, ?_⟩
      intro zero
      rw [empty zero]
      exact alignUp_self (by decide) (addr ▸ running.last) (lt.trans running.end_lt)
    freed := by
      intro gone
      rw [ptr, last]
      rcases running.freed gone with zero | equal
      · exact .inl zero
      · refine .inr (equal.trans (alignUp_self (by decide) (equal ▸ running.last) ?_).symm)
        exact Nat.lt_of_le_of_lt running.ptr_le running.end_lt
    zero := by
      intro x low high
      rw [memory]
      rw [ends] at high
      exact running.zero x (top.trans low) high
    inside := by
      intro x low high
      rw [ends] at high
      exact running.inside x (base.trans low) high
    older := by
      intro b mem
      obtain ⟨aligned, pos, contents⟩ := running.older b mem
      refine ⟨aligned, pos, fun x contained => ⟨(contents x contained).1, ?_⟩⟩
      rintro ⟨low, high⟩
      rw [ends] at high
      exact (contents x contained).2 ⟨base.trans low, high⟩
    apart := running.apart
  }

/-- The first call starts with the rest of the data segment. -/
theorem Unstarted.aligned (unstarted : Unstarted m w)
    : Running m (w.aligned m) ∧ 16 ∣ (w.aligned m).heap.allocPtr := by
  have room := m.dataEnd_lt
  have pos := m.dataEnd_pos
  have pagePos : 0 < 2 ^ m.pageBits := Nat.two_pow_pos _
  obtain ⟨page, above, below⟩ := alignUp_bounds (x := m.dataEnd) (k := m.pageBits) (by omega)
  let started : World := { w with heap := {
    allocPtr := m.dataEnd
    allocEnd := alignUp m.dataEnd m.pageBits
    lastBlock := 0
    memory := w.heap.memory } }
  have start : w.heap.start m = started.heap := by
    rw [Heap.start, if_pos unstarted.end]
    simp only [started, unstarted.last]
  have running : Running m started := {
    ptr_pos := pos
    ptr_le := above
    page := page
    end_lt := (by omega : alignUp m.dataEnd m.pageBits < 2 ^ 64)
    last := Nat.dvd_zero _
    recent := by
      intro b mem
      rw [unstarted.recent] at mem
      exact nomatch mem
    freed := fun _ => .inl rfl
    zero := by
      intro x low high
      have top : started.top = m.dataEnd := by simp only [World.top, started, unstarted.recent]
      exact unstarted.zero x (top ▸ low) high
    inside := by
      intro x low high
      have base : started.base = m.dataEnd := by simp only [World.base, started, unstarted.recent]
      have obtained : started.obtained = [⟨m.dataEnd, alignUp m.dataEnd m.pageBits - m.dataEnd⟩] :=
        unstarted.obtained
      rw [obtained]
      refine ⟨_, List.mem_singleton.mpr rfl, base ▸ low, ?_⟩
      have high : x < alignUp m.dataEnd m.pageBits := high
      show x < m.dataEnd + (alignUp m.dataEnd m.pageBits - m.dataEnd)
      omega
    older := by
      intro b mem
      rw [unstarted.older] at mem
      exact nomatch mem
    apart := by
      have older : started.older = [] := unstarted.older
      rw [older]
      exact .nil
  }
  have same : w.aligned m = started.aligned m := by
    have again : started.heap.start m = started.heap :=
      if_neg (Nat.ne_of_gt (Nat.lt_of_lt_of_le pos above))
    simp only [World.aligned, Heap.aligned, start, again]
    rfl
  rw [same]
  exact running.aligned

/-! Allocation -/

theorem Running.base_le (running : Running m w) : w.base ≤ w.heap.allocPtr := by
  cases recent : w.recent with
  | none => simp only [World.base, recent, Nat.le_refl]
  | some b =>
    obtain ⟨-, -, -, le, -⟩ := running.recent b recent
    simp only [World.base, recent]
    omega

theorem Running.top_le (running : Running m w) : w.top ≤ w.heap.allocPtr := by
  cases recent : w.recent with
  | none => simp only [World.top, recent, Nat.le_refl]
  | some b => simpa only [World.top, recent] using (running.recent b recent).2.2.2.1

/-- The most recent block lies between its start and the allocation pointer. -/
theorem Running.recent_contains (running : Running m w) {b : Block} (mem : b ∈ w.recent) {x : Nat}
    (contained : b.Contains x)
    : w.base ≤ x ∧ x < w.heap.allocPtr ∧ x < w.heap.allocEnd := by
  obtain ⟨-, -, -, le, -⟩ := running.recent b mem
  obtain ⟨low, high⟩ := contained
  have base : w.base = b.addr := by simp only [World.base, show w.recent = some b from mem]
  have := running.ptr_le
  omega

theorem World.mem_live {b : Block} : b ∈ w.live ↔ b ∈ w.recent ∨ b ∈ w.older := by
  simp [World.live]

/-- The invariant gives what users see of the blocks. -/
theorem Running.sound (running : Running m w) : w.Sound where
  aligned := by
    intro b mem
    rcases World.mem_live.mp mem with recent | older
    · obtain ⟨addr, -⟩ := running.recent b recent
      exact addr ▸ running.last
    · exact (running.older b older).1
  disjoint := by
    rw [World.live, List.pairwise_append]
    refine ⟨?_, running.apart, ?_⟩
    · cases w.recent <;> simp
    · intro b recent c older x inB inC
      obtain ⟨low, -, high⟩ := running.recent_contains (by simpa using recent) inB
      exact ((running.older c older).2.2 x inC).2 ⟨low, high⟩
  inside := by
    intro b mem x contained
    rcases World.mem_live.mp mem with recent | older
    · obtain ⟨low, -, high⟩ := running.recent_contains recent contained
      exact running.inside x low high
    · exact ((running.older b older).2.2 x contained).1

theorem Running.ready (running : Running m w) (aligned : 16 ∣ w.heap.allocPtr)
    : Ready m w.obtained w.heap where
  pos := running.ptr_pos
  aligned := aligned
  ptr_le := running.ptr_le
  page := running.page
  end_lt := running.end_lt
  inside := fun x low high => running.inside x (running.base_le.trans low) high

section

variable {obtained : List Block} {n p : Nat} {h : Heap}

theorem Running.served_zero (running : Running m w)
    (served : Served m w.obtained w.heap n p obtained h) {x : Nat} (low : p ≤ x)
    (high : x < h.allocEnd)
    : h.memory x = 0 := by
  by_cases old : Covered w.obtained x
  · obtain ⟨least, below⟩ := (served.area x low high).resolve_right (not_not_intro old)
    rw [served.kept x old]
    exact running.zero x (running.top_le.trans least) below
  · exact served.zero x (served.inside x low high) old

/-- A served block is the most recent one, and the others are older. -/
theorem Running.served (running : Running m w)
    (served : Served m w.obtained w.heap n p obtained h)
    : Running m { heap := h, obtained, older := w.live, recent := some ⟨p, n⟩ } where
  ptr_pos := by rw [served.ptr]; exact Nat.lt_of_lt_of_le served.pos (Nat.le_add_right p n)
  ptr_le := by rw [served.ptr]; exact served.ptr_le
  page := served.page
  end_lt := served.end_lt
  last := by rw [served.last]; exact served.aligned
  recent := by
    rintro b ⟨⟩
    refine ⟨served.last.symm, served.pos, served.lt_end, served.ptr.ge, ?_⟩
    intro zero
    exact served.ptr.trans (congrArg (p + ·) zero)
  freed := nofun
  zero := fun x low high => running.served_zero served ((Nat.le_add_right p n).trans low) high
  inside := served.inside
  older := by
    intro b mem
    have sound := running.sound
    refine ⟨sound.aligned b mem, ?_, ?_⟩
    · rcases World.mem_live.mp mem with recent | older
      · exact (running.recent b recent).2.1
      · exact (running.older b older).2.1
    intro x contained
    have covered : Covered w.obtained x := sound.inside b mem x contained
    refine ⟨served.more x covered, ?_⟩
    rintro ⟨low, high⟩
    obtain ⟨least, below⟩ := (served.area x low high).resolve_right (not_not_intro covered)
    rcases World.mem_live.mp mem with recent | older
    · have := (running.recent_contains recent contained).2.1
      omega
    · exact ((running.older b older).2.2 x contained).2 ⟨running.base_le.trans least, below⟩
  apart := running.sound.disjoint

end

def Invariant (m : Machine) (w : World) : Prop := Unstarted m w ∨ Running m w

theorem Invariant.sound (invariant : Invariant m w) : w.Sound := by
  rcases invariant with unstarted | running
  · have none : w.live = [] := by simp [World.live, unstarted.recent, unstarted.older]
    constructor <;> simp [none]
  · exact running.sound

theorem Invariant.aligned (invariant : Invariant m w)
    : Running m (w.aligned m) ∧ 16 ∣ (w.aligned m).heap.allocPtr := by
  rcases invariant with unstarted | running
  · exact unstarted.aligned
  · exact running.aligned

/-- A call of `malloc` keeps the invariant. It fails only when nothing is available, and its block is
zero.
-/
theorem Invariant.malloc (invariant : Invariant m w) {n : Nat} {mmap : Nat → Option Nat}
    (bound : n < 2 ^ 64) (answers : Answers m w.obtained mmap)
    : let result := w.heap.malloc m n mmap
      Invariant m (w.allocated m w.heap n mmap result)
      ∧ (result.1 = none ↔ w.heap.Unavailable m n mmap)
      ∧ result.1 ≠ some 0
      ∧ ∀ p ∈ result.1, ∀ x, p ≤ x → x < p + n → result.2.memory x = 0 := by
  obtain ⟨running, multiple⟩ := invariant.aligned
  have ready : Ready m w.obtained (w.heap.aligned m) := running.ready multiple
  rcases Heap.malloc_cases ready answers bound with
    ⟨unavailable, failed, region⟩ | ⟨available, p, h, succeeded, served⟩
  · simp only [failed]
    refine ⟨.inr ?_, by simp [unavailable], nofun, nofun⟩
    simp only [World.allocated, region]
    exact running
  · simp only [succeeded]
    refine ⟨.inr (running.served served), by simp [available], ?_, ?_⟩
    · rintro ⟨⟩
      exact Nat.lt_irrefl 0 served.pos
    · rintro _ ⟨⟩ x low high
      exact running.served_zero served low (Nat.lt_of_lt_of_le high served.ptr_le)

end Nglibc.MinimalMalloc
