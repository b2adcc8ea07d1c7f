import Nglibc.Elf.MinimalMallocRuns

/-! Every legal and safe event of the minimal allocator succeeds or answers `NULL` as it should, and
the next world is sound again.
-/

namespace Nglibc.MinimalMalloc

variable {m : Machine} {w : World}

/-- The test for overflow of a product is exact. -/
theorem overflow_iff {nmemb size : Nat} (bound : size < 2 ^ 64)
    : (nmemb ||| size ≥ 2 ^ 32 ∧ size ≠ 0 ∧ nmemb * size % 2 ^ 64 / size ≠ nmemb)
      ↔ 2 ^ 64 ≤ nmemb * size := by
  constructor
  · rintro ⟨-, positive, differs⟩
    by_contra fits
    rw [Nat.mod_eq_of_lt (Nat.lt_of_not_le fits)] at differs
    exact differs (Nat.mul_div_cancel nmemb (Nat.pos_of_ne_zero positive))
  · intro large
    refine ⟨?_, ?_, ?_⟩
    · by_contra small
      have nmembSmall : nmemb < 2 ^ 32 := Nat.lt_of_le_of_lt Nat.left_le_or (Nat.lt_of_not_le small)
      have sizeSmall : size < 2 ^ 32 := Nat.lt_of_le_of_lt Nat.right_le_or (Nat.lt_of_not_le small)
      have product : nmemb * size < 2 ^ 32 * 2 ^ 32 := Nat.mul_lt_mul'' nmembSmall sizeSmall
      exact absurd large (Nat.not_le_of_lt product)
    · rintro rfl
      rw [Nat.mul_zero] at large
      exact absurd large (by decide)
    · intro equal
      have product := Nat.div_mul_le_self (nmemb * size % 2 ^ 64) size
      rw [equal] at product
      omega

/-- A call of `calloc` keeps the invariant, and its block is zero. -/
theorem Invariant.calloc (invariant : Invariant m w) {nmemb size : Nat} {mmap : Nat → Option Nat}
    (sizeBound : size < 2 ^ 64) (answers : Answers m w.obtained mmap)
    : ∃ result w', w.step m (.calloc nmemb size mmap) = some (result, w') ∧ Invariant m w'
      ∧ (Event.calloc nmemb size mmap).Correct m w result w' := by
  by_cases large : 2 ^ 64 ≤ nmemb * size
  · have failed : w.heap.calloc m nmemb size mmap = (none, w.heap) :=
      if_pos ((overflow_iff sizeBound).mpr large)
    refine ⟨none, w, ?_, invariant, ?_⟩
    · simp only [World.step, failed]
    · exact ⟨⟨fun _ => .inl large, fun _ => rfl⟩, by simp, by simp⟩
  have bound : nmemb * size < 2 ^ 64 := Nat.lt_of_not_le large
  have called : w.heap.calloc m nmemb size mmap = w.heap.malloc m (nmemb * size) mmap := by
    refine (if_neg fun overflow => large ((overflow_iff sizeBound).mp overflow)).trans ?_
    rw [Nat.mod_eq_of_lt bound]
  obtain ⟨next, failed, nonNull, zero⟩ := invariant.malloc bound answers
  cases answer : w.heap.malloc m (nmemb * size) mmap with
  | mk result h =>
    rw [answer] at next failed nonNull zero
    cases result with
    | none =>
      have unavailable := failed.mp rfl
      refine ⟨none, { w with heap := h }, ?_, ?_, by simp [unavailable], by simp, by simp⟩
      · simp only [World.step, called, answer]
      · have region : w.heap.region m (nmemb * size) mmap = none := by
          obtain ⟨full, overflow | refused⟩ := unavailable
          · exact if_neg fun both => both.2 overflow
          · rw [Heap.region]
            split <;> simp only [refused, Option.map_none]
        simpa only [World.allocated, region, Option.toList_none, List.nil_append] using next
    | some p =>
      refine ⟨some p, _, ?_, next, ?_, nonNull, zero⟩
      · simp only [World.step, called, answer]
      · have available := failed.not.mp (Option.some_ne_none p)
        exact ⟨(by cases ·), fun either => (either.elim large available).elim⟩

theorem Running.erase (running : Running m w) (b : Block)
    : Running m { w with older := w.older.erase b } :=
  { running with
    older := fun c mem => running.older c (List.mem_of_mem_erase mem)
    apart := running.apart.sublist List.erase_sublist }

/-- Clearing the most recent block, which then is gone or empty. -/
theorem Running.clear (running : Running m w) {r : Block} (mem : r ∈ w.recent)
    (recent : Option Block) (gone : ∀ b ∈ recent, b.addr = r.addr ∧ b.size = 0)
    : Running m { w with heap := w.heap.free r.addr, recent } := by
  obtain ⟨addr, pos, lt, le, -⟩ := running.recent r mem
  have freed : w.heap.free r.addr = { w.heap with
      memory := setBytes w.heap.memory w.heap.lastBlock (w.heap.allocPtr - w.heap.lastBlock)
        fun _ => 0
      allocPtr := w.heap.lastBlock } := if_pos addr
  rw [freed]
  have base : World.base { w with heap := { w.heap with
      memory := setBytes w.heap.memory w.heap.lastBlock (w.heap.allocPtr - w.heap.lastBlock)
        fun _ => 0
      allocPtr := w.heap.lastBlock }, recent } = w.base := by
    have old : w.base = r.addr := by simp only [World.base, show w.recent = some r from mem]
    rw [old]
    cases recent with
    | none => exact addr.symm
    | some b => exact (gone b rfl).1
  have top : World.top { w with heap := { w.heap with
      memory := setBytes w.heap.memory w.heap.lastBlock (w.heap.allocPtr - w.heap.lastBlock)
        fun _ => 0
      allocPtr := w.heap.lastBlock }, recent } = r.addr := by
    cases recent with
    | none => exact addr.symm
    | some b =>
      obtain ⟨same, empty⟩ := gone b rfl
      simp only [World.top, same, empty, Nat.add_zero]
  exact {
    ptr_pos := addr ▸ pos
    ptr_le := addr ▸ lt.le
    page := running.page
    end_lt := running.end_lt
    last := running.last
    recent := by
      intro b memB
      obtain ⟨same, empty⟩ := gone b memB
      exact ⟨same.trans addr, same ▸ pos, same ▸ lt, by simp [same, empty, addr],
        fun _ => addr.symm.trans same.symm⟩
    freed := fun _ => .inr rfl
    zero := by
      intro x low high
      change setBytes w.heap.memory w.heap.lastBlock (w.heap.allocPtr - w.heap.lastBlock)
        (fun _ => 0) x = 0
      by_cases cleared : x < w.heap.allocPtr
      · exact if_pos ⟨by omega, by omega⟩
      · have untouched : setBytes w.heap.memory w.heap.lastBlock
            (w.heap.allocPtr - w.heap.lastBlock) (fun _ => 0) x = w.heap.memory x :=
          if_neg (by omega)
        rw [untouched]
        exact running.zero x (running.top_le.trans (Nat.le_of_not_lt cleared)) high
    inside := by
      rw [base]
      exact running.inside
    older := by
      rw [base]
      exact running.older
    apart := running.apart
  }

theorem Running.older_empty (running : Running m w) {b r : Block} (older : b ∈ w.older)
    (mem : r ∈ w.recent) (same : b.addr = r.addr)
    : b.size = 0 := by
  by_contra nonempty
  obtain ⟨-, -, lt, -⟩ := running.recent r mem
  have base : w.base = r.addr := by simp only [World.base, show w.recent = some r from mem]
  apply ((running.older b older).2.2 b.addr ⟨le_rfl, by omega⟩).2
  exact ⟨by rw [base, same], by omega⟩

theorem setBytes_none (memory : Nat → UInt8) (a : Nat) (bytes : Nat → UInt8)
    : setBytes memory a 0 bytes = memory := by
  funext x
  exact if_neg (by omega)

theorem Heap.free_empty {h : Heap} (empty : h.lastBlock = h.allocPtr) (ptr : Nat)
    : h.free ptr = h := by
  cases h with
  | mk allocPtr allocEnd lastBlock memory =>
    obtain rfl : lastBlock = allocPtr := empty
    simp [Heap.free, setBytes_none]

/-- Freeing a block keeps the invariant. -/
theorem Running.free (running : Running m w) {b : Block} (live : b ∈ w.live)
    (safe : (Event.free b).Safe m w)
    : Running m { w with
        heap := w.heap.free b.addr
        older := w.older.erase b
        recent := if w.recent = some b ∧ b ∉ w.older then none else w.recent } := by
  by_cases last : b.addr = w.heap.lastBlock
  · cases recent : w.recent with
    | none =>
      have older : b ∈ w.older := by simpa [World.mem_live, recent] using live
      have notNull : w.heap.lastBlock ≠ 0 := by
        have := (running.older b older).2.1
        omega
      have ptr := (running.freed recent).resolve_left notNull
      rw [Heap.free_empty ptr, if_neg (by simp)]
      exact recent ▸ running.erase b
    | some r =>
      obtain ⟨addr, -⟩ := running.recent r recent
      have same : b.addr = r.addr := last.trans addr.symm
      rw [same]
      by_cases final : some r = some b ∧ b ∉ w.older
      · rw [if_pos final]
        exact (running.clear recent none nofun).erase b
      · rw [if_neg final]
        have older : b ∈ w.older := by
          by_contra notOlder
          rcases World.mem_live.mp live with isRecent | isOlder
          · exact final ⟨recent.symm.trans isRecent, notOlder⟩
          · exact notOlder isOlder
        have empty : b.size = 0 := running.older_empty older recent same
        have recentEmpty : r.size = 0 := by
          by_cases isRecent : b ∈ w.recent
          · have equal : r = b := Option.some.inj (recent.symm.trans isRecent)
            exact equal ▸ empty
          · exact safe isRecent r recent same empty
        refine (running.clear recent (some r) ?_).erase b
        rintro c ⟨⟩
        exact ⟨rfl, recentEmpty⟩
  · have same : w.heap.free b.addr = w.heap := if_neg last
    have other : ¬ (w.recent = some b ∧ b ∉ w.older) := by
      rintro ⟨isRecent, -⟩
      exact last (running.recent b isRecent).1
    rw [same, if_neg other]
    exact running.erase b

theorem World.freeNull (safe : Event.freeNull.Safe m w) : w.heap.free 0 = w.heap := by
  by_cases last : w.heap.lastBlock = 0
  · exact Heap.free_empty (last.trans (safe last).symm) 0
  · exact if_neg (Ne.symm last)

theorem Running.write (running : Running m w) {b : Block} (live : b ∈ w.live)
    (bytes : Nat → UInt8)
    : Running m { w with
        heap := { w.heap with memory := setBytes w.heap.memory b.addr b.size bytes } } :=
  { running with
    zero := by
      intro x low high
      have low : w.top ≤ x := low
      have untouched : setBytes w.heap.memory b.addr b.size bytes x = w.heap.memory x := by
        apply if_neg
        intro contained
        rcases World.mem_live.mp live with recent | older
        · have top : w.top = b.addr + b.size := by
            simp only [World.top, show w.recent = some b from recent]
          omega
        · refine ((running.older b older).2.2 x contained).2 ⟨?_, high⟩
          have : w.base ≤ w.top := by
            cases recent : w.recent <;> simp [World.base, World.top, recent]
          omega
      exact untouched.trans (running.zero x low high) }

def Heap.copied (h : Heap) (new ptr oldSize : Nat) : Heap :=
  if new ≠ ptr then
    { h with memory := setBytes h.memory new oldSize fun x => h.memory (ptr + (x - new)) }
  else h

section

variable {b : Block} {n : Nat} {mmap : Nat → Option Nat}

section

variable (running : Running m w)
include running

/-- Without the most recent block the free area is ready from its address on. -/
theorem Running.reset (mem : b ∈ w.recent)
    : w.heap.reset.aligned m = w.heap.reset ∧ Ready m w.obtained w.heap.reset := by
  obtain ⟨addr, pos, lt, -⟩ := running.recent b mem
  have endPos : w.heap.allocEnd ≠ 0 := by omega
  have started : w.heap.reset.start m = w.heap.reset := if_neg endPos
  have ptr : alignUp w.heap.lastBlock 4 = w.heap.lastBlock :=
    alignUp_self (by decide) running.last (by have := running.end_lt; omega)
  constructor
  · rw [Heap.aligned, started]
    simp only [Heap.reset, ptr]
  · exact {
      pos := Nat.lt_of_lt_of_eq pos addr
      aligned := running.last
      ptr_le := addr.symm.trans_le lt.le
      page := running.page
      end_lt := running.end_lt
      inside := by
        intro x low high
        have base : w.base = w.heap.lastBlock := by
          simp only [World.base, show w.recent = some b from mem, addr]
        exact running.inside x (base ▸ low) high
    }

theorem Running.realloc_eq (mem : b ∈ w.recent)
    : w.heap.realloc m b.addr n mmap =
      match w.heap.reset.malloc m n mmap with
      | (none, h) => if w.heap.allocPtr - b.addr = 0 then some (none, h) else none
      | (some new, h) => some (some new, h.copied new b.addr (w.heap.allocPtr - b.addr)) := by
  obtain ⟨addr, pos, -⟩ := running.recent b mem
  have notNull : b.addr ≠ 0 := Nat.ne_of_gt pos
  have last : ¬ b.addr ≠ w.heap.lastBlock := not_not_intro addr
  rw [Heap.realloc, if_neg notNull, if_neg last]
  rw [← addr]
  rcases w.heap.reset.malloc m n mmap with ⟨_ | new, h⟩
  · rfl
  · simp only [Heap.copied]
    split <;> rfl

/-- The contents behind a reallocation: the kept bytes of the old block, and zeros behind the new
block.
-/
theorem Running.copied (mem : b ∈ w.recent) {p : Nat} {obtained : List Block} {h : Heap}
    (served : Served m w.obtained w.heap.reset n p obtained h)
    (released : ∀ x, b.addr + n ≤ x → x < b.addr + b.size → w.heap.memory x = 0)
    : (∀ i < min b.size n,
        (h.copied p b.addr (w.heap.allocPtr - b.addr)).memory (p + i) = w.heap.memory (b.addr + i))
      ∧ ∀ x, p + n ≤ x → x < h.allocEnd →
        (h.copied p b.addr (w.heap.allocPtr - b.addr)).memory x = 0 := by
  obtain ⟨addr, pos, lt, le, -⟩ := running.recent b mem
  have ptr_le := running.ptr_le
  have base : w.base = b.addr := by simp only [World.base, show w.recent = some b from mem]
  have top : w.top = b.addr + b.size := by simp only [World.top, show w.recent = some b from mem]
  have covered : ∀ x, b.addr ≤ x → x < w.heap.allocEnd → Covered w.obtained x :=
    fun x low high => running.inside x (base ▸ low) high
  have kept : ∀ x, Covered w.obtained x → h.memory x = w.heap.memory x := served.kept
  rcases served.origin with stays | ⟨full, fresh⟩
  · -- The block stays where it is, and a shorter one gives back zeros.
    have same : p = b.addr := stays.trans addr.symm
    have unmoved : h.copied p b.addr (w.heap.allocPtr - b.addr) = h := if_neg (not_not_intro same)
    rw [unmoved]
    constructor
    · intro i less
      rw [same]
      exact kept _ (covered _ (Nat.le_add_right _ _) (by omega))
    · intro x low high
      by_cases old : Covered w.obtained x
      · obtain ⟨-, below⟩ := (served.area x (by omega) high).resolve_right (not_not_intro old)
        rw [kept x old]
        by_cases inBlock : x < b.addr + b.size
        · exact released x (same ▸ low) inBlock
        · exact running.zero x (by omega) below
      · exact served.zero x (served.inside x (by omega) high) old
  · -- The block moves, and then it grows.
    have full : w.heap.allocEnd ≤ w.heap.lastBlock + n := full
    have moved : p ≠ b.addr := by
      rintro rfl
      exact fresh b.addr le_rfl served.lt_end (covered _ le_rfl lt)
    have memory : (h.copied p b.addr (w.heap.allocPtr - b.addr)).memory
        = setBytes h.memory p (w.heap.allocPtr - b.addr) fun x => h.memory (b.addr + (x - p)) := by
      rw [Heap.copied, if_pos moved]
    rw [memory]
    constructor
    · intro i less
      have inside : p ≤ p + i ∧ p + i < p + (w.heap.allocPtr - b.addr) := by omega
      refine (if_pos inside).trans ?_
      simp only [Nat.add_sub_cancel_left]
      exact kept _ (covered _ (Nat.le_add_right _ _) (by omega))
    · intro x low high
      have outside : ¬ (p ≤ x ∧ x < p + (w.heap.allocPtr - b.addr)) := by omega
      refine (if_neg outside).trans ?_
      exact served.zero x (served.inside x (by omega) high) (fresh x (by omega) high)

/-- A reallocation keeps the invariant and the contents. -/
theorem Running.realloc (mem : b ∈ w.recent) (bound : n < 2 ^ 64) (answers : Answers m w.obtained mmap)
    (safe : (Event.realloc n mmap).Safe m w)
    : ∃ result w', w.step m (.realloc n mmap) = some (result, w') ∧ Running m w'
      ∧ (Event.realloc n mmap).Correct m w result w' := by
  obtain ⟨released, available⟩ := safe b mem
  obtain ⟨addr, pos, lt, le, empty⟩ := running.recent b mem
  obtain ⟨aligned, ready⟩ := running.reset mem
  have recent : w.recent = some b := mem
  have only : ∀ c ∈ w.recent, c = b := fun c other => Option.some.inj (other.symm.trans recent)
  rcases Heap.malloc_cases (aligned.symm ▸ ready) answers bound with
    ⟨unavailable, failed, region⟩ | ⟨isAvailable, p, h, succeeded, served⟩
  · have size : b.size = 0 := by
      by_contra positive
      exact available (Nat.pos_of_ne_zero positive) unavailable
    have unchanged : w.heap.reset = w.heap := by
      have ptr : w.heap.lastBlock = w.heap.allocPtr := addr.symm.trans (empty size).symm
      exact congrArg (fun start => ({ w.heap with allocPtr := start } : Heap)) ptr
    have result : w.heap.realloc m b.addr n mmap = some (none, w.heap) := by
      rw [running.realloc_eq mem, failed, aligned, unchanged]
      exact if_pos (by rw [empty size, Nat.sub_self])
    refine ⟨none, w, ?_, running, ?_⟩
    · simp only [World.step, recent, result, region, Option.map_some, Option.toList_none,
        List.nil_append]
      rw [← recent]
    · intro c other
      exact ⟨⟨fun _ => unavailable, fun _ => rfl⟩, by simp, by simp⟩
  · rw [aligned] at served
    have result : w.heap.realloc m b.addr n mmap
        = some (some p, h.copied p b.addr (w.heap.allocPtr - b.addr)) := by
      rw [running.realloc_eq mem, succeeded]
    obtain ⟨contents, zeros⟩ := running.copied mem served released
    have fields : (h.copied p b.addr (w.heap.allocPtr - b.addr)).allocPtr = h.allocPtr
        ∧ (h.copied p b.addr (w.heap.allocPtr - b.addr)).allocEnd = h.allocEnd
        ∧ (h.copied p b.addr (w.heap.allocPtr - b.addr)).lastBlock = h.lastBlock := by
      rw [Heap.copied]
      split <;> exact ⟨rfl, rfl, rfl⟩
    obtain ⟨ptr, ends, last⟩ := fields
    have stepped : w.step m (.realloc n mmap) = some (some p, { w with
        heap := h.copied p b.addr (w.heap.allocPtr - b.addr)
        obtained := (w.heap.reset.region m n mmap).toList ++ w.obtained
        recent := some ⟨p, n⟩ }) := by
      simp only [World.step, recent, result, Option.map_some]
    refine ⟨some p, _, stepped, ?_, ?_⟩
    · exact {
        ptr_pos := by
          rw [ptr, served.ptr]
          exact Nat.lt_of_lt_of_le served.pos (Nat.le_add_right p n)
        ptr_le := by rw [ptr, ends, served.ptr]; exact served.ptr_le
        page := ends ▸ served.page
        end_lt := ends ▸ served.end_lt
        last := by rw [last, served.last]; exact served.aligned
        recent := by
          rintro c ⟨⟩
          rw [ptr, ends, last]
          refine ⟨served.last.symm, served.pos, served.lt_end, served.ptr.ge, ?_⟩
          intro zero
          exact served.ptr.trans (congrArg (p + ·) zero)
        freed := by simp
        zero := by
          intro x low high
          rw [ends] at high
          exact zeros x low high
        inside := by
          intro x low high
          rw [ends] at high
          exact served.inside x low high
        older := by
          intro c old
          obtain ⟨multiple, cPos, inside⟩ := running.older c old
          refine ⟨multiple, cPos, fun x contained => ?_⟩
          obtain ⟨covered, outside⟩ := inside x contained
          refine ⟨served.more x covered, ?_⟩
          rintro ⟨low, high⟩
          rw [ends] at high
          have base : w.base = w.heap.lastBlock := by simp only [World.base, recent, addr]
          apply outside
          rw [base]
          exact (served.area x low high).resolve_right (not_not_intro covered)
        apart := running.apart
      }
    · intro c other
      obtain rfl := only c other
      refine ⟨⟨(by cases ·), fun unavailable => (isAvailable unavailable).elim⟩, ?_, ?_⟩
      · rintro ⟨⟩
        exact Nat.lt_irrefl 0 served.pos
      · rintro _ ⟨⟩
        exact contents

end

end

/-- A legal and safe event keeps the invariant, and its result is correct. -/
theorem Invariant.step (invariant : Invariant m w) {e : Event} (legal : e.Legal m w)
    (safe : e.Safe m w)
    : ∃ result w', w.step m e = some (result, w') ∧ Invariant m w' ∧ e.Correct m w result w' := by
  have started : ∀ b ∈ w.live, Running m w := by
    intro b live
    refine invariant.resolve_left fun unstarted => ?_
    rw [World.live, unstarted.recent, unstarted.older] at live
    cases live
  cases e with
  | malloc n mmap =>
    obtain ⟨next, failed, nonNull, -⟩ := invariant.malloc legal.1 legal.2
    exact ⟨_, _, rfl, next, failed, nonNull⟩
  | calloc nmemb size mmap => exact invariant.calloc legal.1.2 legal.2
  | free b => exact ⟨_, _, rfl, .inr ((started b legal).free legal safe), trivial⟩
  | freeNull =>
    refine ⟨none, w, ?_, invariant, trivial⟩
    simp only [World.step, World.freeNull safe]
  | reallocNull n mmap =>
    obtain ⟨next, failed, nonNull, -⟩ := invariant.malloc legal.1 legal.2
    exact ⟨_, _, rfl, next, failed, nonNull⟩
  | realloc n mmap =>
    obtain ⟨b, recent⟩ := Option.ne_none_iff_exists'.mp legal.1
    have running := started b (World.mem_live.mpr (.inl recent))
    obtain ⟨result, w', stepped, next, correct⟩ := running.realloc recent legal.2.1 legal.2.2 safe
    exact ⟨result, w', stepped, .inr next, correct⟩
  | write b bytes => exact ⟨_, _, rfl, .inr ((started b legal).write legal bytes), trivial⟩

/-- Every world that is reached keeps the invariant, by induction on the run. -/
theorem Reachable.invariant
    (reachable : Reachable m (fun w e => e.Legal m w ∧ e.Safe m w) w)
    : Invariant m w := by
  induction reachable with
  | start memory zero => exact .inl ⟨rfl, rfl, rfl, rfl, rfl, rfl, zero⟩
  | step _ allowed stepped ih =>
    obtain ⟨_, _, equal, next, -⟩ := ih.step allowed.1 allowed.2
    obtain ⟨-, rfl⟩ := Prod.mk.inj (Option.some.inj (equal.symm.trans stepped))
    exact next

/-- In every run of legal and safe events the live blocks are sound, and every further such event
is correct.
-/
theorem reachable_sound (m : Machine) (w : World)
    (reachable : Reachable m (fun w e => e.Legal m w ∧ e.Safe m w) w)
    : w.Sound ∧ ∀ e : Event, e.Legal m w → e.Safe m w →
      ∃ result w', w.step m e = some (result, w') ∧ e.Correct m w result w' := by
  refine ⟨reachable.invariant.sound, fun e legal safe => ?_⟩
  obtain ⟨result, w', stepped, -, correct⟩ := reachable.invariant.step legal safe
  exact ⟨result, w', stepped, correct⟩

/-- Pages of 4096 bytes behind a data segment that ends 16 bytes into its last page. -/
def smallMachine : Machine := ⟨12, 65552, by decide, by decide, by decide⟩

theorem noRegion (m : Machine) (obtained : List Block) : Answers m obtained fun _ => none :=
  fun _ _ refused => nomatch refused

/-- A block of 32 zeros shrinks to 16 bytes before `calloc` is called. -/
theorem reachable_sound_calloc
    : ∃ w : World, Reachable smallMachine (fun w e => e.Legal smallMachine w ∧ e.Safe smallMachine w) w
      ∧ w.recent = some ⟨65552, 16⟩
      ∧ ∃ result w', w.step smallMachine (.calloc 3 8 fun _ => none) = some (result, w')
        ∧ (Event.calloc 3 8 fun _ => none).Correct smallMachine w result w' := by
  have started : Reachable smallMachine (fun w e => e.Legal smallMachine w ∧ e.Safe smallMachine w)
      (World.start smallMachine fun _ => 0) := .start _ fun _ _ _ => rfl
  have allocated := started.step (e := .malloc 32 fun _ => none)
    ⟨⟨by decide, noRegion _ _⟩, trivial⟩ rfl
  have shrunk := allocated.step (e := .realloc 16 fun _ => none)
    ⟨⟨nofun, by decide, noRegion _ _⟩, fun _ _ =>
      ⟨fun _ _ _ => rfl, fun _ full => absurd full.1 (by decide)⟩⟩ rfl
  exact ⟨_, shrunk, rfl, (reachable_sound smallMachine _ shrunk).2 (.calloc 3 8 fun _ => none)
    ⟨by decide, noRegion _ _⟩ trivial⟩

/-- A block of 32 ones that shrinks to 16 bytes gives back 16 ones to `calloc`. -/
theorem shrunk_calloc_dirty
    : ∃ w : World, Reachable smallMachine (fun w e => e.Legal smallMachine w) w
      ∧ (Event.calloc 1 16 fun _ => none).Legal smallMachine w
      ∧ ∀ result w', w.step smallMachine (.calloc 1 16 fun _ => none) = some (result, w') →
        ¬ (Event.calloc 1 16 fun _ => none).Correct smallMachine w result w' := by
  have started : Reachable smallMachine (fun w e => e.Legal smallMachine w)
      (World.start smallMachine fun _ => 0) := .start _ fun _ _ _ => rfl
  have allocated := started.step (e := .malloc 32 fun _ => none) ⟨by decide, noRegion _ _⟩ rfl
  have written := allocated.step (e := .write ⟨65552, 32⟩ fun _ => 1)
    (World.mem_live.mpr (.inl rfl)) rfl
  have shrunk := written.step (e := .realloc 16 fun _ => none) ⟨nofun, by decide, noRegion _ _⟩ rfl
  refine ⟨_, shrunk, ⟨by decide, noRegion _ _⟩, ?_⟩
  rintro result w' stepped ⟨-, -, zero⟩
  obtain ⟨rfl, rfl⟩ := Prod.mk.inj (Option.some.inj stepped)
  exact absurd (zero 65568 rfl 65568 le_rfl (by decide)) (by decide)

end Nglibc.MinimalMalloc
