import Mathlib.Data.Nat.Bitwise
import Mathlib.Tactic
import Nglibc.Lib.Memory

/-! Allocation buffers of `include/alloc_buffer.h`, `malloc/alloc_buffer_alloc_array.c`,
`malloc/alloc_buffer_copy_bytes.c` and `malloc/alloc_buffer_copy_string.c`, with 64-bit
`uintptr_t` and `size_t`. `NULL` is the address 0.
-/

namespace Nglibc.Malloc

structure AllocBuffer where
  current : UInt64
  bufferEnd : UInt64
deriving DecidableEq

/-- A type of the program: what `__alloc_buffer_assert_size` and
`__alloc_buffer_assert_align` check of it at compile time.
-/
structure ObjectType where
  size : UInt64
  align : UInt64
  size_ne_zero : size ≠ 0
  align_ne_zero : align ≠ 0
  powerof2_align : (align - 1) &&& align = 0

/-- An array of bytes that a copying operation reads; its length is a `size_t`. -/
structure SourceBytes where
  bytes : List UInt8
  size_lt : bytes.length < 2 ^ 64

/-- A null-terminated string in memory, without its null byte. -/
structure SourceString where
  bytes : List UInt8
  size_lt : bytes.length + 1 < 2 ^ 64
  zero_not_mem : 0 ∉ bytes

def SourceString.terminated (src : SourceString) : SourceBytes where
  bytes := src.bytes ++ [0]
  size_lt := by simpa using src.size_lt

namespace AllocBuffer

variable {buf after : AllocBuffer}

/-- `alloc_buffer_create`; `none` is the end of the process in
`__libc_alloc_buffer_create_failure`.
-/
def create (start size : UInt64) : Option AllocBuffer :=
  let stop := start + size
  if stop < start then none else some { current := start, bufferEnd := stop }

/-- `alloc_buffer_mark_failed`. -/
def markFailed : AllocBuffer := { current := 0, bufferEnd := 0 }

/-- `alloc_buffer_size`. -/
def size (buf : AllocBuffer) : UInt64 := buf.bufferEnd - buf.current

/-- `alloc_buffer_has_failed`. -/
def hasFailed (buf : AllocBuffer) : Bool := buf.current = 0

/-- `alloc_buffer_alloc_bytes`. -/
def allocBytes (buf : AllocBuffer) (length : UInt64) : UInt64 × AllocBuffer :=
  if length ≤ buf.size then (buf.current, { buf with current := buf.current + length })
  else (0, markFailed)

/-- `roundup`; `known` tells whether the compiler sees a constant in `align`. -/
def roundup (known : Bool) (x align : UInt64) : UInt64 :=
  if known && (align - 1) &&& align = 0 then (x + (align - 1)) &&& ~~~(align - 1)
  else (x + (align - 1)) / align * align

def alignUp (x align : UInt64) : UInt64 := (x + align - 1) &&& -align

/-- `__alloc_buffer_alloc`. -/
def alloc (buf : AllocBuffer) (known : Bool) (size align : UInt64) : UInt64 × AllocBuffer :=
  if size = 1 ∧ align = 1 then buf.allocBytes size
  else
    let aligned := roundup known buf.current align
    let newCurrent := aligned + size
    if aligned ≥ buf.current ∧ newCurrent ≥ size ∧ newCurrent ≤ buf.bufferEnd then
      (aligned, { buf with current := newCurrent })
    else (0, markFailed)

/-- `__libc_alloc_buffer_alloc_array`. -/
def allocArray (buf : AllocBuffer) (elementSize align count : UInt64) : UInt64 × AllocBuffer :=
  let aligned := alignUp buf.current align
  let size := elementSize * count
  -- the result of `__builtin_mul_overflow`
  let overflow := 2 ^ 64 ≤ elementSize.toNat * count.toNat
  let newCurrent := aligned + size
  if ¬overflow ∧ aligned ≥ buf.current ∧ newCurrent ≥ size ∧ newCurrent ≤ buf.bufferEnd then
    (aligned, { buf with current := newCurrent })
  else (0, markFailed)

end AllocBuffer

open AllocBuffer

structure BufferState where
  buf : AllocBuffer
  memory : Memory UInt8

namespace BufferState

/-- `alloc_buffer_add_byte`. -/
def addByte (s : BufferState) (b : UInt8) : BufferState :=
  if s.buf.current < s.buf.bufferEnd then
    {
      buf := { s.buf with current := s.buf.current + 1 },
      memory := s.memory.store s.buf.current.toNat [b]
    }
  else { s with buf := markFailed }

/-- `__libc_alloc_buffer_copy_bytes`. -/
def copyBytes (s : BufferState) (src : SourceBytes) : BufferState :=
  let (ptr, buf) := s.buf.allocBytes (UInt64.ofNat src.bytes.length)
  if ptr ≠ 0 then { buf, memory := s.memory.store ptr.toNat src.bytes }
  else { s with buf }

/-- `alloc_buffer_copy_string`. -/
def copyString (s : BufferState) (src : SourceString) : UInt64 × BufferState :=
  let result := s.buf.current
  let after := s.copyBytes src.terminated
  if after.buf.hasFailed then (0, after) else (result, after)

end BufferState

inductive BufferOp where
  | allocBytes (length : UInt64)
  | alloc (known : Bool) (type : ObjectType)
  | allocArray (type : ObjectType) (count : UInt64)
  | copyBytes (src : SourceBytes)
  | copyString (src : SourceString)
  | addByte (b : UInt8)

namespace BufferOp

/-- The number of bytes that the operation asks for. -/
def length : BufferOp → Nat
  | .allocBytes length => length.toNat
  | .alloc _ type => type.size.toNat
  | .allocArray type count => type.size.toNat * count.toNat
  | .copyBytes src => src.bytes.length
  | .copyString src => src.bytes.length + 1
  | .addByte _ => 1

/-- The alignment that the result of the operation must have. -/
def align : BufferOp → Nat
  | .alloc _ type => type.align.toNat
  | .allocArray type _ => type.align.toNat
  | _ => 1

/-- One call: its result, `none` for the operations that return nothing, and the new state. -/
def step (s : BufferState) : BufferOp → Option UInt64 × BufferState
  | .allocBytes length =>
    let (result, buf) := s.buf.allocBytes length
    (some result, { s with buf })
  | .alloc known type =>
    let (result, buf) := s.buf.alloc known type.size type.align
    (some result, { s with buf })
  | .allocArray type count =>
    let (result, buf) := s.buf.allocArray type.size type.align count
    (some result, { s with buf })
  | .copyBytes src => (none, s.copyBytes src)
  | .copyString src =>
    let (result, after) := s.copyString src
    (some result, after)
  | .addByte b => (none, s.addByte b)

end BufferOp

structure BufferEvent where
  op : BufferOp
  result : Option UInt64
  failed : Bool

def bufferRun (s : BufferState) : List BufferOp → List BufferEvent
  | [] => []
  | op :: ops =>
    let (result, after) := op.step s
    { op, result, failed := after.buf.hasFailed } :: bufferRun after ops

theorem toNat_align_sub_one {align : UInt64} (ne_zero : align ≠ 0)
    : (align - 1).toNat = align.toNat - 1 := by
  have pos : align.toNat ≠ 0 := fun zero => ne_zero (UInt64.toNat_inj.mp zero)
  have one_le : (1 : UInt64) ≤ align := UInt64.le_iff_toNat_le.mpr (Nat.pos_of_ne_zero pos)
  rw [UInt64.toNat_sub_of_le align 1 one_le]
  rfl

/-- The bits that `powerof2` looks at, for the alignment of a type. -/
theorem ObjectType.align_eq_two_pow (type : ObjectType) : ∃ k < 64, type.align.toNat = 2 ^ k := by
  have ne_zero : type.align.toNat ≠ 0 := fun zero => type.align_ne_zero (UInt64.toNat_inj.mp zero)
  have bits : type.align.toNat &&& (type.align.toNat - 1) = 0 := by
    have same := congrArg UInt64.toNat type.powerof2_align
    rw [UInt64.toNat_and, toNat_align_sub_one type.align_ne_zero, Nat.and_comm] at same
    exact same
  obtain ⟨k, power⟩ := (Nat.and_sub_one_eq_zero_iff_isPowerOfTwo ne_zero).mp bits
  refine ⟨k, ?_, power⟩
  have bound := type.align.toNat_lt
  rw [power] at bound
  exact (Nat.pow_lt_pow_iff_right (by decide)).mp bound

/-- Clearing the low bits rounds down. -/
theorem and_mask_eq {x k : Nat} (bound : x < 2 ^ 64) (small : k < 64)
    : x &&& (2 ^ 64 - 2 ^ k) = x / 2 ^ k * 2 ^ k := by
  have mask : 2 ^ 64 - 2 ^ k = 2 ^ 64 - ((2 ^ k - 1) + 1) := by
    have := Nat.two_pow_pos k
    omega
  apply Nat.eq_of_testBit_eq
  intro i
  rw [mask, Nat.testBit_and, Nat.testBit_two_pow_sub_succ (by
      have := Nat.pow_lt_pow_right (a := 2) (by decide) small
      omega), Nat.testBit_mul_two_pow, Nat.testBit_div_two_pow]
  rcases Nat.lt_or_ge i k with low | high
  · simp [low, Nat.not_le.mpr low]
  · rw [Nat.sub_add_cancel high]
    rcases Nat.lt_or_ge i 64 with inside | outside
    · simp [high, inside, Nat.not_lt.mpr high]
    · have clear : x.testBit i = false := Nat.testBit_lt_two_pow
          (Nat.lt_of_lt_of_le bound (Nat.pow_le_pow_right (by decide) outside))
      simp [clear]

/-- What the callers use of rounding up: the wrapped sum is cut down to a multiple. -/
theorem align_dvd_roundup (type : ObjectType) (known : Bool) (x : UInt64)
    : type.align.toNat ∣ (roundup known x type.align).toNat := by
  unfold roundup
  split
  · obtain ⟨k, small, power⟩ := type.align_eq_two_pow
    have mask : (~~~(type.align - 1)).toNat = 2 ^ 64 - 2 ^ k := by
      rw [UInt64.toNat_not, toNat_align_sub_one type.align_ne_zero]
      have := Nat.two_pow_pos k
      have : UInt64.size = 2 ^ 64 := rfl
      omega
    rw [UInt64.toNat_and, mask, and_mask_eq (UInt64.toNat_lt _) small, power]
    exact Nat.dvd_mul_left _ _
  · have fits : (x + (type.align - 1)).toNat / type.align.toNat * type.align.toNat < 2 ^ 64 :=
      Nat.lt_of_le_of_lt (Nat.div_mul_le_self _ _) (UInt64.toNat_lt _)
    rw [UInt64.toNat_mul, UInt64.toNat_div, Nat.mod_eq_of_lt fits]
    exact Nat.dvd_mul_left _ _

theorem align_dvd_alignUp (type : ObjectType) (x : UInt64)
    : type.align.toNat ∣ (alignUp x type.align).toNat := by
  obtain ⟨k, small, power⟩ := type.align_eq_two_pow
  have mask : (-type.align).toNat = 2 ^ 64 - 2 ^ k := by
    have pos := Nat.two_pow_pos k
    have : UInt64.size = 2 ^ 64 := rfl
    rw [UInt64.toNat_neg, Nat.mod_eq_of_lt (by omega)]
    omega
  rw [alignUp, UInt64.toNat_and, mask, and_mask_eq (UInt64.toNat_lt _) small, power]
  exact Nat.dvd_mul_left _ _

/-- What an operation on a buffer does: it marks the buffer as failed and has no result, or it
takes its bytes at an aligned address between the old and the new position.
-/
inductive BufferTakes (op : BufferOp) (buf after : AllocBuffer) (result : Option UInt64) : Prop
    where
  | fails (failed : after = markFailed) (null : ∀ a, result = some a → a = 0)
  | places (a : UInt64) (low : buf.current ≤ a)
      (inside : a.toNat + op.length ≤ after.current.toNat)
      (high : after.current ≤ after.bufferEnd) (same : after.bufferEnd = buf.bufferEnd)
      (aligned : op.align ∣ a.toNat) (returned : ∀ r, result = some r → r = a)

variable {buf : AllocBuffer}

theorem allocBytes_cases (ordered : buf.current ≤ buf.bufferEnd) (length : UInt64)
    : (buf.allocBytes length = (0, markFailed))
      ∨ (buf.allocBytes length = (buf.current, { buf with current := buf.current + length })
        ∧ (buf.current + length).toNat = buf.current.toNat + length.toNat
        ∧ buf.current + length ≤ buf.bufferEnd) := by
  unfold allocBytes
  split
  case isFalse => exact .inl rfl
  case isTrue fits =>
    refine .inr ⟨rfl, ?_⟩
    rw [UInt64.le_iff_toNat_le] at fits ordered ⊢
    rw [AllocBuffer.size, UInt64.toNat_sub_of_le _ _ (UInt64.le_iff_toNat_le.mpr ordered)]
      at fits
    have bound := buf.bufferEnd.toNat_lt
    have sum : (buf.current + length).toNat = buf.current.toNat + length.toNat := by
      rw [UInt64.toNat_add]
      exact Nat.mod_eq_of_lt (by omega)
    exact ⟨sum, by omega⟩

/-- The combined test of the aligned allocations leaves no room for wrapping. -/
theorem toNat_add_of_ge {aligned size : UInt64} (ge : aligned + size ≥ size)
    : (aligned + size).toNat = aligned.toNat + size.toNat := by
  rw [ge_iff_le, UInt64.le_iff_toNat_le, UInt64.toNat_add] at ge
  rw [UInt64.toNat_add]
  have boundA := aligned.toNat_lt
  omega

theorem allocBytes_takes (op : BufferOp) (ordered : buf.current ≤ buf.bufferEnd) {length : UInt64}
    (asks : op.length = length.toNat) (bytes : op.align = 1)
    : BufferTakes op buf (buf.allocBytes length).2 (some (buf.allocBytes length).1) := by
  rcases allocBytes_cases ordered length with failed | ⟨taken, sum, high⟩
  · rw [failed]
    exact .fails rfl (fun a same => (Option.some.inj same).symm)
  · rw [taken]
    refine .places buf.current UInt64.le_rfl ?_ high rfl ?_
      (fun r same => (Option.some.inj same).symm)
    · rw [asks, sum]
    · rw [bytes]
      exact Nat.one_dvd _

private theorem alloc_takes (ordered : buf.current ≤ buf.bufferEnd) (known : Bool) (type : ObjectType)
    : BufferTakes (.alloc known type) buf (buf.alloc known type.size type.align).2
        (some (buf.alloc known type.size type.align).1) := by
  unfold alloc
  split
  case isTrue bytes =>
    apply allocBytes_takes (.alloc known type) ordered rfl
    simp [BufferOp.align, bytes.2]
  case isFalse =>
    dsimp only
    split
    case isTrue room =>
      obtain ⟨low, noWrap, high⟩ := room
      refine .places _ low ?_ high rfl (align_dvd_roundup type known _)
        (fun r same => (Option.some.inj same).symm)
      rw [BufferOp.length, toNat_add_of_ge noWrap]
    case isFalse => exact .fails rfl (fun a same => (Option.some.inj same).symm)

theorem allocArray_takes (type : ObjectType) (count : UInt64)
    : BufferTakes (.allocArray type count) buf (buf.allocArray type.size type.align count).2
        (some (buf.allocArray type.size type.align count).1) := by
  unfold allocArray
  dsimp only
  split
  case isTrue room =>
    obtain ⟨noOverflow, low, noWrap, high⟩ := room
    refine .places _ low ?_ high rfl (align_dvd_alignUp type _)
      (fun r same => (Option.some.inj same).symm)
    rw [BufferOp.length, toNat_add_of_ge noWrap, UInt64.toNat_mul,
      Nat.mod_eq_of_lt (Nat.not_le.mp noOverflow)]
  case isFalse => exact .fails rfl (fun a same => (Option.some.inj same).symm)

theorem copyBytes_buf (s : BufferState) (src : SourceBytes)
    : (s.copyBytes src).buf = (s.buf.allocBytes (UInt64.ofNat src.bytes.length)).2 := by
  unfold BufferState.copyBytes
  dsimp only
  split <;> rfl

theorem SourceBytes.toNat_length (src : SourceBytes)
    : (UInt64.ofNat src.bytes.length).toNat = src.bytes.length :=
  UInt64.toNat_ofNat_of_lt src.size_lt

/-- A string that fits is at the old position; a string always takes a byte, so that the new
position is not that of a failed buffer.
-/
theorem copyString_takes {s : BufferState} (ordered : s.buf.current ≤ s.buf.bufferEnd)
    (src : SourceString)
    : BufferTakes (.copyString src) s.buf (s.copyString src).2.buf (some (s.copyString src).1) := by
  have asks : (UInt64.ofNat src.terminated.bytes.length).toNat = src.bytes.length + 1 := by
    rw [src.terminated.toNat_length]
    simp [SourceString.terminated]
  unfold BufferState.copyString
  rcases allocBytes_cases ordered (UInt64.ofNat src.terminated.bytes.length) with
    failed | ⟨taken, sum, high⟩
  · have buf : (s.copyBytes src.terminated).buf = markFailed := by
      rw [copyBytes_buf, failed]
    have hasFailed : (s.copyBytes src.terminated).buf.hasFailed = true := by
      rw [buf]
      rfl
    rw [if_pos hasFailed]
    exact .fails buf (fun a same => (Option.some.inj same).symm)
  · have buf : (s.copyBytes src.terminated).buf = { s.buf with
            current := s.buf.current + UInt64.ofNat src.terminated.bytes.length } := by
      rw [copyBytes_buf, taken]
    have live : ¬(s.copyBytes src.terminated).buf.hasFailed = true := by
      rw [buf]
      intro zero
      have zero : s.buf.current + UInt64.ofNat src.terminated.bytes.length = 0 :=
        of_decide_eq_true zero
      rw [zero, UInt64.toNat_zero] at sum
      omega
    rw [if_neg live]
    refine .places s.buf.current UInt64.le_rfl ?_ ?_ ?_ (Nat.one_dvd _)
      (fun r same => (Option.some.inj same).symm)
    · rw [buf, BufferOp.length, sum, asks]
    · rw [buf]
      exact high
    · rw [buf]

private theorem addByte_takes (s : BufferState) (b : UInt8)
    : BufferTakes (.addByte b) s.buf (s.addByte b).buf none := by
  unfold BufferState.addByte
  split
  case isTrue room =>
    have bound := s.buf.bufferEnd.toNat_lt
    rw [UInt64.lt_iff_toNat_lt] at room
    have sum : (s.buf.current + 1).toNat = s.buf.current.toNat + 1 := by
      rw [UInt64.toNat_add, UInt64.toNat_one]
      exact Nat.mod_eq_of_lt (by omega)
    refine .places s.buf.current UInt64.le_rfl ?_ ?_ rfl (Nat.one_dvd _)
      (fun r same => nomatch same)
    · rw [BufferOp.length, sum]
    · rw [UInt64.le_iff_toNat_le, sum]
      exact room
  case isFalse => exact .fails rfl (fun a same => nomatch same)

theorem step_takes (op : BufferOp) {s : BufferState} (ordered : s.buf.current ≤ s.buf.bufferEnd)
    : BufferTakes op s.buf (op.step s).2.buf (op.step s).1 := by
  cases op with
  | allocBytes length => exact allocBytes_takes _ ordered rfl rfl
  | alloc known type => exact alloc_takes ordered known type
  | allocArray type count => exact allocArray_takes type count
  | copyBytes src =>
    have taken := allocBytes_takes (.copyBytes src) ordered src.toNat_length.symm rfl
    rw [← copyBytes_buf] at taken
    cases taken with
    | fails failed null => exact .fails failed (fun a same => nomatch same)
    | places a low inside high same aligned _ =>
      exact .places a low inside high same aligned (fun r same => nomatch same)
  | copyString src => exact copyString_takes ordered src
  | addByte b => exact addByte_takes s b

/-- The buffers over the region of `size` bytes from `start` on: the failed one, and those with
a position inside the region.
-/
inductive BufferOf (start size : Nat) (buf : AllocBuffer) : Prop where
  | failed (same : buf = markFailed)
  | live (pos : 0 < start) (low : start ≤ buf.current.toNat)
      (high : buf.current.toNat ≤ buf.bufferEnd.toNat) (same : buf.bufferEnd.toNat = start + size)

namespace BufferEvent

/-- The call returned the address `a`, which is not `NULL`. -/
def Returned (event : BufferEvent) (a : UInt64) : Prop := event.result = some a ∧ a ≠ 0

/-- The address `x` belongs to the bytes that the call returned. -/
def Covers (event : BufferEvent) (x : Nat) : Prop :=
  ∃ a, event.Returned a ∧ a.toNat ≤ x ∧ x < a.toNat + event.op.length

/-- The call returned `NULL`, or it returns nothing and left a failed buffer. -/
def Failed (event : BufferEvent) : Prop := event.result = some 0 ∨ event.failed = true

end BufferEvent

variable {start size : Nat} {s : BufferState}

theorem BufferOf.ordered (region : BufferOf start size buf)
    : buf.current ≤ buf.bufferEnd := by
  cases region with
  | failed same =>
    rw [same]
    exact UInt64.le_rfl
  | live pos low high same => exact UInt64.le_iff_toNat_le.mpr high

def firstEvent (s : BufferState) (op : BufferOp) : BufferEvent where
  op := op
  result := (op.step s).1
  failed := (op.step s).2.buf.hasFailed

theorem step_failed (failed : s.buf = markFailed) (op : BufferOp)
    : (op.step s).2.buf = markFailed ∧ ∀ a, (op.step s).1 = some a → a = 0 := by
  have ordered : s.buf.current ≤ s.buf.bufferEnd := by
    rw [failed]
    exact UInt64.le_rfl
  cases step_takes op ordered with
  | fails after null => exact ⟨after, null⟩
  | places a low inside high same aligned returned =>
    have zero : (op.step s).2.buf.bufferEnd = 0 := by
      rw [same, failed]
      rfl
    rw [zero, UInt64.le_iff_toNat_le, UInt64.toNat_zero] at high
    refine ⟨?_, ?_⟩
    · cases after : (op.step s).2.buf with
      | mk current bufferEnd =>
        rw [after] at zero high
        have current : current = 0 := UInt64.toNat_inj.mp (Nat.le_zero.mp high)
        rw [current, show bufferEnd = 0 from zero]
        rfl
    · intro r result
      rw [returned r result]
      exact UInt64.toNat_inj.mp (show a.toNat = 0 by omega)

theorem step_over (region : BufferOf start size s.buf) (op : BufferOp)
    : BufferOf start size (op.step s).2.buf := by
  cases region with
  | failed same => exact .failed (step_failed same op).1
  | live pos low high same =>
    cases step_takes op (UInt64.le_iff_toNat_le.mpr high) with
    | fails failed null => exact .failed failed
    | places a lowA inside highA sameA aligned returned =>
      rw [UInt64.le_iff_toNat_le] at lowA highA
      refine .live pos ?_ highA ?_
      · omega
      · rw [sameA, same]

theorem bufferRun_failed (failed : s.buf = markFailed) (ops : List BufferOp)
    : ∀ event ∈ bufferRun s ops, ∀ a, ¬event.Returned a := by
  induction ops generalizing s with
  | nil =>
    intro event inRun
    exact absurd inRun List.not_mem_nil
  | cons op ops ih =>
    obtain ⟨after, null⟩ := step_failed failed op
    intro event inRun a returned
    rcases List.mem_cons.mp inRun with rfl | later
    · exact returned.2 (null a returned.1)
    · exact ih after event later a returned

section

variable (region : BufferOf start size s.buf)
include region

/-- What holds of each result of a sequence that starts at the buffer's position. -/
theorem bufferRun_within (ops : List BufferOp)
    : ∀ event ∈ bufferRun s ops, ∀ a, event.Returned a
      → s.buf.current.toNat ≤ a.toNat ∧ start ≤ a.toNat ∧ a.toNat + event.op.length ≤ start + size
        ∧ event.op.align ∣ a.toNat := by
  induction ops generalizing s with
  | nil =>
    intro event inRun
    exact absurd inRun List.not_mem_nil
  | cons op ops ih =>
    intro event inRun a returned
    cases region with
    | failed same => exact absurd returned (bufferRun_failed same _ event inRun a)
    | live pos low high same =>
      have taken := step_takes op (UInt64.le_iff_toNat_le.mpr high)
      have after := step_over (.live pos low high same) op
      rcases List.mem_cons.mp inRun with rfl | later
      · cases taken with
        | fails failed null => exact absurd (null a returned.1) returned.2
        | places b lowB inside highB sameB aligned result =>
          rw [UInt64.le_iff_toNat_le] at lowB highB
          rw [result a returned.1]
          refine ⟨lowB, by omega, ?_, aligned⟩
          show b.toNat + op.length ≤ start + size
          rw [sameB] at highB
          omega
      · cases taken with
        | fails failed null => exact absurd returned (bufferRun_failed failed ops event later a)
        | places b lowB inside highB sameB aligned result =>
          rw [UInt64.le_iff_toNat_le] at lowB
          obtain ⟨behind, rest⟩ := ih after event later a returned
          exact ⟨by omega, rest⟩

/-- Later results lie behind the bytes of the first one. -/
theorem firstEvent_covers_lt {op : BufferOp} {x : Nat} (covers : (firstEvent s op).Covers x) : x <
    (op.step s).2.buf.current.toNat := by
  obtain ⟨a, returned, low, high⟩ := covers
  cases step_takes op region.ordered with
  | fails failed null => exact absurd (null a returned.1) returned.2
  | places b lowB inside highB sameB aligned result =>
    rw [result a returned.1] at high
    exact Nat.lt_of_lt_of_le high inside

private theorem firstEvent_failed {op : BufferOp} (failed : (firstEvent s op).Failed) : (op.step s).2.buf =
    markFailed := by
  cases region with
  | failed same => exact (step_failed same op).1
  | live pos low high same =>
    cases step_takes op (UInt64.le_iff_toNat_le.mpr high) with
    | fails after null => exact after
    | places a lowA inside highA sameA aligned returned =>
      exfalso
      rw [UInt64.le_iff_toNat_le] at lowA
      rcases failed with null | failed
      · have zero : (0 : UInt64) = a := returned 0 null
        rw [← zero, UInt64.toNat_zero] at lowA
        omega
      · have zero : (op.step s).2.buf.current = 0 := of_decide_eq_true failed
        rw [zero, UInt64.toNat_zero] at inside
        omega

end

private theorem create_over {start size : UInt64} {buf : AllocBuffer} (valid : start = 0 → size = 0)
    (created : create start size = some buf) : BufferOf start.toNat size.toNat buf := by
  unfold create at created
  dsimp only at created
  split at created
  case isTrue => exact absurd created (by simp)
  case isFalse noWrap =>
    obtain rfl := Option.some.inj created
    rcases eq_or_ne start 0 with zero | nonzero
    · exact .failed (by rw [valid zero, zero]; rfl)
    · have pos : start.toNat ≠ 0 := fun zero => nonzero (UInt64.toNat_inj.mp zero)
      have bound' := size.toNat_lt
      rw [UInt64.lt_iff_toNat_lt, UInt64.toNat_add] at noWrap
      have sum : (start + size).toNat = start.toNat + size.toNat := by
        rw [UInt64.toNat_add]
        omega
      have ordered : start.toNat ≤ (start + size).toNat := by omega
      exact .live (Nat.pos_of_ne_zero pos) le_rfl ordered sum

private theorem bufferRun_pairwise (region : BufferOf start size s.buf) (ops : List BufferOp)
    : (bufferRun s ops).Pairwise fun event later =>
        (∀ x, event.Covers x → ¬later.Covers x)
        ∧ (event.Failed → ∀ a, ¬later.Returned a) := by
  induction ops generalizing s with
  | nil => exact List.Pairwise.nil
  | cons op ops ih =>
    have after := step_over region op
    refine List.Pairwise.cons ?_ (ih after)
    intro later inRun
    constructor
    · intro x covers behind
      obtain ⟨a, returned, low, _⟩ := behind
      have first := firstEvent_covers_lt region covers
      have position := (bufferRun_within after ops later inRun a returned).1
      omega
    · intro failed
      exact bufferRun_failed (firstEvent_failed region failed) ops later inRun

/-- Every result of a sequence of operations on a buffer over `size` bytes from `start` on is
aligned and inside the region and shares no byte with an earlier one, and after a failure there
are no results.
-/
theorem allocBuffer_results {start size : UInt64} {buf : AllocBuffer}
    (valid : start = 0 → size = 0) (created : create start size = some buf)
    (memory : Memory UInt8) (ops : List BufferOp)
    : (∀ event ∈ bufferRun { buf, memory } ops, ∀ a, event.Returned a → event.op.align ∣ a.toNat
          ∧ start.toNat ≤ a.toNat
          ∧ a.toNat + event.op.length ≤ start.toNat + size.toNat)
      ∧ (bufferRun { buf, memory } ops).Pairwise (fun event later =>
          ∀ x, event.Covers x → ¬later.Covers x)
      ∧ (bufferRun { buf, memory } ops).Pairwise (fun event later =>
          event.Failed → ∀ a, ¬later.Returned a) := by
  have region := create_over valid created
  have pairs := bufferRun_pairwise (s := { buf, memory }) region ops
  refine ⟨?_, pairs.imp And.left, pairs.imp And.right⟩
  intro event inRun a returned
  obtain ⟨_, low, high, aligned⟩ := bufferRun_within region ops event inRun a returned
  exact ⟨aligned, low, high⟩

/-- `int` objects. -/
def intType : ObjectType where
  size := 4
  align := 4
  size_ne_zero := by decide
  align_ne_zero := by decide
  powerof2_align := by decide

/-- A byte, a padded `int`, an array that no longer fits, and an empty one after the failure. -/
theorem allocBuffer_results_failing
    : create 4097 16 = some { current := 4097, bufferEnd := 4113 }
      ∧ (bufferRun { buf := { current := 4097, bufferEnd := 4113 }, memory := fun _ => 0 }
          [.addByte 7, .alloc false intType, .allocArray intType 3, .allocBytes 0]).map
          BufferEvent.result = [none, some 4100, some 0, some 0]
      ∧ ∀ event ∈ bufferRun
          { buf := { current := 4097, bufferEnd := 4113 }, memory := fun _ => 0 }
          [.addByte 7, .alloc false intType, .allocArray intType 3, .allocBytes 0],
        ∀ a, event.Returned a
        → event.op.align ∣ a.toNat ∧ (4097 : UInt64).toNat ≤ a.toNat
          ∧ a.toNat + event.op.length ≤ (4097 : UInt64).toNat + (16 : UInt64).toNat :=
  ⟨by decide, by decide, (allocBuffer_results (by decide) (by decide) (fun _ => 0)
      [.addByte 7, .alloc false intType, .allocArray intType 3, .allocBytes 0]).1⟩

end Nglibc.Malloc
