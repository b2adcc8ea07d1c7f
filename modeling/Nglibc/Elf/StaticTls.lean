import Mathlib.Tactic

/-! The static TLS area below the thread control block: its layout at the start, blocks for modules
that are loaded later, and their return. Sizes have 64 bits.
-/

namespace Nglibc.StaticTls

def add64 (a b : Nat) : Nat := (a + b) % 2 ^ 64

def sub64 (a b : Nat) : Nat := (a + (2 ^ 64 - b)) % 2 ^ 64

def roundup (x y : Nat) : Nat := add64 x (y - 1) / y * y

/-- What the code reads of a `struct link_map`. The offset counts downwards from the thread pointer. -/
structure Module where
  blocksize : Nat
  align : Nat
  firstbyteOffset : Nat
  offset : Nat
deriving DecidableEq

/-- `NO_TLS_OFFSET` -/
def noOffset : Nat := 0

/-- `FORCED_DYNAMIC_TLS_OFFSET`, which is -1. -/
def forcedDynamic : Nat := 2 ^ 64 - 1

/-- The thread control block, and the extra space for modules that are loaded later. -/
structure Machine where
  tcbBits : Nat
  tcbSize : Nat
  surplus : Nat
  optional : Nat

def Machine.tcbAlignment (c : Machine) : Nat := 2 ^ c.tcbBits

/-- The local variables of `_dl_determine_tlsoffset`. The largest gap so far lies between the offsets
`freetop` and `freebottom`.
-/
structure Layout where
  maxAlign : Nat
  offset : Nat
  freetop : Nat
  freebottom : Nat

def Module.firstbyte (m : Module) : Nat := sub64 0 m.firstbyteOffset &&& (m.align - 1)

/-- The offset of a block that starts behind the offset `top`. -/
def Module.offsetAbove (m : Module) (top : Nat) : Nat :=
  add64 (roundup (sub64 (add64 top m.blocksize) m.firstbyte) m.align) m.firstbyte

def Layout.place (s : Layout) (m : Module) : Nat × Layout :=
  let s := { s with maxAlign := max s.maxAlign m.align }
  if sub64 s.freebottom s.freetop ≥ m.blocksize ∧ m.offsetAbove s.freetop ≤ s.freebottom then
    (m.offsetAbove s.freetop, { s with freetop := m.offsetAbove s.freetop })
  else
    let off := m.offsetAbove s.offset
    if off > add64 (add64 s.offset m.blocksize) (sub64 s.freebottom s.freetop) then
      (off, { s with offset := off, freetop := s.offset, freebottom := sub64 off m.blocksize })
    else (off, { s with offset := off })

def Layout.placeAll (s : Layout) : List Module → List Module × Layout
  | [] => ([], s)
  | m :: ms =>
    let (off, s) := s.place m
    let (rest, s) := s.placeAll ms
    ({ m with offset := off } :: rest, s)

/-- The variables of the loader, with the modules that have a block. -/
structure World where
  staticSize : Nat
  staticAlign : Nat
  used : Nat
  optional : Nat
  startup : List Module
  loaded : List Module

/-- `_dl_determine_tlsoffset`. -/
def start (c : Machine) (modules : List Module) : World :=
  let (placed, s) := Layout.placeAll ⟨c.tcbAlignment, 0, 0, 0⟩ modules
  { staticSize := add64 (roundup (add64 s.offset c.surplus) s.maxAlign) c.tcbSize
    staticAlign := s.maxAlign
    used := s.offset
    optional := c.optional
    startup := placed
    loaded := [] }

/-- `_dl_try_allocate_static_tls`, with its result. -/
def World.tryAllocate (c : Machine) (w : World) (m : Module) (optional : Bool) : Int × World :=
  if m.offset = forcedDynamic ∨ m.align > w.staticAlign then (-1, w)
  else
    let freebytes := sub64 w.staticSize w.used
    if freebytes < c.tcbSize then (-1, w)
    else
      let freebytes := sub64 freebytes c.tcbSize
      let blsize := add64 m.blocksize m.firstbyteOffset
      if freebytes < blsize then (-1, w)
      else
        let n := sub64 freebytes blsize / m.align
        let use := sub64 (sub64 freebytes (n * m.align % 2 ^ 64)) m.firstbyteOffset
        if optional ∧ use > w.optional then (-1, w)
        else
          let offset := add64 w.used use
          (0, { w with
            used := offset
            optional := if optional then sub64 w.optional use else w.optional
            loaded := { m with offset } :: w.loaded })

/-- The chunk that is reclaimed, and the end of the used area. -/
structure Chunk where
  freeStart : Nat
  freeEnd : Nat
  used : Nat

def Module.Static (m : Module) : Prop :=
  m.blocksize > 0 ∧ m.offset ≠ noOffset ∧ m.offset ≠ forcedDynamic

instance (m : Module) : Decidable m.Static := inferInstanceAs (Decidable (_ ∧ _ ∧ _))

/-- The loop of `_dl_close_worker`, for one module that is not used any more. -/
def Chunk.closeOne (c : Chunk) (m : Module) : Chunk :=
  if m.Static then
    let bottom := sub64 m.offset m.blocksize
    if c.freeStart = noOffset ∨ m.offset = c.freeStart then
      { c with
        freeStart := bottom
        freeEnd := if c.freeEnd = noOffset then m.offset else c.freeEnd }
    else if bottom = c.freeEnd then { c with freeEnd := m.offset }
    -- The block does not touch the chunk, and one of them may be lost.
    else if c.freeEnd = c.used then ⟨bottom, m.offset, c.freeStart⟩
    else if m.offset = c.used then { c with used := bottom }
    else if c.freeEnd < m.offset then { c with freeStart := bottom, freeEnd := m.offset }
    else c
  else c

/-- `_dl_close_worker`, for the modules that are not used any more. -/
def World.close (w : World) (modules : List Module) : World :=
  let c := modules.foldl Chunk.closeOne ⟨noOffset, noOffset, w.used⟩
  { w with
    used := if modules.any (·.blocksize > 0) ∧ c.freeEnd = c.used then c.freeStart else c.used
    loaded := w.loaded.diff modules }

theorem add64_eq {a b : Nat} (fits : a + b < 2 ^ 64) : add64 a b = a + b := Nat.mod_eq_of_lt fits

theorem sub64_eq {a b : Nat} (le : b ≤ a) (bound : a < 2 ^ 64) : sub64 a b = a - b := by
  rw [sub64]
  omega

/-- A size, an alignment that is a power of two, and a first byte below the alignment. -/
structure Module.Valid (m : Module) : Prop where
  power : ∃ k, m.align = 2 ^ k
  first : m.firstbyteOffset < m.align

variable {m : Module}

/-- The padding completes the offset of the first byte to a multiple of the alignment. -/
theorem Module.Valid.firstbyte (valid : m.Valid) (small : m.align ≤ 2 ^ 63)
    : m.firstbyte < m.align ∧ m.align ∣ m.firstbyte + m.firstbyteOffset := by
  obtain ⟨k, power⟩ := valid.power
  have first := valid.first
  have bits : k ≤ 63 := (Nat.pow_le_pow_iff_right (by decide)).mp (power ▸ small)
  have mask : m.firstbyte = sub64 0 m.firstbyteOffset % m.align := by
    rw [Module.firstbyte, power, Nat.and_two_pow_sub_one_eq_mod]
  have multiple : m.align ∣ 2 ^ 64 := power ▸ Nat.pow_dvd_pow 2 (by omega)
  rw [mask]
  refine ⟨Nat.mod_lt _ (by omega), ?_⟩
  have negated : sub64 0 m.firstbyteOffset % m.align = (2 ^ 64 - m.firstbyteOffset) % m.align := by
    rw [sub64, Nat.zero_add, Nat.mod_mod_of_dvd _ multiple]
  rw [negated, Nat.dvd_iff_mod_eq_zero, Nat.mod_add_mod, Nat.sub_add_cancel (by omega)]
  exact Nat.mod_eq_zero_of_dvd multiple

/-- Rounding up, also where the argument is negative. -/
theorem roundup_spec {x y : Nat} (pos : 0 < y) (fits : x + (y - 1) < 2 ^ 64)
    : y ∣ roundup x y ∧ x ≤ roundup x y ∧ roundup x y < x + y := by
  rw [roundup, add64_eq fits]
  have whole := Nat.div_add_mod (x + (y - 1)) y
  have part := Nat.mod_lt (x + (y - 1)) pos
  rw [Nat.mul_comm] at whole
  exact ⟨Nat.dvd_mul_left _ _, by omega, by omega⟩

/-- The least offset that leaves room for the block and gives its first byte its alignment. -/
theorem Module.Valid.offsetAbove (valid : m.Valid) {top : Nat}
    (bound : top + m.blocksize + m.align ≤ 2 ^ 63)
    : top + m.blocksize ≤ m.offsetAbove top ∧ m.offsetAbove top < top + m.blocksize + m.align
      ∧ m.align ∣ m.offsetAbove top + m.firstbyteOffset := by
  obtain ⟨less, multiple⟩ := valid.firstbyte (by omega)
  have pos : 0 < m.align := Nat.zero_lt_of_lt less
  have sum : add64 top m.blocksize = top + m.blocksize := add64_eq (by omega)
  rw [Module.offsetAbove, sum]
  by_cases le : m.firstbyte ≤ top + m.blocksize
  · obtain ⟨whole, low, high⟩ := roundup_spec (x := top + m.blocksize - m.firstbyte) pos (by omega)
    rw [sub64_eq le (by omega), add64_eq (by omega)]
    refine ⟨by omega, by omega, ?_⟩
    rw [Nat.add_assoc]
    exact (Nat.dvd_add_right whole).mpr multiple
  · -- The difference is negative, and rounding it up gives zero.
    have zero : roundup (sub64 (top + m.blocksize) m.firstbyte) m.align = 0 := by
      have small : add64 (sub64 (top + m.blocksize) m.firstbyte) (m.align - 1) < m.align := by
        rw [add64, sub64]
        omega
      rw [roundup, Nat.div_eq_of_lt small, Nat.zero_mul]
    rw [zero, add64_eq (by omega), Nat.zero_add]
    exact ⟨by omega, by omega, multiple⟩

end Nglibc.StaticTls
