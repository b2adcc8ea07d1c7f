import Nglibc.Malloc.Obstack

/-! The finished objects of an obstack, kept beside it in the order of their making: they stay
where they are, with the bytes that were grown into them, until one of them or an older one is
freed.
-/

namespace Nglibc.Malloc

open Obstack List

----
-- Alignment and the copy of an object
----

theorem le_ptrAlign (p mask : Nat) : p ≤ ptrAlign p mask := by
  have low : (p + mask) &&& mask ≤ mask := Nat.and_le_right
  unfold ptrAlign
  omega

theorem ptrAlign_le (p mask : Nat) : ptrAlign p mask ≤ p + mask := Nat.sub_le _ _

theorem dvd_ptrAlign {mask : Nat} (power : (mask + 1).isPowerOfTwo) (p : Nat)
    : mask + 1 ∣ ptrAlign p mask := by
  obtain ⟨k, size⟩ := power
  obtain rfl : mask = 2 ^ k - 1 := by omega
  rw [ptrAlign, Nat.and_two_pow_sub_one_eq_mod, size]
  exact Nat.dvd_sub_mod _

theorem store_slice_apply (m : Memory UInt8) (a b n x : Nat)
    : m.store a (m.slice b n) x = if a ≤ x ∧ x < a + n then m (b + (x - a)) else m x := by
  by_cases inside : a ≤ x ∧ x < a + n
  · have cell : x - a < (m.slice b n).length := by
      rw [Memory.length_slice]
      omega
    rw [if_pos inside, Memory.store, if_pos inside.1, getElem?_eq_getElem cell,
      Option.getD_some, Memory.getElem_slice]
  · rw [if_neg inside, Memory.store_outside]
    rw [Memory.length_slice]
    omega

/-- The units are copied before they could be overwritten. -/
theorem copyUnits_apply {dst src i : Nat} (disjoint : dst + 4 * i ≤ src ∨ src + 4 * i ≤ dst)
    (m : Memory UInt8) (x : Nat)
    : copyUnits m dst src i x = if dst ≤ x ∧ x < dst + 4 * i then m (src + (x - dst)) else m x := by
  induction i generalizing m with
  | zero => rw [copyUnits, if_neg (by omega)]
  | succ i ih =>
    rw [copyUnits, ih (by omega), store_slice_apply, store_slice_apply]
    split
    case isTrue inside =>
      rw [if_neg (by omega), if_pos (by omega)]
    case isFalse outside =>
      split
      case isTrue last =>
        rw [if_pos (by omega)]
        congr 1
        omega
      case isFalse => rw [if_neg (by omega)]

private theorem copyRest_apply {dst src i n : Nat}
    (disjoint : dst + (i + n) ≤ src ∨ src + (i + n) ≤ dst) (m : Memory UInt8) (x : Nat)
    : copyRest m dst src i n x
      = if dst + i ≤ x ∧ x < dst + (i + n) then m (src + (x - dst)) else m x := by
  induction n generalizing m i with
  | zero => rw [copyRest, if_neg (by omega)]
  | succ n ih =>
    rw [copyRest, ih (by omega), Memory.store_singleton, Memory.store_singleton]
    split
    case isTrue inside =>
      rw [if_neg (by omega), if_pos (by omega)]
    case isFalse outside =>
      split
      case isTrue same =>
        rw [if_pos (by omega)]
        congr 1
        omega
      case isFalse => rw [if_neg (by omega)]

/-- An object that is moved has its bytes at the new place, and nothing else changes. -/
theorem moveObject_apply {dst src size : Nat} (disjoint : dst + size ≤ src ∨ src + size ≤ dst)
    (mask : Nat) (m : Memory UInt8) (x : Nat)
    : moveObject mask m dst src size x
      = if dst ≤ x ∧ x < dst + size then m (src + (x - dst)) else m x := by
  unfold moveObject
  generalize units_eq : (if mask + 1 ≥ defaultAlignment then size / 4 else 0) = units
  have le : 4 * units ≤ size := by
    rw [← units_eq]
    split <;> omega
  have rest : 4 * units + (size - 4 * units) = size := by omega
  rw [copyRest_apply (by omega), copyUnits_apply (by omega), copyUnits_apply (by omega)]
  split
  case isTrue inside =>
    rw [if_neg (by omega), if_pos (by omega)]
  case isFalse outside =>
    split
    case isTrue front => rw [if_pos (by omega)]
    case isFalse => rw [if_neg (by omega)]

theorem slice_moveObject {dst src size : Nat} (disjoint : dst + size ≤ src ∨ src + size ≤ dst)
    (mask : Nat) (m : Memory UInt8)
    : (moveObject mask m dst src size).slice dst size = m.slice src size := by
  apply Memory.slice_eq_slice
  intro i inside
  rw [moveObject_apply disjoint, if_pos (by omega)]
  congr 1
  omega

----
-- The objects beside the obstack
----

/-- A finished object: its address, the bytes grown into it, and the chunk it is in. -/
structure LiveObject where
  addr : Nat
  bytes : List UInt8
  chunk : Chunk

/-- The finished objects that have not been freed, newest first, and the bytes of the growing
one.
-/
structure LiveObjects where
  objects : List LiveObject
  growing : List UInt8

def Obstack.current (h : Obstack) : Chunk := h.chunks.headD { start := 0, limit := 0 }

def obstackStep (h : Obstack) (live : LiveObjects) (chunkfun : Nat → Nat)
    : ObstackOp → Option (Option Nat × Obstack)
  | .grow bytes => some (none, h.grow bytes chunkfun)
  | .grow0 bytes => some (none, h.grow0 bytes chunkfun)
  | .grow1 datum => some (none, h.grow1 datum chunkfun)
  | .blank length => some (none, h.blank length chunkfun)
  | .finish => some (some h.finish.1, h.finish.2)
  | .alloc length =>
    let h := h.blank length chunkfun
    some (some h.finish.1, h.finish.2)
  | .copy bytes =>
    let h := h.grow bytes chunkfun
    some (some h.finish.1, h.finish.2)
  | .free index => do
    let object ← live.objects[index]?
    let h ← h.free object.addr
    return (none, h)

/-- The object that `obstack_finish` makes of the growing bytes. -/
def LiveObjects.finish (live : LiveObjects) (addr : Nat) (chunk : Chunk) : LiveObjects where
  objects := { addr, bytes := live.growing, chunk } :: live.objects
  growing := []

def LiveObjects.grow (live : LiveObjects) (bytes : List UInt8) : LiveObjects :=
  { live with growing := live.growing ++ bytes }

/-- What a call does to the objects. The bytes that `obstack_blank` adds are those that the memory
has there; `obstack_free` drops the object and everything newer.
-/
def LiveObjects.next (live : LiveObjects) (value : Option Nat) (after : Obstack)
    : ObstackOp → LiveObjects
  | .grow bytes => live.grow bytes
  | .grow0 bytes => live.grow (bytes ++ [0])
  | .grow1 datum => live.grow [datum]
  | .blank length => live.grow (after.memory.slice (after.nextFree - length) length)
  | .finish => live.finish (value.getD 0) after.current
  | .alloc length =>
    (live.grow (after.memory.slice (value.getD 0 + live.growing.length) length)).finish
      (value.getD 0) after.current
  | .copy bytes => (live.grow bytes).finish (value.getD 0) after.current
  | .free index => { objects := live.objects.drop (index + 1), growing := [] }

----
-- The invariant
----

def Chunk.Apart (c d : Chunk) : Prop := c.limit ≤ d.start ∨ d.limit ≤ c.start

/-- An object lies in its chunk, below `top`, and is aligned unless it is at the very end. -/
structure LiveObject.In (mask : Nat) (o : LiveObject) (c : Chunk) (top : Nat) : Prop where
  chunk : o.chunk = c
  low : c.first mask ≤ o.addr
  high : o.addr + o.bytes.length ≤ top
  top_le : top ≤ c.limit
  aligned : mask + 1 ∣ o.addr ∨ o.addr = c.limit

/-- The objects lie in the chunks in their order: those of the current chunk below `top` and
below each other, the others in the older chunks.
-/
inductive Stacked (mask : Nat) : List Chunk → Nat → List LiveObject → Prop where
  | nil {chunks : List Chunk} {top : Nat} : Stacked mask chunks top []
  | here {c : Chunk} {chunks : List Chunk} {top : Nat} {o : LiveObject}
      {objects : List LiveObject} (within : o.In mask c top)
      (rest : Stacked mask (c :: chunks) o.addr objects)
      : Stacked mask (c :: chunks) top (o :: objects)
  | older {c d : Chunk} {chunks : List Chunk} {top : Nat} {objects : List LiveObject}
      (rest : Stacked mask (d :: chunks) d.limit objects)
      : Stacked mask (c :: d :: chunks) top objects

/-- What holds of an obstack and its objects between calls. -/
structure Obstack.Holds (h : Obstack) (live : LiveObjects) : Prop where
  power : (h.alignmentMask + 1).isPowerOfTwo
  current : ∃ c chunks, h.chunks = c :: chunks ∧ h.chunkLimit = c.limit
    ∧ c.first h.alignmentMask ≤ h.objectBase
  first_le : ∀ c ∈ h.chunks, c.first h.alignmentMask ≤ c.limit
  apart : h.chunks.Pairwise Chunk.Apart
  nextFree_le : h.nextFree ≤ h.chunkLimit
  nextFree_eq : h.nextFree = h.objectBase + live.growing.length
  growing : h.memory.slice h.objectBase live.growing.length = live.growing
  aligned : h.alignmentMask + 1 ∣ h.objectBase ∨ h.objectBase = h.chunkLimit
  stacked : Stacked h.alignmentMask h.chunks h.objectBase live.objects
  contents : ∀ o ∈ live.objects, h.memory.slice o.addr o.bytes.length = o.bytes
  empty : ∀ o ∈ live.objects, o.chunk = h.current → o.bytes = [] → h.maybeEmptyObject = true

variable {mask : Nat} {chunks : List Chunk} {top : Nat} {objects : List LiveObject}
  {h : Obstack} {live : LiveObjects} {chunkfun : Nat → Nat}

theorem start_lt_first (mask : Nat) (c : Chunk) : c.start + headerSize ≤ c.first mask :=
  le_ptrAlign _ _

theorem Stacked.raise {c : Chunk} (stacked : Stacked mask (c :: chunks) top objects)
    {higher : Nat} (le : top ≤ higher) (inside : higher ≤ c.limit)
    : Stacked mask (c :: chunks) higher objects := by
  cases stacked with
  | nil => exact .nil
  | here within rest =>
    exact .here ⟨within.chunk, within.low, Nat.le_trans within.high le, inside, within.aligned⟩
      rest
  | older rest => exact .older rest

variable {o : LiveObject}

theorem Stacked.inside (stacked : Stacked mask chunks top objects) (member : o ∈ objects)
    : o.chunk ∈ chunks ∧ o.chunk.first mask ≤ o.addr ∧ o.addr + o.bytes.length ≤ o.chunk.limit
      ∧ (mask + 1 ∣ o.addr ∨ o.addr = o.chunk.limit) := by
  induction stacked with
  | nil => exact absurd member not_mem_nil
  | @here c chunks top o' objects within rest ih =>
    rcases mem_cons.mp member with rfl | later
    · rw [within.chunk]
      exact ⟨mem_cons_self, within.low, Nat.le_trans within.high within.top_le, within.aligned⟩
    · exact ih later
  | older rest ih =>
    obtain ⟨inChunks, bounds⟩ := ih member
    exact ⟨mem_cons_of_mem _ inChunks, bounds⟩

theorem Stacked.avoids (stacked : Stacked mask chunks top objects) {c : Chunk} {tail : List Chunk}
    (current : chunks = c :: tail) (apart : chunks.Pairwise Chunk.Apart) {x : Nat} (low : top ≤ x)
    (start : c.start ≤ x) (high : x < c.limit) (member : o ∈ objects) : x < o.addr ∨ o.addr + o.bytes.length ≤ x := by
  induction stacked with
  | nil => exact absurd member not_mem_nil
  | @here c' chunks top o' objects within rest ih =>
    have ends := within.high
    rcases mem_cons.mp member with rfl | later
    · exact .inr (by omega)
    · exact ih current apart (by omega) later
  | @older c' d chunks top objects rest _ =>
    obtain ⟨rfl, rfl⟩ := List.cons.inj current
    obtain ⟨inChunks, first, last, _⟩ := rest.inside member
    have separate := (pairwise_cons.mp apart).1 o.chunk inChunks
    have head := start_lt_first mask o.chunk
    rcases separate with before | after
    · exact .inl (by omega)
    · exact .inr (by omega)

theorem contents_congr {m m' : Memory UInt8}
    (contents : ∀ o ∈ objects, m.slice o.addr o.bytes.length = o.bytes)
    (same : ∀ o ∈ objects, ∀ x, o.addr ≤ x → x < o.addr + o.bytes.length → m' x = m x)
    : ∀ o ∈ objects, m'.slice o.addr o.bytes.length = o.bytes := by
  intro o member
  rw [Memory.slice_congr (same o member)]
  exact contents o member

/-- `chunkfun` gives 16-aligned regions that share no byte with a chunk of the obstack. -/
def AnswersFresh (h : Obstack) (chunkfun : Nat → Nat) : Prop := ∀ size, 16 ∣ chunkfun size
    ∧ ∀ c ∈ h.chunks, Chunk.Apart { start := chunkfun size, limit := chunkfun size + size } c

theorem Chunk.not_apart_self {c : Chunk} (first_le : c.first mask ≤ c.limit) : ¬c.Apart c := by
  have head := start_lt_first mask c
  have size : headerSize = 16 := rfl
  rintro (before | after) <;> omega

/-- In the current chunk only objects with bytes keep the growing one from the first place, and
only the flag tells of the others.
-/
theorem Stacked.alone {c : Chunk} (stacked : Stacked mask (c :: chunks) (c.first mask) objects)
    (nonempty : ∀ o ∈ objects, o.chunk = c → o.bytes ≠ [])
    : (∃ d tail, chunks = d :: tail ∧ Stacked mask chunks d.limit objects) ∨ objects = [] := by
  cases stacked with
  | nil => exact .inr rfl
  | @here _ _ _ o objects within rest =>
    exfalso
    have bytes := nonempty o mem_cons_self within.chunk
    have pos := length_pos_iff.mpr bytes
    have low := within.low
    have high := within.high
    omega
  | @older _ d chunks _ _ rest => exact .inl ⟨d, chunks, rfl, rest⟩

theorem current_eq {c : Chunk} (eq : h.chunks = c :: chunks) : h.current = c := by
  unfold Obstack.current
  rw [eq]
  rfl

/-- The obstack with the growing object at the start of the chunk `new`, in front of `chunks`. -/
def Obstack.moveTo (h : Obstack) (new : Chunk) (chunks released : List Chunk) : Obstack :=
  let objSize := h.nextFree - h.objectBase
  { h with
    chunks := new :: chunks,
    released,
    chunkLimit := new.limit,
    memory := moveObject h.alignmentMask h.memory (new.first h.alignmentMask) h.objectBase objSize,
    objectBase := new.first h.alignmentMask,
    nextFree := new.first h.alignmentMask + objSize,
    maybeEmptyObject := false }

private theorem newchunk_eq {old : Chunk} (split : h.chunks = old :: chunks) (length : Nat)
    (chunkfun : Nat → Nat)
    : ∃ newSize, (h.nextFree - h.objectBase) + length + h.alignmentMask + 100 ≤ newSize
      ∧ h.newchunk length chunkfun
        = if (!h.maybeEmptyObject && decide (h.objectBase = old.first h.alignmentMask)) = true then
            h.moveTo ⟨chunkfun newSize, chunkfun newSize + newSize⟩ chunks (old :: h.released)
          else h.moveTo ⟨chunkfun newSize, chunkfun newSize + newSize⟩ (old :: chunks) h.released := by
  unfold newchunk moveTo
  rw [split]
  dsimp only
  generalize h.nextFree - h.objectBase = objSize
  generalize newSize_eq : (if objSize + length + objSize / 8 + h.alignmentMask + 100 < h.chunkSize
    then h.chunkSize else objSize + length + objSize / 8 + h.alignmentMask + 100) = newSize
  refine ⟨newSize, ?_, ?_⟩
  · rw [← newSize_eq]
    split <;> omega
  · split <;> rfl

/-- What is released on the way to `after` are chunks of `h` that share no byte with one of `after`. -/
def Obstack.Releases (h after : Obstack) : Prop := ∃ gone, after.released = gone ++ h.released
    ∧ ∀ c ∈ gone, c ∈ h.chunks ∧ ∀ d ∈ after.chunks, d.Apart c

theorem Obstack.Releases.none {after : Obstack} (same : after.released = h.released)
    : h.Releases after :=
  ⟨[], same, forall_mem_nil _⟩

theorem Chunk.Apart.symm {c d : Chunk} (apart : c.Apart d) : d.Apart c := Or.symm apart

section

variable (holds : h.Holds live)
include holds

/-- The growing object and all finished ones are in place when the obstack has moved to a chunk of its
own.
-/
theorem moveTo_holds {new : Chunk} (separate : ∀ c ∈ h.chunks, new.Apart c)
    (fits : new.first h.alignmentMask + (h.nextFree - h.objectBase) ≤ new.limit)
    (kept : ∀ c ∈ chunks, c ∈ h.chunks) (apart : chunks.Pairwise Chunk.Apart)
    (stacked : Stacked h.alignmentMask (new :: chunks) (new.first h.alignmentMask) live.objects)
    (released : List Chunk)
    : (h.moveTo new chunks released).Holds live := by
  obtain ⟨old, rest, chunks_eq, limit_eq, base⟩ := holds.current
  have objSize : h.nextFree - h.objectBase = live.growing.length := by
    rw [holds.nextFree_eq]
    omega
  have first_low := start_lt_first h.alignmentMask new
  have oldFirst := start_lt_first h.alignmentMask old
  have oldHigh := holds.nextFree_le
  have nextFree := holds.nextFree_eq
  have disjoint : new.first h.alignmentMask + live.growing.length ≤ h.objectBase
      ∨ h.objectBase + live.growing.length ≤ new.first h.alignmentMask := by
    rcases separate old (chunks_eq ▸ mem_cons_self) with before | after <;> omega
  have newFirst : new.first h.alignmentMask ≤ new.limit := by omega
  unfold moveTo
  rw [objSize] at fits ⊢
  exact {
    power := holds.power
    current := ⟨new, chunks, rfl, rfl, le_rfl⟩
    first_le := forall_mem_cons.mpr
      ⟨newFirst, fun c inChunks => holds.first_le c (kept c inChunks)⟩
    apart := pairwise_cons.mpr ⟨fun c inChunks => separate c (kept c inChunks), apart⟩
    nextFree_le := fits
    nextFree_eq := rfl
    growing := by
      show (moveObject _ _ _ _ _).slice _ _ = _
      rw [slice_moveObject disjoint]
      exact holds.growing
    aligned := .inl (dvd_ptrAlign holds.power _)
    stacked := stacked
    contents := by
      apply contents_congr holds.contents
      intro o member x low high
      obtain ⟨inChunks, objectFirst, objectLast, _⟩ := holds.stacked.inside member
      have objectHead := start_lt_first h.alignmentMask o.chunk
      show moveObject _ _ _ _ _ x = _
      rw [moveObject_apply disjoint, if_neg]
      rcases separate o.chunk inChunks with before | after <;> omega
    empty := by
      intro o member here
      have self := separate o.chunk (holds.stacked.inside member).1
      rw [show o.chunk = new from here] at self
      exact absurd self (Chunk.not_apart_self newFirst)
  }

/-- No object lies in the current chunk when the flag is not set and the growing one is at its start. -/
theorem stacked_alone {old : Chunk} (split : h.chunks = old :: chunks)
    (alone : (!h.maybeEmptyObject && decide (h.objectBase = old.first h.alignmentMask)) = true)
    (new : Chunk)
    : Stacked h.alignmentMask (new :: chunks) (new.first h.alignmentMask) live.objects := by
  obtain ⟨noEmpty, atFirst⟩ : h.maybeEmptyObject = false
      ∧ h.objectBase = old.first h.alignmentMask := by simpa using alone
  have stacked := holds.stacked
  rw [split, atFirst] at stacked
  have nonempty : ∀ o ∈ live.objects, o.chunk = old → o.bytes ≠ [] := by
    intro o member here isEmpty
    have flag := holds.empty o member (here.trans (current_eq split).symm) isEmpty
    rw [noEmpty] at flag
    exact absurd flag (by simp)
  rcases stacked.alone nonempty with ⟨d, tail, rfl, older⟩ | none
  · exact .older older
  · rw [none]
    exact .nil

/-- A new chunk takes the growing object over and leaves all others in place; the old one is released
only when it holds none of them.
-/
theorem newchunk_holds (fresh : AnswersFresh h chunkfun) (length : Nat)
    : (h.newchunk length chunkfun).Holds live ∧ h.Releases (h.newchunk length chunkfun)
      ∧ (h.newchunk length chunkfun).nextFree + length ≤ (h.newchunk length chunkfun).chunkLimit
        := by
  obtain ⟨old, rest, split, limit_eq, base⟩ := holds.current
  obtain ⟨newSize, enough, moved⟩ := newchunk_eq split length chunkfun
  generalize new_eq : Chunk.mk (chunkfun newSize) (chunkfun newSize + newSize) = new at moved
  have separate : ∀ c ∈ h.chunks, new.Apart c := new_eq ▸ (fresh newSize).2
  have limit : new.limit = new.start + newSize := by rw [← new_eq]
  have first : new.first h.alignmentMask ≤ new.start + headerSize + h.alignmentMask := ptrAlign_le _ _
  have head : headerSize = 16 := rfl
  have fits : new.first h.alignmentMask + (h.nextFree - h.objectBase) + length ≤ new.limit := by omega
  have apart := holds.apart
  rw [split] at apart
  rw [moved]
  by_cases alone : (!h.maybeEmptyObject && decide (h.objectBase = old.first h.alignmentMask)) = true
  · rw [if_pos alone]
    refine ⟨moveTo_holds holds separate (by omega) ?_ (pairwise_cons.mp apart).2
      (stacked_alone holds split alone new) _, ⟨[old], rfl, forall_mem_singleton.mpr ⟨?_, ?_⟩⟩, fits⟩
    · rw [split]
      exact fun c inRest => mem_cons_of_mem old inRest
    · rw [split]
      exact mem_cons_self
    · refine forall_mem_cons.mpr ⟨separate old (split ▸ mem_cons_self), ?_⟩
      exact fun c inRest => ((pairwise_cons.mp apart).1 c inRest).symm
  · rw [if_neg alone]
    have stacked := holds.stacked
    have top := holds.nextFree_le
    have nextFree := holds.nextFree_eq
    rw [split] at stacked
    exact ⟨moveTo_holds holds separate (by omega) (fun c inChunks => split ▸ inChunks) apart
      (.older (stacked.raise (by omega) le_rfl)) _, .none rfl, fits⟩

theorem makeRoom_holds (fresh : AnswersFresh h chunkfun) (length : Nat)
    : (h.makeRoom length chunkfun).Holds live ∧ h.Releases (h.makeRoom length chunkfun)
      ∧ (h.makeRoom length chunkfun).nextFree + length ≤ (h.makeRoom length chunkfun).chunkLimit
        := by
  unfold makeRoom
  split
  case isTrue => exact newchunk_holds holds fresh length
  case isFalse room => exact ⟨holds, .none rfl, by omega⟩

/-- Bytes written behind the growing object. -/
theorem Obstack.Holds.extend (bytes : List UInt8) (room : h.nextFree + bytes.length ≤ h.chunkLimit)
    : Obstack.Holds
        { h with
          memory := h.memory.store h.nextFree bytes,
          nextFree := h.nextFree + bytes.length } (live.grow bytes) := by
  obtain ⟨c, rest, chunks_eq, limit_eq, base⟩ := holds.current
  have nextFree := holds.nextFree_eq
  have head := start_lt_first h.alignmentMask c
  exact {
    power := holds.power
    current := holds.current
    first_le := holds.first_le
    apart := holds.apart
    nextFree_le := room
    nextFree_eq := by
      show h.nextFree + bytes.length = h.objectBase + (live.growing ++ bytes).length
      rw [length_append]
      omega
    growing := by
      show (h.memory.store h.nextFree bytes).slice h.objectBase (live.growing ++ bytes).length
        = live.growing ++ bytes
      rw [nextFree, length_append, Memory.slice_store_append, holds.growing]
    aligned := holds.aligned
    stacked := holds.stacked
    contents := by
      apply contents_congr holds.contents
      intro o member x low high
      apply Memory.store_outside
      by_contra inside
      have avoids := holds.stacked.avoids chunks_eq holds.apart (show h.objectBase ≤ x by omega)
        (by omega) (by omega) member
      omega
    empty := holds.empty
  }

/-- The bytes that are there become part of the growing object. -/
theorem Obstack.Holds.blank {length : Nat} (room : h.nextFree + length ≤ h.chunkLimit)
    : Obstack.Holds { h with nextFree := h.nextFree + length }
        (live.grow (h.memory.slice h.nextFree length)) := by
  have nextFree := holds.nextFree_eq
  exact {
    power := holds.power
    current := holds.current
    first_le := holds.first_le
    apart := holds.apart
    nextFree_le := room
    nextFree_eq := by
      show h.nextFree + length = h.objectBase + (live.growing ++ _).length
      rw [length_append, Memory.length_slice]
      omega
    growing := by
      show h.memory.slice h.objectBase (live.growing ++ _).length = live.growing ++ _
      rw [length_append, Memory.length_slice, Memory.slice_add, holds.growing, nextFree]
    aligned := holds.aligned
    stacked := holds.stacked
    contents := holds.contents
    empty := holds.empty
  }

theorem finish_next
    : h.finish.2.objectBase = h.finish.2.nextFree ∧ h.nextFree ≤ h.finish.2.nextFree
      ∧ h.finish.2.nextFree ≤ h.chunkLimit
      ∧ (h.alignmentMask + 1 ∣ h.finish.2.nextFree ∨ h.finish.2.nextFree = h.chunkLimit) := by
  have le := holds.nextFree_le
  have aligned_le := le_ptrAlign h.nextFree h.alignmentMask
  refine ⟨rfl, ?_⟩
  unfold finish
  dsimp only
  split
  case isTrue => exact ⟨le, le_rfl, .inr rfl⟩
  case isFalse inside =>
      exact ⟨aligned_le, Nat.not_lt.mp inside, .inl (dvd_ptrAlign holds.power _)⟩

/-- The finished object joins the others, and an empty one begins behind it. -/
theorem finish_holds
    : h.finish.2.Holds (live.finish h.finish.1 h.finish.2.current) := by
  obtain ⟨c, rest, chunks_eq, limit_eq, base⟩ := holds.current
  have nextFree := holds.nextFree_eq
  have current : h.finish.2.current = c :=
    current_eq (show h.finish.2.chunks = c :: rest from chunks_eq)
  obtain ⟨base_eq, low, high, aligned⟩ := finish_next holds
  rw [current]
  have object : LiveObject.In h.alignmentMask
      { addr := h.objectBase, bytes := live.growing, chunk := c } c h.finish.2.objectBase := {
    chunk := rfl
    low := base
    high := by
      show h.objectBase + live.growing.length ≤ _
      omega
    top_le := by omega
    aligned := limit_eq ▸ holds.aligned
  }
  exact {
    power := holds.power
    current := ⟨c, rest, chunks_eq, limit_eq, by
      show c.first h.alignmentMask ≤ h.finish.2.objectBase
      omega⟩
    first_le := holds.first_le
    apart := holds.apart
    nextFree_le := high
    nextFree_eq := rfl
    growing := rfl
    aligned := aligned
    stacked := by
      have stacked := holds.stacked
      rw [chunks_eq] at stacked
      show Stacked h.alignmentMask h.chunks h.finish.2.objectBase (_ :: live.objects)
      rw [chunks_eq]
      exact .here object stacked
    contents := forall_mem_cons.mpr ⟨holds.growing, holds.contents⟩
    empty := by
      intro o member here isEmpty
      show (if h.nextFree = h.objectBase then true else h.maybeEmptyObject) = true
      rcases mem_cons.mp member with rfl | later
      · have zero : live.growing.length = 0 := length_eq_zero_iff.mpr isEmpty
        rw [if_pos (by omega)]
      · split
        · rfl
        · exact holds.empty o later (here.trans (current.trans (current_eq chunks_eq).symm)) isEmpty
  }

end

theorem Stacked.split (stacked : Stacked mask chunks top objects) {index : Nat}
    (found : objects[index]? = some o)
    : ∃ newer tail, chunks = newer ++ o.chunk :: tail
      ∧ Stacked mask (o.chunk :: tail) o.addr (objects.drop (index + 1)) := by
  induction stacked generalizing index with
  | nil => exact absurd found (by simp)
  | @here c chunks top o' objects within rest ih =>
    cases index with
    | zero =>
      obtain rfl := Option.some.inj found
      rw [within.chunk]
      exact ⟨[], chunks, rfl, rest⟩
    | succ index => exact ih found
  | @older c d chunks top objects rest ih =>
    obtain ⟨newer, tail, split, below⟩ := ih found
    exact ⟨c :: newer, tail, by rw [split]; rfl, below⟩

theorem freeLoop_chunk {newer tail : List Chunk} (apart : (newer ++ o.chunk :: tail).Pairwise Chunk.Apart)
    (first : o.chunk.first mask ≤ o.addr) (last : o.addr ≤ o.chunk.limit)
    : freeLoop o.addr (newer ++ o.chunk :: tail) = (o.chunk :: tail, newer.reverse) := by
  have head := start_lt_first mask o.chunk
  have size : headerSize = 16 := rfl
  induction newer with
  | nil =>
    rw [nil_append, freeLoop, if_neg (by omega)]
    rfl
  | cons c newer ih =>
    obtain ⟨separate, later⟩ := pairwise_cons.mp apart
    have skip : c.start ≥ o.addr ∨ c.limit < o.addr := by
      rcases separate o.chunk (by simp) with before | after <;> omega
    rw [cons_append, freeLoop, if_pos skip, ih later, reverse_cons]

/-- An obstack cut back to the place of one of its objects. -/
theorem Obstack.Holds.cut (holds : h.Holds live) {index : Nat} (found : live.objects[index]? = some o)
    {newer tail : List Chunk} (split : h.chunks = newer ++ o.chunk :: tail)
    (below : Stacked h.alignmentMask (o.chunk :: tail) o.addr (live.objects.drop (index + 1)))
    (flag : Bool) (flags : newer = [] → h.maybeEmptyObject = true → flag = true)
    (flagged : newer ≠ [] → flag = true) (released : List Chunk)
    : Obstack.Holds
        { h with
          chunks := o.chunk :: tail,
          released,
          maybeEmptyObject := flag,
          objectBase := o.addr,
          nextFree := o.addr,
          chunkLimit := o.chunk.limit }
        { objects := live.objects.drop (index + 1), growing := [] } := by
  have member := mem_of_getElem? found
  obtain ⟨_, first, last, aligned⟩ := holds.stacked.inside member
  exact {
    power := holds.power
    current := ⟨o.chunk, tail, rfl, rfl, first⟩
    first_le := by
      intro c inChunks
      apply holds.first_le
      rw [split]
      exact mem_append_right _ inChunks
    apart := by
      have apart := holds.apart
      rw [split] at apart
      exact (pairwise_append.mp apart).2.1
    nextFree_le := by
      show o.addr ≤ o.chunk.limit
      omega
    nextFree_eq := rfl
    growing := rfl
    aligned := aligned
    stacked := below
    contents := fun o' inDrop => holds.contents o' (mem_of_mem_drop inDrop)
    empty := by
      intro o' inDrop here isEmpty
      cases newer with
      | nil =>
        refine flags rfl (holds.empty o' (mem_of_mem_drop inDrop) ?_ isEmpty)
        exact here.trans (current_eq (show h.chunks = o.chunk :: tail from split)).symm
      | cons c newer => exact flagged (by simp)
  }

/-- `obstack_free` cuts the obstack back to the place of the object. -/
theorem free_holds_obstack (holds : h.Holds live) {index : Nat} (found : live.objects[index]? = some o)
    : ∃ after, h.free o.addr = some after
      ∧ after.Holds { objects := live.objects.drop (index + 1), growing := [] }
      ∧ h.Releases after
      ∧ after.current = o.chunk ∧ after.objectBase = o.addr ∧ after.nextFree = o.addr := by
  obtain ⟨c, rest, chunks_eq, limit_eq, base⟩ := holds.current
  have member := mem_of_getElem? found
  obtain ⟨_, first, last, _⟩ := holds.stacked.inside member
  obtain ⟨newer, tail, split, below⟩ := holds.stacked.split found
  have apart := holds.apart
  have head := start_lt_first h.alignmentMask o.chunk
  unfold Obstack.free
  rw [chunks_eq]
  dsimp only
  split
  case isTrue inside =>
    have here : newer = [] := by
      cases newer with
      | nil => rfl
      | cons d newer =>
        exfalso
        rw [split] at apart chunks_eq
        obtain ⟨rfl, _⟩ := List.cons.inj chunks_eq
        have separate := (pairwise_cons.mp apart).1 o.chunk (by simp)
        rcases separate with before | after <;> omega
    rw [here] at split
    obtain ⟨rfl, rfl⟩ := List.cons.inj (split.symm.trans chunks_eq)
    refine ⟨_, rfl, ?_, .none rfl, rfl, rfl, rfl⟩
    have next := holds.cut found (show h.chunks = [] ++ o.chunk :: tail from split) below
      h.maybeEmptyObject (fun _ flag => flag) (fun no => absurd rfl no) h.released
    rwa [← limit_eq] at next
  case isFalse =>
    unfold freeFunction
    rw [split, freeLoop_chunk (split ▸ apart) first (by omega)]
    rw [split] at apart
    obtain ⟨-, left, across⟩ := pairwise_append.mp apart
    refine ⟨_, rfl, ?_, ⟨newer.reverse, rfl, fun c gone => ?_⟩, rfl, rfl, rfl⟩
    · apply holds.cut found split below
      · intro none flag
        rw [none]
        exact flag
      · intro some
        rw [if_neg]
        simpa using some
    · have inNewer := mem_reverse.mp gone
      refine ⟨split ▸ mem_append_left _ inNewer, fun d inLeft => ?_⟩
      exact (across c inNewer d inLeft).symm

----
-- Runs
----

def LiveObject.Covers (o : LiveObject) (x : Nat) : Prop := o.addr ≤ x ∧ x < o.addr + o.bytes.length

/-- What a caller relies on: the objects that have not been freed hold the bytes grown into them,
lie in chunks that have not been released and share no byte; those with bytes are aligned, and the
growing object has its bytes too.
-/
structure Obstack.Sound (h : Obstack) (live : LiveObjects) : Prop where
  contents : ∀ o ∈ live.objects, h.memory.slice o.addr o.bytes.length = o.bytes
  inside : ∀ o ∈ live.objects, o.chunk ∈ h.chunks
    ∧ o.chunk.start + headerSize ≤ o.addr ∧ o.addr + o.bytes.length ≤ o.chunk.limit
  disjoint : live.objects.Pairwise fun newer older => ∀ x, newer.Covers x → ¬older.Covers x
  aligned : ∀ o ∈ live.objects, o.bytes ≠ [] → h.alignmentMask + 1 ∣ o.addr
  growing : h.memory.slice h.objectBase live.growing.length = live.growing

theorem Stacked.disjoint (stacked : Stacked mask chunks top objects)
    (apart : chunks.Pairwise Chunk.Apart)
    : objects.Pairwise fun newer older => ∀ x, newer.Covers x → ¬older.Covers x := by
  induction stacked with
  | nil => exact List.Pairwise.nil
  | @here c chunks top o objects within rest ih =>
    refine List.Pairwise.cons ?_ (ih apart)
    intro older member x covers inOlder
    have head := start_lt_first mask c
    have low := within.low
    have high := within.high
    have top_le := within.top_le
    unfold LiveObject.Covers at covers inOlder
    have avoids := rest.avoids rfl apart (show o.addr ≤ x by omega) (by omega) (by omega) member
    omega
  | older rest ih => exact ih (pairwise_cons.mp apart).2

theorem Obstack.Holds.sound (holds : h.Holds live) : h.Sound live where
  contents := holds.contents
  inside := by
    intro o member
    obtain ⟨inChunks, first, last, _⟩ := holds.stacked.inside member
    exact ⟨inChunks, Nat.le_trans (start_lt_first h.alignmentMask o.chunk) first, last⟩
  disjoint := holds.stacked.disjoint holds.apart
  aligned := by
    intro o member nonempty
    obtain ⟨_, _, last, aligned⟩ := holds.stacked.inside member
    have pos := length_pos_iff.mpr nonempty
    rcases aligned with aligned | atEnd
    · exact aligned
    · omega
  growing := holds.growing

/-- The call is one that the caller may make: lengths are below `2 ^ 30`, and an object that is
freed has been finished.
-/
def ObstackOp.Valid (live : LiveObjects) : ObstackOp → Prop
  | .grow bytes => bytes.length < 2 ^ 30
  | .grow0 bytes => bytes.length < 2 ^ 30
  | .grow1 _ => True
  | .blank length => length < 2 ^ 30
  | .finish => True
  | .alloc length => length < 2 ^ 30
  | .copy bytes => bytes.length < 2 ^ 30
  | .free index => index < live.objects.length

/-- The chunks that a call releases are chunks of the obstack that hold none of the objects, empty ones
included.
-/
def Obstack.ReleasesNone (h after : Obstack) (objects : List LiveObject) : Prop :=
  ∃ gone, after.released = gone ++ h.released
    ∧ ∀ c ∈ gone, c ∈ h.chunks ∧ ∀ o ∈ objects, o.chunk.Apart c

/-- Along the run of valid calls from `h`, with chunks from fresh regions, the obstack is sound
for the objects that the calls make and free, and no call releases a chunk of an object that is left;
`obstack_free` leaves the obstack where the object was begun.
-/
def ObstackRuns (h : Obstack) (live : LiveObjects) : List (ObstackOp × (Nat → Nat)) → Prop
  | [] => h.Sound live
  | (op, chunkfun) :: calls =>
    h.Sound live
    ∧ (op.Valid live → AnswersFresh h chunkfun
      → ∃ value after, obstackStep h live chunkfun op = some (value, after)
        ∧ (∀ index o, op = .free index → live.objects[index]? = some o
          → after.current = o.chunk ∧ after.objectBase = o.addr ∧ after.nextFree = o.addr)
        ∧ h.ReleasesNone after (live.next value after op).objects
        ∧ ObstackRuns after (live.next value after op) calls)

section

variable (holds : h.Holds live)
include holds

section

variable (fresh : AnswersFresh h chunkfun)
include fresh

theorem grow_holds (bytes : List UInt8)
    : (h.grow bytes chunkfun).Holds (live.grow bytes) ∧ h.Releases (h.grow bytes chunkfun) := by
  obtain ⟨next, released, room⟩ := makeRoom_holds holds fresh bytes.length
  exact ⟨next.extend bytes room, released⟩

theorem grow0_holds (bytes : List UInt8)
    : (h.grow0 bytes chunkfun).Holds (live.grow (bytes ++ [0]))
      ∧ h.Releases (h.grow0 bytes chunkfun) := by
  obtain ⟨next, released, room⟩ := makeRoom_holds holds fresh (bytes.length + 1)
  have extended := next.extend (bytes ++ [0]) (by simpa using room)
  rw [← Memory.store_store_append, length_append] at extended
  exact ⟨extended, released⟩

/-- `obstack_blank` adds the bytes that are there. -/
theorem blank_holds (length : Nat)
    : (h.blank length chunkfun).Holds (live.grow ((h.blank length chunkfun).memory.slice
          ((h.blank length chunkfun).nextFree - length) length))
      ∧ h.Releases (h.blank length chunkfun) := by
  obtain ⟨next, released, room⟩ := makeRoom_holds holds fresh length
  have place : (h.blank length chunkfun).nextFree - length = (h.makeRoom length chunkfun).nextFree :=
    Nat.add_sub_cancel _ _
  rw [place]
  exact ⟨next.blank room, released⟩

end

/-- The step lemma: one operation keeps the invariant and releases no object in use. -/
theorem obstackStep_holds {op : ObstackOp} (valid : op.Valid live) (fresh : AnswersFresh h chunkfun)
    : ∃ value after, obstackStep h live chunkfun op = some (value, after)
      ∧ after.Holds (live.next value after op) ∧ h.Releases after
      ∧ ∀ index o, op = .free index → live.objects[index]? = some o
        → after.current = o.chunk ∧ after.objectBase = o.addr ∧ after.nextFree = o.addr := by
  cases op with
  | grow bytes =>
    obtain ⟨grown, released⟩ := grow_holds holds fresh bytes
    exact ⟨none, _, rfl, grown, released, fun _ _ no => (nomatch no)⟩
  | grow0 bytes =>
    obtain ⟨grown, released⟩ := grow0_holds holds fresh bytes
    exact ⟨none, _, rfl, grown, released, fun _ _ no => (nomatch no)⟩
  | grow1 datum =>
    obtain ⟨grown, released⟩ := grow_holds holds fresh [datum]
    exact ⟨none, _, rfl, grown, released, fun _ _ no => (nomatch no)⟩
  | blank length =>
    obtain ⟨blanked, released⟩ := blank_holds holds fresh length
    exact ⟨none, _, rfl, blanked, released, fun _ _ no => (nomatch no)⟩
  | finish => exact ⟨_, _, rfl, finish_holds holds, .none rfl, fun _ _ no => (nomatch no)⟩
  | alloc length =>
    obtain ⟨blanked, released⟩ := blank_holds holds fresh length
    refine ⟨_, _, rfl, ?_, released, fun _ _ no => (nomatch no)⟩
    have place : (h.blank length chunkfun).nextFree - length
        = (h.blank length chunkfun).objectBase + live.growing.length := by
      rw [blanked.nextFree_eq]
      simp only [LiveObjects.grow, length_append, Memory.length_slice]
      omega
    have finished := finish_holds blanked
    rw [place] at finished
    exact finished
  | copy bytes =>
    obtain ⟨grown, released⟩ := grow_holds holds fresh bytes
    exact ⟨_, _, rfl, finish_holds grown, released, fun _ _ no => (nomatch no)⟩
  | free index =>
    have found : live.objects[index]? = some live.objects[index] := getElem?_eq_getElem valid
    obtain ⟨after, freed, next, released, cut⟩ := free_holds_obstack holds found
    refine ⟨none, after, by simp [obstackStep, found, freed], next, released, ?_⟩
    rintro index' o same found'
    obtain rfl := ObstackOp.free.inj same
    rw [found] at found'
    obtain rfl := Option.some.inj found'
    exact cut

theorem obstackRuns_of_holds (calls : List (ObstackOp × (Nat → Nat)))
    : ObstackRuns h live calls := by
  induction calls generalizing h live with
  | nil => exact holds.sound
  | cons call calls ih =>
    refine ⟨holds.sound, ?_⟩
    intro valid fresh
    obtain ⟨value, after, step, next, ⟨gone, split, apart⟩, cut⟩ := obstackStep_holds holds valid fresh
    refine ⟨value, after, step, cut, ⟨gone, split, fun c released => ?_⟩, ih next⟩
    exact ⟨(apart c released).1, fun o member => (apart c released).2 _ (next.stacked.inside member).1⟩

end

/-- The alignment that `_obstack_begin` uses. -/
def beginAlignment (alignment : Nat) : Nat :=
  if alignment = 0 then defaultAlignment else alignment

/-- The chunk size that `_obstack_begin` uses. -/
def beginSize (size : Nat) : Nat := if size = 0 then 4096 - 32 else size

theorem begin_holds (size alignment : Nat) (chunkfun : Nat → Nat) (memory : Memory UInt8)
    (power : (beginAlignment alignment).isPowerOfTwo)
    (room : ptrAlign (chunkfun (beginSize size) + headerSize) (beginAlignment alignment - 1)
      ≤ chunkfun (beginSize size) + beginSize size)
    : (Obstack.begin size alignment chunkfun memory).Holds { objects := [], growing := [] } := by
  have pos := Nat.pos_of_isPowerOfTwo power
  have mask : beginAlignment alignment - 1 + 1 = beginAlignment alignment := by omega
  exact {
    power := by
      show (beginAlignment alignment - 1 + 1).isPowerOfTwo
      rwa [mask]
    current := ⟨_, [], rfl, rfl, le_rfl⟩
    first_le := forall_mem_singleton.mpr room
    apart := pairwise_singleton _ _
    nextFree_le := room
    nextFree_eq := rfl
    growing := rfl
    aligned := .inl (by
      show beginAlignment alignment - 1 + 1 ∣ _
      apply dvd_ptrAlign
      rwa [mask])
    stacked := .nil
    contents := fun o member => absurd member not_mem_nil
    empty := fun o member => absurd member not_mem_nil
  }

end Nglibc.Malloc
