import Nglibc.Strings.WordcopyRuns

/-! `memmove` of `string/memmove.c`, with the copies of `sysdeps/generic/memcopy.h`. No page is copied
virtually, since `PAGE_COPY_THRESHOLD` is 0, and `memcpy` is not used.
-/

namespace Nglibc.Strings.Wordwise

open Memory

/-- The memory and the two pointers of `memmove`. -/
structure Copying where
  mem : Memory UInt8
  dstp : Int
  srcp : Int

def byteCopyFwd : Nat → Copying → Copying
  | 0, s => s
  | nbytes + 1, s =>
    byteCopyFwd nbytes
      { mem := s.mem.store (address s.dstp) [s.mem (address s.srcp)], srcp := s.srcp + 1,
        dstp := s.dstp + 1 }

def byteCopyBwd : Nat → Copying → Copying
  | 0, s => s
  | nbytes + 1, s =>
    byteCopyBwd nbytes
      { mem := s.mem.store (address (s.dstp - 1)) [s.mem (address (s.srcp - 1))],
        srcp := s.srcp - 1,
        dstp := s.dstp - 1 }

/-- `WORD_COPY_FWD`; the number of bytes that are left is `nbytes % OPSIZ`. -/
def wordCopyFwd (nbytes : Nat) (s : Copying) : Option Copying :=
  let copied :=
    if s.srcp % opsiz = 0 then wordcopyFwdAligned s.mem s.dstp s.srcp (nbytes / opsiz)
    else wordcopyFwdDestAligned s.mem s.dstp s.srcp (nbytes / opsiz)
  let whole := nbytes - nbytes % opsiz
  copied.map fun mem => { mem, srcp := s.srcp + whole, dstp := s.dstp + whole }

def wordCopyBwd (nbytes : Nat) (s : Copying) : Option Copying :=
  let copied :=
    if s.srcp % opsiz = 0 then wordcopyBwdAligned s.mem s.dstp s.srcp (nbytes / opsiz)
    else wordcopyBwdDestAligned s.mem s.dstp s.srcp (nbytes / opsiz)
  let whole := nbytes - nbytes % opsiz
  copied.map fun mem => { mem, srcp := s.srcp - whole, dstp := s.dstp - whole }

/-- The branch of `memmove` from the beginning to the end. -/
def memmoveFwd (len : Nat) (s : Copying) : Option Copying :=
  if len ≥ opTThres then
    let before := (-s.dstp % opsiz).toNat
    let len := len - before
    (wordCopyFwd len (byteCopyFwd before s)).map (byteCopyFwd (len % opsiz))
  else some (byteCopyFwd len s)

/-- The branch of `memmove` from the end to the beginning, for pointers to the ends. -/
def memmoveBwd (len : Nat) (s : Copying) : Option Copying :=
  if len ≥ opTThres then
    let behind := (s.dstp % opsiz).toNat
    let len := len - behind
    (wordCopyBwd len (byteCopyBwd behind s)).map (byteCopyBwd (len % opsiz))
  else some (byteCopyBwd len s)

/-- `memmove`: its result, and the memory behind it. -/
def memmove (mem : Memory UInt8) (dest src len : Nat) : Option (Nat × Memory UInt8) :=
  let s : Copying := { mem, dstp := dest, srcp := src }
  let copied :=
    if ((s.dstp - s.srcp) % 2 ^ 64).toNat ≥ len then memmoveFwd len s
    else memmoveBwd len { s with srcp := s.srcp + len, dstp := s.dstp + len }
  copied.map fun s => (dest, s.mem)

/-- Two regions of one size in the address space. -/
structure Regions where
  dest : Nat
  src : Nat
  size : Nat
  dest_inside : dest + size ≤ 2 ^ 64
  src_inside : src + size ≤ 2 ^ 64

namespace Regions

/-- The memory in which the bytes from `a` up to `b` of the source are moved. -/
def moved (r : Regions) (m : Memory UInt8) (a b : Nat) : Memory UInt8 :=
  fun x => if r.dest + a ≤ x ∧ x < r.dest + b then m (r.src + (x - r.dest)) else m x

/-- The source does not lie below the destination in the same place. -/
def Upwards (r : Regions) : Prop := r.dest ≤ r.src ∨ r.src + r.size ≤ r.dest

/-- The destination does not lie below the source. -/
def Downwards (r : Regions) : Prop := r.src ≤ r.dest

variable {r : Regions} {m : Memory UInt8} {a b k j n : Nat} {v v' : BitVec 64}

theorem moved_self : r.moved m a a = m := by
  funext x
  rw [moved, if_neg (by omega)]

theorem moved_all : r.moved m 0 r.size = m.store r.dest (m.slice r.src r.size) := by
  funext x
  rw [moved]
  by_cases inside : r.dest ≤ x ∧ x < r.dest + r.size
  · have within : x - r.dest < (m.slice r.src r.size).length := by rw [length_slice]; omega
    rw [if_pos (by omega), store, if_pos inside.1, List.getElem?_eq_getElem within, Option.getD_some,
      getElem_slice]
  · rw [if_neg (by omega), store_outside (by rw [length_slice]; omega)]

theorem Upwards.source (upwards : r.Upwards) (left : k ≤ j) (inside : j < r.size)
    : r.moved m 0 k (r.src + j) = m (r.src + j) := by
  rw [moved, if_neg]
  rcases upwards with below | above
  · omega
  · omega

theorem Downwards.source (downwards : r.Downwards) (left : j < k)
    : r.moved m k r.size (r.src + j) = m (r.src + j) := by
  have place : r.src ≤ r.dest := downwards
  rw [moved, if_neg (by omega)]

/-- A byte stored at its place extends the part that was moved. -/
theorem store_moved {c : UInt8} {a b a' b' : Nat} (same : c = m (r.src + k))
    (range : ∀ j, a' ≤ j ∧ j < b' ↔ j = k ∨ a ≤ j ∧ j < b)
    : (r.moved m a b).store (r.dest + k) [c] = r.moved m a' b' := by
  funext x
  have range := range (x - r.dest)
  rw [store_singleton, moved, moved]
  by_cases here : x = r.dest + k
  · have place : x - r.dest = k := by omega
    rw [if_pos here, if_pos (by omega), place, same]
  · rw [if_neg here]
    by_cases inside : r.dest + a ≤ x ∧ x < r.dest + b
    · rw [if_pos inside, if_pos (by omega)]
    · rw [if_neg inside, if_neg (by omega)]

theorem store_behind {c : UInt8} (same : c = m (r.src + k))
    : (r.moved m 0 k).store (r.dest + k) [c] = r.moved m 0 (k + 1) :=
  store_moved same (by omega)

theorem store_before {c : UInt8} (same : c = m (r.src + k)) (inside : k < b)
    : (r.moved m (k + 1) b).store (r.dest + k) [c] = r.moved m k b :=
  store_moved same (by omega)

def HoldsWord (r : Regions) (m : Memory UInt8) (k : Nat) (v : BitVec 64) : Prop :=
  ∀ i < 8, byteAt v i = m (r.src + k + i)

theorem HoldsWord.store_moved (word : r.HoldsWord m k v) {a b a' b' : Nat}
    (range : ∀ j, a' ≤ j ∧ j < b' ↔ (k ≤ j ∧ j < k + 8) ∨ a ≤ j ∧ j < b)
    : (r.moved m a b).storeWord (r.dest + k) v = r.moved m a' b' := by
  funext x
  have range := range (x - r.dest)
  rw [storeWord_apply, moved, moved]
  by_cases here : r.dest + k ≤ x ∧ x < r.dest + k + 8
  · have place : r.src + k + (x - (r.dest + k)) = r.src + (x - r.dest) := by omega
    rw [if_pos here, if_pos (by omega), word _ (by omega), place]
  · rw [if_neg here]
    by_cases inside : r.dest + a ≤ x ∧ x < r.dest + b
    · rw [if_pos inside, if_pos (by omega)]
    · rw [if_neg inside, if_neg (by omega)]

theorem HoldsWord.store_behind (word : r.HoldsWord m k v)
    : (r.moved m 0 k).storeWord (r.dest + k) v = r.moved m 0 (k + 8) :=
  word.store_moved (by omega)

theorem HoldsWord.store_before (word : r.HoldsWord m k v) (inside : k + 8 ≤ b)
    : (r.moved m (k + 8) b).storeWord (r.dest + k) v = r.moved m k b :=
  word.store_moved (by omega)

end Regions

theorem address_eq {p : Int} {a : Nat} (place : p = a) (inside : a < 2 ^ 64) : address p = a := by
  rw [address]
  omega

end Nglibc.Strings.Wordwise

/-! `memmove` moves the source to the destination, upwards or downwards: each of its parts moves the next
bytes, and the bytes that it still has to read are the original ones.
-/

namespace Nglibc.Strings.Wordwise

open Memory

variable {r : Regions} {m : Memory UInt8} {k n t : Nat} {s : Copying} {v v' : BitVec 64} {p : Int}

/-- The first `k` bytes are moved, and the pointers are behind them. -/
structure Copying.Up (r : Regions) (m : Memory UInt8) (k : Nat) (s : Copying) : Prop where
  mem : s.mem = r.moved m 0 k
  dstp : s.dstp = (r.dest + k : Nat)
  srcp : s.srcp = (r.src + k : Nat)
  inside : k ≤ r.size

theorem Copying.Up.bytes (upwards : r.Upwards) (at_ : s.Up r m k) (room : k + n ≤ r.size)
    : (byteCopyFwd n s).Up r m (k + n) := by
  induction n generalizing k s with
  | zero => exact at_
  | succ n ih =>
    have destInside := r.dest_inside
    have srcInside := r.src_inside
    have dst : address s.dstp = r.dest + k := address_eq at_.dstp (by omega)
    have src : address s.srcp = r.src + k := address_eq at_.srcp (by omega)
    have read : s.mem (r.src + k) = m (r.src + k) := by
      rw [at_.mem]
      exact upwards.source le_rfl (by omega)
    rw [← Nat.add_assoc, Nat.add_right_comm]
    apply ih
    · refine ⟨?_, ?_, ?_, by omega⟩
      · rw [dst, src, read, at_.mem]
        exact Regions.store_behind rfl
      · rw [at_.dstp]
        rfl
      · rw [at_.srcp]
        rfl
    · omega

private theorem Regions.fwdAligned_schedule (upwards : r.Upwards) (room : k + 8 * n ≤ r.size)
    : AlignedSchedule n (fun t => ((r.src + k : Nat) : Int) + t * opsiz)
        (fun t => ((r.dest + k : Nat) : Int) + t * opsiz) (fun t => r.moved m 0 (k + 8 * t))
        (fun t => r.HoldsWord m (k + 8 * t)) := by
  have destInside := r.dest_inside
  have srcInside := r.src_inside
  have width : (opsiz : Int) = 8 := rfl
  constructor
  · intro w t before left i inside
    have place : address (((r.src + k : Nat) : Int) + t * opsiz) = r.src + (k + 8 * t) :=
      address_eq (by push_cast; rw [width]; ring) (by omega)
    have read : r.moved m 0 (k + 8 * w) (r.src + (k + 8 * t + i)) = m (r.src + (k + 8 * t + i)) :=
      upwards.source (by omega) (by omega)
    rw [place, byteAt_load inside, Nat.add_assoc]
    exact read
  · intro t v left word
    have place : address (((r.dest + k : Nat) : Int) + t * opsiz) = r.dest + (k + 8 * t) :=
      address_eq (by push_cast; rw [width]; ring) (by omega)
    rw [place]
    exact word.store_behind

/-- The bytes of an aligned word that belong to the `n` words from `k` on, where the source is `o` bytes
behind an aligned address.
-/
def Regions.HoldsPart (r : Regions) (m : Memory UInt8) (k n o t : Nat) (v : BitVec 64) : Prop :=
  ∀ i < 8, o ≤ 8 * t + i → 8 * t + i < o + 8 * n → byteAt v i = m (r.src + k - o + 8 * t + i)

theorem Regions.HoldsPart.merge {o : Nat} (low : 0 < o) (high : o < 8) (place : o ≤ r.src + k)
    (left : t < n) (first : r.HoldsPart m k n o t v) (second : r.HoldsPart m k n o (t + 1) v')
    : r.HoldsWord m (k + 8 * t) (Nglibc.Strings.Wordwise.merge v (8 * o) v' (64 - 8 * o)) := by
  intro i inside
  rw [Nglibc.Strings.Wordwise.merge, byteAt_shifts inside low high]
  by_cases near : i + o < 8
  · have address : r.src + k - o + 8 * t + (i + o) = r.src + (k + 8 * t) + i := by omega
    rw [if_pos near, first _ near (by omega) (by omega), address]
  · have address : r.src + k - o + 8 * (t + 1) + (i + o - 8) = r.src + (k + 8 * t) + i := by omega
    rw [if_neg near, second _ (by omega) (by omega) (by omega), address]

theorem alignDown_eq {a : Nat} : alignDown a = (a - a % 8 : Nat) := by
  have width : (opsiz : Int) = 8 := rfl
  rw [alignDown, width]
  omega

theorem shift1_eq {a : Nat} : shift1 a = 8 * (a % 8) := by
  have width : (opsiz : Int) = 8 := rfl
  rw [shift1, width]
  omega

theorem shift2_eq {a : Nat} : shift2 a = 64 - 8 * (a % 8) := by
  rw [shift2, shift1_eq, opsiz]

/-- Words of the source that is not aligned are copied upwards. -/
theorem Regions.fwdDestAligned_schedule (upwards : r.Upwards) (room : k + 8 * n ≤ r.size)
    (off : (r.src + k) % 8 ≠ 0)
    : MergedSchedule n (fun t => alignDown (r.src + k : Nat) + t * opsiz)
        (fun t => ((r.dest + k : Nat) : Int) + t * opsiz) (fun t => r.moved m 0 (k + 8 * t))
        (fun t => r.HoldsPart m k n ((r.src + k) % 8) t)
        (fun v v' => merge v (shift1 (r.src + k : Nat)) v' (shift2 (r.src + k : Nat))) := by
  have destInside := r.dest_inside
  have srcInside := r.src_inside
  have width : (opsiz : Int) = 8 := rfl
  have low := Nat.pos_of_ne_zero off
  have high : (r.src + k) % 8 < 8 := Nat.mod_lt _ (by omega)
  have round := @alignDown_eq (r.src + k)
  constructor
  · intro w t before left i inside from_ below
    have place : address (alignDown (r.src + k : Nat) + t * opsiz)
        = r.src + k - (r.src + k) % 8 + 8 * t :=
      address_eq (by rw [round, width]; push_cast; ring) (by omega)
    have target : r.src + k - (r.src + k) % 8 + 8 * t + i
        = r.src + (k + (8 * t + i) - (r.src + k) % 8) := by omega
    rw [place, byteAt_load inside, target]
    exact upwards.source (by omega) (by omega)
  · intro t v v' left first second
    have place : address (((r.dest + k : Nat) : Int) + t * opsiz) = r.dest + (k + 8 * t) :=
      address_eq (by push_cast; rw [width]; ring) (by omega)
    rw [place]
    exact (Regions.HoldsPart.merge low high (Nat.mod_le _ _) left first second).store_behind

/-- `WORD_COPY_FWD` moves the whole words. -/
theorem Copying.Up.words (upwards : r.Upwards) (at_ : s.Up r m k) (room : k + n ≤ r.size)
    : ∃ s', wordCopyFwd n s = some s' ∧ s'.Up r m (k + (n - n % 8)) := by
  have width : opsiz = 8 := rfl
  have whole : k + 8 * (n / 8) = k + (n - n % 8) := by omega
  have start : r.moved m 0 (k + 8 * 0) = s.mem := at_.mem.symm
  have copied : (if s.srcp % opsiz = 0 then wordcopyFwdAligned s.mem s.dstp s.srcp (n / opsiz)
      else wordcopyFwdDestAligned s.mem s.dstp s.srcp (n / opsiz))
      = some (r.moved m 0 (k + (n - n % 8))) := by
    rw [at_.srcp, at_.dstp, width, ← whole, ← start]
    by_cases aligned : ((r.src + k : Nat) : Int) % (8 : Nat) = 0
    · have schedule := @Regions.fwdAligned_schedule r m k (n / 8) upwards (by omega)
      have copied := wordcopyFwdAligned_eq schedule
      rw [if_pos aligned]
      exact copied
    · have schedule := @Regions.fwdDestAligned_schedule r m k (n / 8) upwards (by omega) (by omega)
      have copied := wordcopyFwdDestAligned_eq schedule
      rw [if_neg aligned]
      exact copied
  rw [wordCopyFwd, copied]
  refine ⟨_, rfl, rfl, ?_, ?_, by omega⟩
  · rw [at_.dstp, width]
    push_cast
    ring
  · rw [at_.srcp, width]
    push_cast
    ring

/-- The branch from the beginning to the end moves all bytes. -/
theorem Copying.Up.all (upwards : r.Upwards) (at_ : s.Up r m 0)
    : ∃ s', memmoveFwd r.size s = some s' ∧ s'.Up r m r.size := by
  have width : opsiz = 8 := rfl
  have threshold : opTThres = 16 := rfl
  rw [memmoveFwd]
  by_cases long : r.size ≥ opTThres
  · have short : (-s.dstp % opsiz).toNat < 8 := by rw [width]; omega
    have prologue := at_.bytes upwards (show 0 + (-s.dstp % opsiz).toNat ≤ r.size by omega)
    rw [Nat.zero_add] at prologue
    rw [if_pos long]
    dsimp only
    generalize (-s.dstp % opsiz).toNat = before at *
    obtain ⟨s', copied, words⟩ :=
      prologue.words upwards (show before + (r.size - before) ≤ r.size by omega)
    rw [copied]
    refine ⟨_, rfl, ?_⟩
    have epilogue := words.bytes upwards
      (show before + (r.size - before - (r.size - before) % 8) + (r.size - before) % opsiz ≤ r.size by
        rw [width]
        omega)
    have total : before + (r.size - before - (r.size - before) % 8) + (r.size - before) % opsiz
        = r.size := by
      rw [width]
      omega
    rwa [total] at epilogue
  · rw [if_neg long]
    have bytes := at_.bytes upwards (show 0 + r.size ≤ r.size by omega)
    rw [Nat.zero_add] at bytes
    exact ⟨_, rfl, bytes⟩

/-- All bytes but the first `k` are moved, and the pointers are behind these. -/
structure Copying.Down (r : Regions) (m : Memory UInt8) (k : Nat) (s : Copying) : Prop where
  mem : s.mem = r.moved m k r.size
  dstp : s.dstp = (r.dest + k : Nat)
  srcp : s.srcp = (r.src + k : Nat)
  inside : k ≤ r.size

section

variable (downwards : r.Downwards)
include downwards

theorem Copying.Down.bytes (at_ : s.Down r m (k + n))
    : (byteCopyBwd n s).Down r m k := by
  induction n generalizing s with
  | zero => exact at_
  | succ n ih =>
    have destInside := r.dest_inside
    have srcInside := r.src_inside
    have inside := at_.inside
    have dstp : s.dstp - 1 = (r.dest + (k + n) : Nat) := by rw [at_.dstp]; omega
    have srcp : s.srcp - 1 = (r.src + (k + n) : Nat) := by rw [at_.srcp]; omega
    have dst : address (s.dstp - 1) = r.dest + (k + n) := address_eq dstp (by omega)
    have src : address (s.srcp - 1) = r.src + (k + n) := address_eq srcp (by omega)
    have read : s.mem (r.src + (k + n)) = m (r.src + (k + n)) := by
      rw [at_.mem]
      exact downwards.source (by omega)
    apply ih
    refine ⟨?_, dstp, srcp, by omega⟩
    rw [dst, src, read, at_.mem]
    exact Regions.store_before rfl (by omega)

private theorem Regions.bwdAligned_schedule (room : k + 8 * n ≤ r.size)
    : AlignedSchedule n (fun t => ((r.src + (k + 8 * n) : Nat) : Int) - (t + 1 : Nat) * opsiz)
        (fun t => ((r.dest + (k + 8 * n) : Nat) : Int) - (t + 1 : Nat) * opsiz)
        (fun t => r.moved m (k + 8 * (n - t)) r.size)
        (fun t => r.HoldsWord m (k + 8 * (n - (t + 1)))) := by
  have destInside := r.dest_inside
  have srcInside := r.src_inside
  have width : (opsiz : Int) = 8 := rfl
  constructor
  · intro w t before left i inside
    have place : address (((r.src + (k + 8 * n) : Nat) : Int) - (t + 1 : Nat) * opsiz)
        = r.src + (k + 8 * (n - (t + 1))) :=
      address_eq (by rw [width]; omega) (by omega)
    rw [place, byteAt_load inside, Nat.add_assoc]
    exact downwards.source (by omega)
  · intro t v left word
    have place : address (((r.dest + (k + 8 * n) : Nat) : Int) - (t + 1 : Nat) * opsiz)
        = r.dest + (k + 8 * (n - (t + 1))) :=
      address_eq (by rw [width]; omega) (by omega)
    have next : k + 8 * (n - t) = k + 8 * (n - (t + 1)) + 8 := by omega
    rw [place, next]
    exact word.store_before (by omega)

/-- Words of the source that is not aligned are copied downwards: the word `t` of a place is the one
`n - t` from below.
-/
theorem Regions.bwdDestAligned_schedule (room : k + 8 * n ≤ r.size) (off : (r.src + k) % 8 ≠ 0)
    : MergedSchedule n (fun t => alignDown (r.src + (k + 8 * n) : Nat) - t * opsiz)
        (fun t => ((r.dest + (k + 8 * n) : Nat) : Int) - (t + 1 : Nat) * opsiz)
        (fun t => r.moved m (k + 8 * (n - t)) r.size)
        (fun t => r.HoldsPart m k n ((r.src + k) % 8) (n - t))
        (fun v v' => merge v' (shift1 (r.src + (k + 8 * n) : Nat)) v
          (shift2 (r.src + (k + 8 * n) : Nat))) := by
  have destInside := r.dest_inside
  have srcInside := r.src_inside
  have width : (opsiz : Int) = 8 := rfl
  have low := Nat.pos_of_ne_zero off
  have high : (r.src + k) % 8 < 8 := Nat.mod_lt _ (by omega)
  have round := @alignDown_eq (r.src + (k + 8 * n))
  have residue : (r.src + (k + 8 * n)) % 8 = (r.src + k) % 8 := by omega
  constructor
  · intro w t before left i inside from_ below
    have place : address (alignDown (r.src + (k + 8 * n) : Nat) - t * opsiz)
        = r.src + k - (r.src + k) % 8 + 8 * (n - t) :=
      address_eq (by rw [round, width]; omega) (by omega)
    have target : r.src + k - (r.src + k) % 8 + 8 * (n - t) + i
        = r.src + (k + (8 * (n - t) + i) - (r.src + k) % 8) := by omega
    rw [place, byteAt_load inside, target]
    exact downwards.source (by omega)
  · intro t v v' left first second
    have place : address (((r.dest + (k + 8 * n) : Nat) : Int) - (t + 1 : Nat) * opsiz)
        = r.dest + (k + 8 * (n - (t + 1))) :=
      address_eq (by rw [width]; omega) (by omega)
    have next : n - t = n - (t + 1) + 1 := by omega
    have bytes : k + 8 * (n - t) = k + 8 * (n - (t + 1)) + 8 := by omega
    rw [next] at first
    rw [place, bytes, shift1_eq, shift2_eq, residue]
    exact (Regions.HoldsPart.merge low high (Nat.mod_le _ _) (by omega) second first).store_before
      (by omega)

/-- `WORD_COPY_BWD` moves the whole words. -/
theorem Copying.Down.words (at_ : s.Down r m n)
    : ∃ s', wordCopyBwd n s = some s' ∧ s'.Down r m (n % 8) := by
  have width : opsiz = 8 := rfl
  have inside := at_.inside
  have whole : n = n % 8 + 8 * (n / 8) := by omega
  have start : r.moved m (n % 8 + 8 * (n / 8 - 0)) r.size = s.mem := by
    rw [Nat.sub_zero, ← whole]
    exact at_.mem.symm
  have stop : n % 8 + 8 * (n / 8 - n / 8) = n % 8 := by omega
  have copied : (if s.srcp % opsiz = 0 then wordcopyBwdAligned s.mem s.dstp s.srcp (n / opsiz)
      else wordcopyBwdDestAligned s.mem s.dstp s.srcp (n / opsiz))
      = some (r.moved m (n % 8) r.size) := by
    have srcp : s.srcp = (r.src + (n % 8 + 8 * (n / 8)) : Nat) := by rw [← whole]; exact at_.srcp
    have dstp : s.dstp = (r.dest + (n % 8 + 8 * (n / 8)) : Nat) := by rw [← whole]; exact at_.dstp
    rw [srcp, dstp, width, ← start]
    by_cases aligned : ((r.src + (n % 8 + 8 * (n / 8)) : Nat) : Int) % (8 : Nat) = 0
    · have schedule := @Regions.bwdAligned_schedule r m (n % 8) (n / 8) downwards (by omega)
      have copied := wordcopyBwdAligned_eq schedule
      rw [stop] at copied
      rw [if_pos aligned]
      exact copied
    · have schedule :=
        @Regions.bwdDestAligned_schedule r m (n % 8) (n / 8) downwards (by omega) (by omega)
      have copied := wordcopyBwdDestAligned_eq schedule
      rw [stop] at copied
      rw [if_neg aligned]
      exact copied
  rw [wordCopyBwd, copied]
  refine ⟨_, rfl, rfl, ?_, ?_, by omega⟩
  · rw [at_.dstp, width]
    dsimp only
    omega
  · rw [at_.srcp, width]
    dsimp only
    omega

/-- The branch from the end to the beginning moves all bytes. -/
theorem Copying.Down.all (at_ : s.Down r m r.size)
    : ∃ s', memmoveBwd r.size s = some s' ∧ s'.Down r m 0 := by
  have width : opsiz = 8 := rfl
  have threshold : opTThres = 16 := rfl
  rw [memmoveBwd]
  by_cases long : r.size ≥ opTThres
  · have short : (s.dstp % opsiz).toNat < 8 := by rw [width]; omega
    rw [if_pos long]
    dsimp only
    generalize (s.dstp % opsiz).toNat = behind at *
    have whole : r.size = r.size - behind + behind := by omega
    have prologue := Copying.Down.bytes downwards (whole ▸ at_)
    obtain ⟨s', copied, words⟩ := prologue.words downwards
    rw [copied]
    refine ⟨_, rfl, ?_⟩
    exact Copying.Down.bytes downwards (by rwa [Nat.zero_add])
  · rw [if_neg long]
    exact ⟨_, rfl, Copying.Down.bytes downwards (by rwa [Nat.zero_add])⟩

end

/-- `memmove` leaves the bytes of the source at the destination, and changes no others. -/
theorem memmove_moves (mem : Memory UInt8) (r : Regions)
    : memmove mem r.dest r.src r.size = some (r.dest, mem.store r.dest (mem.slice r.src r.size)) := by
  have srcInside := r.src_inside
  rw [memmove]
  by_cases forward : (((r.dest : Int) - r.src) % 2 ^ 64).toNat ≥ r.size
  · have upwards : r.Upwards := by
      by_cases below : r.dest ≤ r.src
      · exact .inl below
      · exact .inr (by omega)
    have start : Copying.Up r mem 0 { mem, dstp := r.dest, srcp := r.src } :=
      ⟨Regions.moved_self.symm, rfl, rfl, Nat.zero_le _⟩
    obtain ⟨s, copied, all⟩ := start.all upwards
    rw [if_pos forward, copied, Option.map_some, all.mem, Regions.moved_all]
  · have downwards : r.Downwards := by
      by_contra below
      rw [Regions.Downwards] at below
      omega
    have start : Copying.Down r mem r.size
        { mem, dstp := (r.dest : Int) + r.size, srcp := (r.src : Int) + r.size } :=
      ⟨Regions.moved_self.symm, rfl, rfl, le_rfl⟩
    obtain ⟨s, copied, all⟩ := start.all downwards
    rw [if_neg forward, copied, Option.map_some, all.mem, Regions.moved_all]

end Nglibc.Strings.Wordwise
