import Nglibc.Malloc.AllocBuffer
import Nglibc.Lib.CheckedInt

/-! `__tzfile_read` of `time/tzfile.c`, from the open stream on, for 64-bit `size_t` on a
little-endian machine.
-/

namespace Nglibc.Time

open Nglibc.Malloc

structure TtInfo where
  offset : Int
  isdst : Bool
  idx : Nat
  isstd : Bool
  isgmt : Bool
deriving DecidableEq

structure Leap where
  transition : Int
  change : Int
deriving DecidableEq

/-- The tables that a file leaves, with two of their addresses. -/
structure TzFile where
  transitions : List Int
  typeIdxs : List Nat
  types : List TtInfo
  zoneNames : List UInt8
  leaps : List Leap
  tzspec : Option (List UInt8)
  ruleStdoff : Int
  daylightSaved : Bool
  tzname : List UInt8 × List UInt8
  leapsAt : UInt64
  zoneNamesAt : UInt64
deriving DecidableEq

/-- The memory around the tables: `malloc`, whose blocks are less than half of the address space,
whether `__tzstring` finds room for a string, what stands behind `zone_names`, and what stands at
`types` if there are no types.
-/
structure Surroundings where
  malloc : UInt64 → UInt64
  fits : ∀ size, malloc size ≠ 0 → (malloc size).toNat + size.toNat < 2 ^ 63
  room : List UInt8 → Bool
  behind : List UInt8
  noType : TtInfo

structure Stream where
  bytes : List UInt8
  pos : Nat
deriving DecidableEq

/-- `fread`, where all bytes are needed. -/
def Stream.read (f : Stream) (n : Nat) : Option (List UInt8 × Stream) :=
  if f.pos + n ≤ f.bytes.length then
    some ((f.bytes.drop f.pos).take n, { f with pos := f.pos + n })
  else none

/-- `getc`, with -1 for `EOF`. -/
def Stream.getc (f : Stream) : Int × Stream :=
  match f.bytes[f.pos]? with
  | some c => (c.toNat, { f with pos := f.pos + 1 })
  | none => (-1, f)

/-- `fseek` by an `off_t` from the current position. -/
def Stream.seek (f : Stream) (offset : UInt64) : Option Stream :=
  let pos := f.pos + wrap 64 offset.toNat
  if 0 ≤ pos ∧ pos < 2 ^ 63 then some { f with pos := pos.toNat } else none

def bigEndian (bytes : List UInt8) : Nat := bytes.foldl (fun value byte => value * 256 + byte.toNat) 0

def decode (bytes : List UInt8) : Int := wrap 32 (bigEndian bytes)

def decode64 (bytes : List UInt8) : Int := wrap 64 (bigEndian bytes)

/-- The decoding of a time that is stored in `width` bytes. -/
def decodeTime (width : Nat) (bytes : List UInt8) : Int :=
  if width = 4 then decode bytes else decode64 bytes

/-- `struct tzhead`, with the numbers decoded. -/
structure TzHead where
  version : UInt8
  ttisutcnt : Int
  ttisstdcnt : Int
  leapcnt : Int
  timecnt : Int
  typecnt : Int
  charcnt : Int
deriving DecidableEq

/-- The numbers of a header as values of type `size_t`. -/
structure Counts where
  transitions : UInt64
  types : UInt64
  chars : UInt64
  leaps : UInt64
  isstd : UInt64
  isgmt : UInt64
deriving DecidableEq

def TzHead.counts (head : TzHead) : Counts where
  transitions := .ofInt head.timecnt
  types := .ofInt head.typecnt
  chars := .ofInt head.charcnt
  leaps := .ofInt head.leapcnt
  isstd := .ofInt head.ttisstdcnt
  isgmt := .ofInt head.ttisutcnt

/-- `TZ_MAGIC`, "TZif". -/
def tzMagic : List UInt8 := [84, 90, 105, 102]

/-- The header at the position of the stream, if it has the magic and at most as many flags as
types.
-/
def readHead (f : Stream) : Option (TzHead × Stream) := do
  let (bytes, f) ← f.read 44
  let number i := decode ((bytes.drop i).take 4)
  let head := ⟨bytes.getD 4 0, number 20, number 24, number 28, number 32, number 36, number 40⟩
  if bytes.take 4 ≠ tzMagic then none
  else if head.counts.isstd > head.counts.types ∨ head.counts.isgmt > head.counts.types then none
  else some (head, f)

/-- The bytes of the data behind the first header. -/
def toSkip (c : Counts) : UInt64 :=
  c.transitions * (4 + 1) + c.types * 6 + c.chars + c.leaps * 8 + c.isstd + c.isgmt

/-- The headers of a file, where the first one is skipped if there is a second one, and the stream
behind them.
-/
structure Heads where
  first : Option TzHead
  head : TzHead
  f : Stream
deriving DecidableEq

/-- `trans_width`. -/
def Heads.width (heads : Heads) : Nat := if heads.first.isSome then 8 else 4

def readHeads (file : List UInt8) : Option Heads := do
  let (head, f) ← readHead ⟨file, 0⟩
  if head.version ≠ 0 then
    let f ← f.seek (toSkip head.counts)
    let (second, f) ← readHead f
    return ⟨some head, second, f⟩
  else return ⟨none, head, f⟩

def fixedSize (c : Counts) : UInt64 := c.transitions * (8 + 1) + c.types * 6 + c.chars

/-- `tzspec_len`, for the bytes that remain in the file. -/
def tzspecLen (c : Counts) (width : Nat) (rem : Int) : Option UInt64 :=
  if width = 8 then
    if rem < 0 ∨ UInt64.ofInt rem < fixedSize c then none
    else
      let len := .ofInt rem - fixedSize c
      if c.leaps.toNat > (2 ^ 64 - 1) / 12 ∨ len < c.leaps * 12 then none
      else
        let len := len - c.leaps * 12
        if len < c.isstd then none
        else
          let len := len - c.isstd
          if len = 0 ∨ len - 1 < c.isgmt then none
          else
            let len := len - (c.isgmt + 1)
            if len = 0 then none else some len
  else some 0

def totalSize (c : Counts) (len extra : UInt64) : UInt64 :=
  c.transitions * 8 + c.leaps * 16 + c.types * 8 + c.transitions + c.chars + len + extra

def allocIf (needed : Bool) (buf : AllocBuffer) (count : UInt64) : AllocBuffer :=
  if needed then (buf.allocArray 1 1 count).2 else buf

/-- The piecewise allocations: the addresses of `leaps` and `zone_names`. -/
def allocateTables (env : Surroundings) (c : Counts) (width : Nat) (len extra : UInt64)
    : Option (UInt64 × UInt64) :=
  let start := env.malloc (totalSize c len extra)
  if start = 0 then none
  else do
    let buf ← AllocBuffer.create start (totalSize c len extra)
    let (_, buf) := buf.allocArray 8 8 c.transitions
    let (leapsAt, buf) := buf.allocArray 16 8 c.leaps
    let (_, buf) := buf.allocArray 8 4 c.types
    let (_, buf) := buf.allocArray 1 1 c.transitions
    let (zoneNamesAt, buf) := buf.allocArray 1 1 c.chars
    let buf := allocIf (width = 8) buf len
    let buf := allocIf (extra > 0) buf extra
    if buf.hasFailed then none else some (leapsAt, zoneNamesAt)

def readTypes (chars : UInt64) : Nat → Stream → Option (List TtInfo × Stream)
  | 0, f => some ([], f)
  | n + 1, f => do
    let (x, f) ← f.read 4
    let (isdst, f) := f.getc
    if isdst < 0 ∨ isdst > 1 then none
    else
      let (idx, f) := f.getc
      if UInt64.ofInt idx > chars then none
      else do
        let (types, f) ← readTypes chars n f
        return (⟨decode x, isdst = 1, (idx % 256).toNat, false, false⟩ :: types, f)

def readLeaps (width : Nat) : Nat → Stream → Option (List Leap × Stream)
  | 0, f => some ([], f)
  | n + 1, f => do
    let (x, f) ← f.read width
    let (y, f) ← f.read 4
    let (leaps, f) ← readLeaps width n f
    return (⟨decodeTime width x, decode y⟩ :: leaps, f)

def readFlags : Nat → Stream → Option (List Bool × Stream)
  | 0, f => some ([], f)
  | n + 1, f => do
    let (c, f) := f.getc
    if c = -1 then none
    else do
      let (flags, f) ← readFlags n f
      return ((c ≠ 0) :: flags, f)

def setFlags (types : List TtInfo) (isstd isgmt : List Bool) : List TtInfo :=
  types.mapIdx fun i type =>
    { type with isstd := isstd.getD i false, isgmt := isgmt.getD i false }

def readTzspec (width : Nat) (len : UInt64) (f : Stream) : Option (List UInt8) :=
  if width = 8 then
    let (c, f) := f.getc
    if c ≠ 10 then none
    else
      match f.read (len - 1).toNat with
      | none => none
      | some (tzspec, _) =>
        let text := tzspec.takeWhile (· ≠ 0)
        if text.isEmpty then none else some text
  else none

/-- The string at an index of `zone_names`, which may go on behind. -/
def Surroundings.nameAt (env : Surroundings) (zoneNames : List UInt8) (idx : Nat) : List UInt8 :=
  ((zoneNames ++ env.behind).drop idx).takeWhile (· ≠ 0)

/-- The loop that finds the names, for the types of the transitions from the last one on. -/
def findNames (name : Nat → List UInt8)
    : List TtInfo → Option (List UInt8) → Option (List UInt8)
      → Option (List UInt8) × Option (List UInt8)
  | [], std, dst => (std, dst)
  | type :: types, std, dst =>
    if type.isdst then
      if dst.isSome then findNames name types std dst
      else if std.isSome then (std, some (name type.idx))
      else findNames name types std (some (name type.idx))
    else
      if std.isSome then findNames name types std dst
      else if dst.isSome then (some (name type.idx), dst)
      else findNames name types (some (name type.idx)) dst

/-- The names for standard time and daylight saving time. -/
def tzNames (name : Nat → List UInt8) (types : List TtInfo) : List UInt8 × List UInt8 :=
  let (std, dst) := findNames name types none none
  let std := std.getD (name 0)
  (std, dst.getD std)

/-- `rule_stdoff` and `daylight_saved`, for the types of the transitions from the last one on. -/
def standardOffset : List TtInfo → Int × Bool
  | [] => (0, false)
  | type :: types =>
    if type.isdst then ((standardOffset types).1, true)
    else (type.offset, types.any TtInfo.isdst)

/-- `__tzfile_read`, none if the file is rejected. -/
def tzfileRead (env : Surroundings) (file : List UInt8) (extra : UInt64) : Option TzFile := do
  let heads ← readHeads file
  let c := heads.head.counts
  let width := heads.width
  let len ← tzspecLen c width (file.length - heads.f.pos)
  let (leapsAt, zoneNamesAt) ← allocateTables env c width len extra
  let (times, f) ← heads.f.read (width * c.transitions.toNat)
  let (idxs, f) ← f.read c.transitions.toNat
  let typeIdxs := idxs.map UInt8.toNat
  if typeIdxs.any (fun idx => idx ≥ c.types.toNat) then none
  else do
    let transitions := (List.range c.transitions.toNat).map fun i =>
      decodeTime width ((times.drop (i * width)).take width)
    let (types, f) ← readTypes c.chars c.types.toNat f
    let (zoneNames, f) ← f.read c.chars.toNat
    let (leaps, f) ← readLeaps width c.leaps.toNat f
    let (isstd, f) ← readFlags c.isstd.toNat f
    let (isgmt, f) ← readFlags c.isgmt.toNat f
    let types := setFlags types isstd isgmt
    let tzspec := readTzspec width len f
    let name := env.nameAt zoneNames
    if ¬ types.all (fun type => env.room (name type.idx)) then none
    else
      let used := (typeIdxs.map fun idx => types.getD idx env.noType).reverse
      let (ruleStdoff, daylightSaved) :=
        if c.transitions = 0 then ((types.getD 0 env.noType).offset, false)
        else standardOffset used
      return ⟨transitions, typeIdxs, types, zoneNames, leaps, tzspec, ruleStdoff, daylightSaved,
        tzNames name used, leapsAt, zoneNamesAt⟩

/-! The piecewise allocations of `__tzfile_read` succeed only if no size has wrapped. -/

open Nglibc.Malloc.AllocBuffer

def time64Type : ObjectType := ⟨8, 8, by decide, by decide, by decide⟩

def leapType : ObjectType := ⟨16, 8, by decide, by decide, by decide⟩

def ttInfoType : ObjectType := ⟨8, 4, by decide, intType.align_ne_zero, intType.powerof2_align⟩

def charType : ObjectType := ⟨1, 1, by decide, by decide, by decide⟩

/-- An array that was allocated lies behind the old position and before the new one. -/
structure Allocated (buf after : AllocBuffer) (a : UInt64) (bytes : Nat) : Prop where
  live : buf ≠ markFailed
  low : buf.current.toNat ≤ a.toNat
  inside : a.toNat + bytes ≤ after.current.toNat
  high : after.current.toNat ≤ after.bufferEnd.toNat
  same : after.bufferEnd = buf.bufferEnd

theorem allocArray_allocated {buf after : AllocBuffer} {a : UInt64} (type : ObjectType)
    {count : UInt64} (run : buf.allocArray type.size type.align count = (a, after))
    (live : after ≠ markFailed)
    : Allocated buf after a (type.size.toNat * count.toNat) := by
  have takes := @allocArray_takes buf type count
  rw [run] at takes
  cases takes with
  | fails failed => exact absurd failed live
  | places b low inside high same aligned returned =>
    obtain rfl : a = b := returned a rfl
    refine ⟨fun failed => live ?_, UInt64.le_iff_toNat_le.mp low, inside,
      UInt64.le_iff_toNat_le.mp high, same⟩
    have memory : Memory UInt8 := fun _ => 0
    have stays : (buf.allocArray type.size type.align count).2 = markFailed :=
      (@step_failed ⟨buf, memory⟩ failed (.allocArray type count)).1
    rwa [run] at stays

/-- What successful allocations say about the sizes, whose sum has not wrapped. -/
structure TablesFit (c : Counts) (len extra leapsAt zoneNamesAt : UInt64) : Prop where
  total : (totalSize c len extra).toNat
    = c.transitions.toNat * 8 + c.leaps.toNat * 16 + c.types.toNat * 8 + c.transitions.toNat
      + c.chars.toNat + len.toNat + extra.toNat
  small : (totalSize c len extra).toNat < 2 ^ 63
  order : leapsAt.toNat + 16 * c.leaps.toNat + 8 * c.types.toNat + c.transitions.toNat
    ≤ zoneNamesAt.toNat

/-- The sum up to wrapping. -/
theorem totalSize_mod (c : Counts) (len extra : UInt64)
    : (totalSize c len extra).toNat % 2 ^ 64
      = (c.transitions.toNat * 8 + c.leaps.toNat * 16 + c.types.toNat * 8 + c.transitions.toNat
        + c.chars.toNat + len.toNat + extra.toNat) % 2 ^ 64 := by
  unfold totalSize
  simp only [UInt64.toNat_add, UInt64.toNat_mul]
  have eight : (8 : UInt64).toNat = 8 := rfl
  have sixteen : (16 : UInt64).toNat = 16 := rfl
  rw [eight, sixteen]
  omega

private theorem allocIf_allocated {buf after : AllocBuffer} {needed : Bool} {count : UInt64}
    (run : allocIf needed buf count = after)
    (ordered : buf ≠ markFailed → buf.current.toNat ≤ buf.bufferEnd.toNat)
    (live : after ≠ markFailed)
    : ∃ a, Allocated buf after a (if needed then count.toNat else 0) := by
  unfold allocIf at run
  cases needed with
  | true =>
    cases array : buf.allocArray 1 1 count with
    | mk a next =>
      rw [array] at run
      subst run
      have taken := allocArray_allocated charType array live
      rw [show charType.size.toNat = 1 from rfl, one_mul] at taken
      exact ⟨a, taken⟩
  | false =>
    obtain rfl : buf = after := run
    exact ⟨buf.current, live, le_rfl, le_rfl, ordered live, rfl⟩

theorem create_ordered {start size : UInt64} {buf : AllocBuffer}
    (created : create start size = some buf)
    : buf.current = start ∧ buf.bufferEnd.toNat ≤ start.toNat + size.toNat := by
  unfold create at created
  dsimp only at created
  split_ifs at created
  cases created
  refine ⟨rfl, ?_⟩
  exact Nat.mod_le _ _

/-- The allocations follow each other in the block. -/
theorem allocateTables_fit {env : Surroundings} {c : Counts} {width : Nat}
    {len extra leapsAt zoneNamesAt : UInt64} (narrow : width ≠ 8 → len = 0)
    (allocated : allocateTables env c width len extra = some (leapsAt, zoneNamesAt))
    : TablesFit c len extra leapsAt zoneNamesAt := by
  unfold allocateTables at allocated
  rw [Option.ite_none_left_eq_some] at allocated
  obtain ⟨block, allocated⟩ := allocated
  obtain ⟨buf, created, allocated⟩ := Option.bind_eq_some_iff.mp allocated
  obtain ⟨start, stop⟩ := create_ordered created
  have fits := env.fits _ block
  rw [Option.ite_none_left_eq_some] at allocated
  obtain ⟨live, found⟩ := allocated
  obtain ⟨rfl, rfl⟩ := Prod.mk.inj (Option.some.inj found)
  cases run₁ : buf.allocArray 8 8 c.transitions with
  | mk a₁ buf₁ =>
  cases run₂ : buf₁.allocArray 16 8 c.leaps with
  | mk a₂ buf₂ =>
  cases run₃ : buf₂.allocArray 8 4 c.types with
  | mk a₃ buf₃ =>
  cases run₄ : buf₃.allocArray 1 1 c.transitions with
  | mk a₄ buf₄ =>
  cases run₅ : buf₄.allocArray 1 1 c.chars with
  | mk a₅ buf₅ =>
  simp only [run₁, run₂, run₃, run₄, run₅] at live ⊢
  have alive : allocIf (decide (extra > 0)) (allocIf (decide (width = 8)) buf₅ len) extra
      ≠ markFailed := by
    intro failed
    rw [failed] at live
    exact live rfl
  have names := allocArray_allocated charType run₅
  have spec := @allocIf_allocated buf₅ _ (decide (width = 8)) len rfl fun live => (names live).high
  obtain ⟨a₇, extras⟩ := allocIf_allocated rfl (fun live => (spec live).choose_spec.high) alive
  obtain ⟨a₆, spec⟩ := spec extras.live
  have names := names spec.live
  have idxs := allocArray_allocated charType run₄ names.live
  have types := allocArray_allocated ttInfoType run₃ idxs.live
  have leaps := allocArray_allocated leapType run₂ types.live
  have times := allocArray_allocated time64Type run₁ leaps.live
  have size₁ : time64Type.size.toNat = 8 := rfl
  have size₂ : leapType.size.toNat = 16 := rfl
  have size₃ : ttInfoType.size.toNat = 8 := rfl
  have size₄ : charType.size.toNat = 1 := rfl
  have lenNeeded : (if decide (width = 8) = true then len.toNat else 0) = len.toNat := by
    split_ifs with wide
    · rfl
    · rw [narrow fun wide' => wide (decide_eq_true wide')]
      rfl
  have extraNeeded : (if decide (extra > 0) = true then extra.toNat else 0) = extra.toNat := by
    split_ifs with positive
    · rfl
    · by_contra nonzero
      exact positive (decide_eq_true (UInt64.lt_iff_toNat_lt.mpr
        (Nat.pos_of_ne_zero fun zero => nonzero zero.symm)))
  have wrapped := totalSize_mod c len extra
  have ends : (allocIf (decide (extra > 0)) (allocIf (decide (width = 8)) buf₅ len)
      extra).bufferEnd = buf.bufferEnd := by
    rw [extras.same, spec.same, names.same, idxs.same, types.same, leaps.same, times.same]
  obtain ⟨-, low₁, in₁, -, -⟩ := times
  obtain ⟨-, low₂, in₂, -, -⟩ := leaps
  obtain ⟨-, low₃, in₃, -, -⟩ := types
  obtain ⟨-, low₄, in₄, -, -⟩ := idxs
  obtain ⟨-, low₅, in₅, -, -⟩ := names
  obtain ⟨-, low₆, in₆, -, -⟩ := spec
  obtain ⟨-, low₇, in₇, high, -⟩ := extras
  rw [ends] at high
  rw [size₁] at in₁
  rw [size₂] at in₂
  rw [size₃] at in₃
  rw [size₄] at in₄ in₅
  exact ⟨by omega, by omega, by omega⟩

end Nglibc.Time
