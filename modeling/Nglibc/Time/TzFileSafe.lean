import Nglibc.Time.TzFileCompute

/-! Files that `__tzfile_read` accepts. Nothing wraps in the header that is used, and the types of
the transitions are in bounds. That there is a type, that names end and that the string has a rule is
not checked, nor are the numbers of a header that is skipped.
-/

namespace Nglibc.Time

open List

structure TzHead.Nonneg (head : TzHead) : Prop where
  ttisutcnt : 0 ≤ head.ttisutcnt
  ttisstdcnt : 0 ≤ head.ttisstdcnt
  leapcnt : 0 ≤ head.leapcnt
  timecnt : 0 ≤ head.timecnt
  typecnt : 0 ≤ head.typecnt
  charcnt : 0 ≤ head.charcnt

/-- The numbers of a header are not changed when they are taken for values of type `size_t`. -/
structure TzHead.Counted (head : TzHead) : Prop where
  isgmt : (head.counts.isgmt.toNat : Int) = head.ttisutcnt
  isstd : (head.counts.isstd.toNat : Int) = head.ttisstdcnt
  leaps : (head.counts.leaps.toNat : Int) = head.leapcnt
  transitions : (head.counts.transitions.toNat : Int) = head.timecnt
  types : (head.counts.types.toNat : Int) = head.typecnt
  chars : (head.counts.chars.toNat : Int) = head.charcnt

namespace Heads

variable (heads : Heads)

def typesAt : Nat := heads.f.pos + (heads.width + 1) * heads.head.timecnt.toNat

def nameIndex (i : Nat) : Nat := (heads.f.bytes.getD (heads.typesAt + 6 * i + 5) 0).toNat

def names : List UInt8 := (heads.f.bytes.drop (heads.typesAt + 6 * heads.head.typecnt.toNat)).take
    heads.head.charcnt.toNat

def footerAt : Nat := heads.typesAt + 6 * heads.head.typecnt.toNat + heads.head.charcnt.toNat
    + (heads.width + 4) * heads.head.leapcnt.toNat + heads.head.ttisstdcnt.toNat
    + heads.head.ttisutcnt.toNat

/-- The string at the end of a file with two headers, behind a newline. -/
def footer : Option (List UInt8) :=
  readTzspec heads.width (.ofNat (heads.f.bytes.length - (heads.footerAt + 1)))
    ⟨heads.f.bytes, heads.footerAt⟩

/-- What `__tzfile_read` does not check. -/
structure Proper : Prop where
  counted : ∀ first, heads.first = some first → first.Nonneg
  typed : heads.head.typecnt ≠ 0
  terminated : ∀ i, i < heads.head.typecnt.toNat → 0 ∈ heads.names.drop (heads.nameIndex i)
  ruled : heads.head.timecnt ≠ 0 → ∀ tzspec, heads.footer = some tzspec → tzsetNoRule tzspec = none

structure Exact (extra : UInt64) : Prop where
  skipped : ∀ first, heads.first = some first → first.Counted ∧ ((toSkip first.counts).toNat : Int)
      = first.timecnt * 5 + first.typecnt * 6 + first.charcnt + first.leapcnt * 8
        + first.ttisstdcnt + first.ttisutcnt
  counted : heads.head.Counted
  sizes : ∃ len, tzspecLen heads.head.counts heads.width (heads.f.bytes.length - heads.f.pos)
      = some len
    ∧ (heads.width = 8 → (heads.f.bytes.length : Int)
      = heads.f.pos + heads.head.timecnt * 9 + heads.head.typecnt * 6 + heads.head.charcnt
        + heads.head.leapcnt * 12 + heads.head.ttisstdcnt + heads.head.ttisutcnt + 1 + len.toNat)
    ∧ ((totalSize heads.head.counts len extra).toNat : Int)
      = heads.head.timecnt * 9 + heads.head.leapcnt * 16 + heads.head.typecnt * 8
        + heads.head.charcnt + len.toNat + extra.toNat

end Heads

/-- What a file that is accepted should leave: sound tables, which are accessed in bounds for all times
and whatever the rules file is, and no size that has wrapped.
-/
structure SafelyRead (heads : Heads) (extra : UInt64) (tables : TzFile) : Prop where
  sound : tables.Sound
  accessed : ∀ timer around rulesFile useLocaltime before, ∃ after,
    tables.compute timer around rulesFile useLocaltime before = .ok after
  exact : heads.Exact extra

/-! Numbers -/

theorem ofInt_toNat {x : Int} (int : -2147483648 ≤ x ∧ x ≤ 2147483647)
    : ((UInt64.ofInt x).toNat : Int) = if 0 ≤ x then x else x + 2 ^ 64 := by
  unfold UInt64.ofInt
  rw [UInt64.toNat_ofNat']
  split_ifs <;> omega

/-- A number that is small as a value of type `size_t` is not negative. -/
theorem ofInt_small {x : Int} (int : -2147483648 ≤ x ∧ x ≤ 2147483647)
    (small : (UInt64.ofInt x).toNat < 2 ^ 63)
    : ((UInt64.ofInt x).toNat : Int) = x := by
  have value := ofInt_toNat int
  split_ifs at value <;> omega

/-- The numbers of a header are of type `int`. -/
structure TzHead.Sized (head : TzHead) : Prop where
  ttisutcnt : -2147483648 ≤ head.ttisutcnt ∧ head.ttisutcnt ≤ 2147483647
  ttisstdcnt : -2147483648 ≤ head.ttisstdcnt ∧ head.ttisstdcnt ≤ 2147483647
  leapcnt : -2147483648 ≤ head.leapcnt ∧ head.leapcnt ≤ 2147483647
  timecnt : -2147483648 ≤ head.timecnt ∧ head.timecnt ≤ 2147483647
  typecnt : -2147483648 ≤ head.typecnt ∧ head.typecnt ≤ 2147483647
  charcnt : -2147483648 ≤ head.charcnt ∧ head.charcnt ≤ 2147483647

variable {head : TzHead} {f f' : Stream}

theorem TzHead.Nonneg.counted (nonneg : head.Nonneg) (sized : head.Sized)
    : head.Counted := by
  have value : ∀ {x : Int}, 0 ≤ x → (-2147483648 ≤ x ∧ x ≤ 2147483647) →
      ((UInt64.ofInt x).toNat : Int) = x := by
    intro x positive int
    rw [ofInt_toNat int, if_pos positive]
  exact ⟨value nonneg.ttisutcnt sized.ttisutcnt, value nonneg.ttisstdcnt sized.ttisstdcnt,
    value nonneg.leapcnt sized.leapcnt, value nonneg.timecnt sized.timecnt,
    value nonneg.typecnt sized.typecnt, value nonneg.charcnt sized.charcnt⟩

theorem TzHead.Counted.nonneg {head : TzHead} (counted : head.Counted) : head.Nonneg := by
  obtain ⟨isgmt, isstd, leaps, transitions, types, chars⟩ := counted
  exact ⟨by omega, by omega, by omega, by omega, by omega, by omega⟩

theorem TzHead.Counted.toSkip_eq (counted : head.Counted) (sized : head.Sized)
    : ((toSkip head.counts).toNat : Int)
      = head.timecnt * 5 + head.typecnt * 6 + head.charcnt + head.leapcnt * 8
        + head.ttisstdcnt + head.ttisutcnt := by
  obtain ⟨isgmt, isstd, leaps, transitions, types, chars⟩ := counted
  obtain ⟨size₁, size₂, size₃, size₄, size₅, size₆⟩ := sized
  unfold toSkip
  simp only [UInt64.toNat_add, UInt64.toNat_mul]
  have four : (4 : UInt64).toNat = 4 := rfl
  have one : (1 : UInt64).toNat = 1 := rfl
  have six : (6 : UInt64).toNat = 6 := rfl
  have eight : (8 : UInt64).toNat = 8 := rfl
  rw [four, one, six, eight]
  omega

theorem TablesFit.counted {len extra leapsAt zoneNamesAt : UInt64}
    (fit : TablesFit head.counts len extra leapsAt zoneNamesAt) (sized : head.Sized)
    (isstd : head.counts.isstd.toNat ≤ head.counts.types.toNat)
    (isgmt : head.counts.isgmt.toNat ≤ head.counts.types.toNat)
    : head.Counted := by
  have total := fit.total
  have small := fit.small
  exact ⟨ofInt_small sized.ttisutcnt (show head.counts.isgmt.toNat < 2 ^ 63 by omega),
    ofInt_small sized.ttisstdcnt (show head.counts.isstd.toNat < 2 ^ 63 by omega),
    ofInt_small sized.leapcnt (show head.counts.leaps.toNat < 2 ^ 63 by omega),
    ofInt_small sized.timecnt (show head.counts.transitions.toNat < 2 ^ 63 by omega),
    ofInt_small sized.typecnt (show head.counts.types.toNat < 2 ^ 63 by omega),
    ofInt_small sized.charcnt (show head.counts.chars.toNat < 2 ^ 63 by omega)⟩

/-- The length of the string is what remains of the file. -/
theorem tzspecLen_exact {c : Counts} {rem : Int} {len : UInt64} (long : rem < 2 ^ 63)
    (small : c.transitions.toNat * 9 + c.types.toNat * 8 + c.chars.toNat < 2 ^ 63)
    (found : tzspecLen c 8 rem = some len)
    : rem = c.transitions.toNat * 9 + c.types.toNat * 6 + c.chars.toNat + c.leaps.toNat * 12
        + c.isstd.toNat + c.isgmt.toNat + 1 + len.toNat := by
  have fixed : (fixedSize c).toNat
      = c.transitions.toNat * 9 + c.types.toNat * 6 + c.chars.toNat := by
    have nine : (8 + 1 : UInt64).toNat = 9 := rfl
    have six : (6 : UInt64).toNat = 6 := rfl
    unfold fixedSize
    simp only [UInt64.toNat_add _ (_ * _), UInt64.toNat_add (_ + _) _, UInt64.toNat_mul, nine, six]
    omega
  unfold tzspecLen at found
  rw [if_pos rfl] at found
  rw [Option.ite_none_left_eq_some] at found
  obtain ⟨enough, found⟩ := found
  rw [Option.ite_none_left_eq_some] at found
  obtain ⟨leaps, found⟩ := found
  rw [Option.ite_none_left_eq_some] at found
  obtain ⟨isstd, found⟩ := found
  rw [Option.ite_none_left_eq_some] at found
  obtain ⟨isgmt, found⟩ := found
  rw [Option.ite_none_left_eq_some] at found
  obtain ⟨nonzero, found⟩ := found
  rw [not_or, UInt64.not_lt] at enough
  rw [not_or, UInt64.not_lt] at leaps
  rw [UInt64.not_lt] at isstd
  rw [not_or, UInt64.not_lt] at isgmt
  have rest : (UInt64.ofInt rem).toNat = rem := by
    unfold UInt64.ofInt
    rw [UInt64.toNat_ofNat']
    omega
  generalize UInt64.ofInt rem = len₀ at *
  have step₁ := UInt64.toNat_sub_of_le _ _ enough.2
  have many : (c.leaps * 12).toNat = c.leaps.toNat * 12 := by
    rw [UInt64.toNat_mul, show (12 : UInt64).toNat = 12 from rfl]
    omega
  have step₂ := UInt64.toNat_sub_of_le _ _ leaps.2
  have step₃ := UInt64.toNat_sub_of_le _ _ isstd
  generalize len₀ - fixedSize c = len₁ at *
  generalize len₁ - c.leaps * 12 = len₂ at *
  generalize len₂ - c.isstd = len₃ at *
  have positive : 1 ≤ len₃.toNat :=
    Nat.one_le_iff_ne_zero.mpr fun zero => isgmt.1 (UInt64.toNat_inj.mp zero)
  have step₄ := UInt64.toNat_sub_of_le len₃ 1 (UInt64.le_iff_toNat_le.mpr positive)
  have le₄ := UInt64.le_iff_toNat_le.mp isgmt.2
  rw [step₄, show (1 : UInt64).toNat = 1 from rfl] at le₄
  have next : (c.isgmt + 1).toNat = c.isgmt.toNat + 1 := by
    rw [UInt64.toNat_add, show (1 : UInt64).toNat = 1 from rfl]
    omega
  have step₅ := UInt64.toNat_sub_of_le len₃ (c.isgmt + 1) (UInt64.le_iff_toNat_le.mpr (by omega))
  obtain rfl := Option.some.inj found
  omega

/-! What is read -/

theorem Stream.read_some {n : Nat} {bytes : List UInt8} (read : f.read n = some (bytes, f'))
    : f.pos + n ≤ f.bytes.length ∧ bytes = (f.bytes.drop f.pos).take n
      ∧ f' = { f with pos := f.pos + n } := by
  unfold Stream.read at read
  rw [Option.ite_none_right_eq_some] at read
  obtain ⟨inside, same⟩ := read
  cases same
  exact ⟨inside, rfl, rfl⟩

theorem decode_sized (bytes : List UInt8)
    : -2147483648 ≤ decode bytes ∧ decode bytes ≤ 2147483647 :=
  wrap32_bounds _

theorem readHead_some (read : readHead f = some (head, f'))
    : head.Sized ∧ head.counts.isstd.toNat ≤ head.counts.types.toNat
      ∧ head.counts.isgmt.toNat ≤ head.counts.types.toNat ∧ f'.bytes = f.bytes
      ∧ f'.pos ≤ f.bytes.length := by
  obtain ⟨⟨bytes, f₁⟩, whole, read⟩ := Option.bind_eq_some_iff.mp read
  obtain ⟨inside, -, rfl⟩ := Stream.read_some whole
  rw [Option.ite_none_left_eq_some] at read
  obtain ⟨-, read⟩ := read
  rw [Option.ite_none_left_eq_some, not_or, UInt64.not_lt, UInt64.not_lt]
    at read
  obtain ⟨⟨isstd, isgmt⟩, same⟩ := read
  cases same
  exact ⟨⟨decode_sized _, decode_sized _, decode_sized _, decode_sized _, decode_sized _,
    decode_sized _⟩, UInt64.le_iff_toNat_le.mp isstd, UInt64.le_iff_toNat_le.mp isgmt, rfl, inside⟩

theorem readHeads_some {file : List UInt8} {heads : Heads} (read : readHeads file = some heads)
    : (∀ first, heads.first = some first → first.Sized) ∧ heads.head.Sized
      ∧ heads.head.counts.isstd.toNat ≤ heads.head.counts.types.toNat
      ∧ heads.head.counts.isgmt.toNat ≤ heads.head.counts.types.toNat ∧ heads.f.bytes = file
      ∧ heads.f.pos ≤ file.length := by
  unfold readHeads at read
  simp only [Option.bind_eq_bind] at read
  obtain ⟨⟨head, f₁⟩, first, read⟩ := Option.bind_eq_some_iff.mp read
  obtain ⟨sized, isstd, isgmt, bytes, inside⟩ := readHead_some first
  split_ifs at read
  · obtain ⟨f₂, seek, read⟩ := Option.bind_eq_some_iff.mp read
    obtain ⟨⟨second, f₃⟩, again, same⟩ := Option.bind_eq_some_iff.mp read
    have bytes₂ : f₂.bytes = file := by
      unfold Stream.seek at seek
      rw [Option.ite_none_right_eq_some] at seek
      rw [← Option.some.inj seek.2]
      exact bytes
    obtain ⟨sized₂, isstd₂, isgmt₂, bytes₃, inside₃⟩ := readHead_some again
    rw [bytes₂] at bytes₃ inside₃
    cases same
    refine ⟨fun first same => ?_, sized₂, isstd₂, isgmt₂, bytes₃, inside₃⟩
    cases same
    exact sized
  · cases read
    exact ⟨fun first none => (nomatch none), sized, isstd, isgmt, bytes, inside⟩

theorem Stream.getc_cases (f : Stream)
    : f.getc = (((f.bytes.getD f.pos 0).toNat : Int), { f with pos := f.pos + 1 })
      ∨ f.getc = (-1, f) := by
  unfold Stream.getc
  cases found : f.bytes[f.pos]? with
  | none => exact .inr rfl
  | some c =>
    rw [getD_eq_getElem?_getD, found]
    exact .inl rfl

/-- The types take six bytes each, the last one of which is the index of the name. -/
theorem readTypes_some {chars : UInt64} (small : chars.toNat < 2 ^ 63) {n : Nat} {types : List TtInfo}
    (read : readTypes chars n f = some (types, f'))
    : types.length = n ∧ f' = { f with pos := f.pos + 6 * n } ∧ ∀ i type, types[i]? = some type →
        type.idx = (f.bytes.getD (f.pos + 6 * i + 5) 0).toNat := by
  induction n generalizing f f' types with
  | zero =>
    cases read
    exact ⟨rfl, rfl, fun i type none => (nomatch none)⟩
  | succ n ih =>
    unfold readTypes at read
    simp only [Option.bind_eq_bind] at read
    obtain ⟨⟨x, f₁⟩, offset, read⟩ := Option.bind_eq_some_iff.mp read
    obtain ⟨-, -, rfl⟩ := Stream.read_some offset
    generalize isdst : Stream.getc { f with pos := f.pos + 4 } = result at read
    rw [Option.ite_none_left_eq_some] at read
    obtain ⟨flag, read⟩ := read
    rcases Stream.getc_cases { f with pos := f.pos + 4 } with got | got
    · obtain rfl := got.symm.trans isdst
      generalize index : Stream.getc { f with pos := f.pos + 4 + 1 } = result at read
      rw [Option.ite_none_left_eq_some] at read
      obtain ⟨inside, read⟩ := read
      rcases Stream.getc_cases { f with pos := f.pos + 4 + 1 } with got | got
      · obtain rfl := got.symm.trans index
        obtain ⟨⟨rest, f₂⟩, more, same⟩ := Option.bind_eq_some_iff.mp read
        obtain ⟨length, rfl, names⟩ := ih more
        cases same
        dsimp only at names ⊢
        refine ⟨by rw [length_cons, length], ?_, ?_⟩
        · congr 1
          omega
        · intro i type found
          cases i with
          | zero =>
            rw [← Option.some.inj found]
            have less := UInt8.toNat_lt (f.bytes.getD (f.pos + 4 + 1) 0)
            rw [show f.pos + 6 * 0 + 5 = f.pos + 4 + 1 by omega]
            dsimp only
            omega
          | succ i =>
            rw [names i type found]
            congr 3
            omega
      · -- At the end of the file, the index is too large.
        obtain rfl := got.symm.trans index
        rw [UInt64.not_lt, UInt64.le_iff_toNat_le] at inside
        have large : (UInt64.ofInt (-1)).toNat = 2 ^ 64 - 1 := by decide
        dsimp only at inside
        omega
    · obtain rfl := got.symm.trans isdst
      exact absurd (.inl (show (-1 : Int) < 0 by decide)) flag

private theorem readLeaps_some {width n : Nat} {leaps : List Leap} (read : readLeaps width n f = some (leaps, f'))
    : leaps.length = n ∧ f' = { f with pos := f.pos + (width + 4) * n } := by
  induction n generalizing f f' leaps with
  | zero =>
    cases read
    exact ⟨rfl, rfl⟩
  | succ n ih =>
    obtain ⟨⟨x, f₁⟩, time, read⟩ := Option.bind_eq_some_iff.mp read
    obtain ⟨-, -, rfl⟩ := Stream.read_some time
    obtain ⟨⟨y, f₂⟩, change, read⟩ := Option.bind_eq_some_iff.mp read
    obtain ⟨-, -, rfl⟩ := Stream.read_some change
    obtain ⟨⟨rest, f₃⟩, more, same⟩ := Option.bind_eq_some_iff.mp read
    cases same
    obtain ⟨length, rfl⟩ := ih more
    refine ⟨by rw [length_cons, length], ?_⟩
    congr 1
    dsimp only
    ring

private theorem readFlags_some {n : Nat} {flags : List Bool} (read : readFlags n f = some (flags, f'))
    : f' = { f with pos := f.pos + n } := by
  induction n generalizing f f' flags with
  | zero =>
    cases read
    rfl
  | succ n ih =>
    unfold readFlags at read
    rcases Stream.getc_cases f with got | got
    · rw [got, Option.ite_none_left_eq_some] at read
      obtain ⟨⟨rest, f₁⟩, more, same⟩ := Option.bind_eq_some_iff.mp read.2
      cases same
      rw [ih more]
      congr 1
      dsimp only
      omega
    · rw [got] at read
      cases read

/-- What is known about tables that are accepted. -/
structure Accepted (file : List UInt8) (extra : UInt64) (tables : TzFile) (heads : Heads)
    (len : UInt64) : Prop where
  read : readHeads file = some heads
  spec : tzspecLen heads.head.counts heads.width (file.length - heads.f.pos) = some len
  fit : TablesFit heads.head.counts len extra tables.leapsAt tables.zoneNamesAt
  transitions : tables.transitions.length = heads.head.counts.transitions.toNat
  typeIdxs : tables.typeIdxs.length = heads.head.counts.transitions.toNat
  typed : ∀ idx ∈ tables.typeIdxs, idx < heads.head.counts.types.toNat
  types : tables.types.length = heads.head.counts.types.toNat
  leaps : tables.leaps.length = heads.head.counts.leaps.toNat
  zoneNames : tables.zoneNames = (file.drop (heads.f.pos
    + (heads.width + 1) * heads.head.counts.transitions.toNat
    + 6 * heads.head.counts.types.toNat)).take heads.head.counts.chars.toNat
  names : ∀ i type, tables.types[i]? = some type → type.idx = (file.getD (heads.f.pos
      + (heads.width + 1) * heads.head.counts.transitions.toNat + 6 * i + 5) 0).toNat
  tzspec : tables.tzspec = readTzspec heads.width len ⟨file, heads.f.pos
    + (heads.width + 1) * heads.head.counts.transitions.toNat
    + 6 * heads.head.counts.types.toNat + heads.head.counts.chars.toNat
    + (heads.width + 4) * heads.head.counts.leaps.toNat
    + heads.head.counts.isstd.toNat + heads.head.counts.isgmt.toNat⟩

theorem setFlags_length (types : List TtInfo) (isstd isgmt : List Bool)
    : (setFlags types isstd isgmt).length = types.length :=
  length_mapIdx

theorem setFlags_idx {types : List TtInfo} {isstd isgmt : List Bool} {i : Nat} {type : TtInfo}
    (found : (setFlags types isstd isgmt)[i]? = some type)
    : ∃ before, types[i]? = some before ∧ type.idx = before.idx := by
  unfold setFlags at found
  rw [getElem?_mapIdx] at found
  obtain ⟨before, here, rfl⟩ := Option.map_eq_some_iff.mp found
  exact ⟨before, here, rfl⟩

theorem tzspecLen_narrow {c : Counts} {width : Nat} {rem : Int} {len : UInt64}
    (found : tzspecLen c width rem = some len) (narrow : width ≠ 8)
    : len = 0 := by
  unfold tzspecLen at found
  rw [if_neg narrow] at found
  exact (Option.some.inj found).symm

/-- What `__tzfile_read` accepts has passed all of its checks. -/
theorem tzfileRead_some {env : Surroundings} {file : List UInt8} {extra : UInt64} {tables : TzFile}
    (accepted : tzfileRead env file extra = some tables)
    : ∃ heads len, Accepted file extra tables heads len := by
  obtain ⟨heads, headsRead, accepted⟩ := Option.bind_eq_some_iff.mp accepted
  obtain ⟨-, -, -, -, bytes, -⟩ := readHeads_some headsRead
  obtain ⟨len, spec, accepted⟩ := Option.bind_eq_some_iff.mp accepted
  obtain ⟨⟨leapsAt, zoneNamesAt⟩, allocated, accepted⟩ := Option.bind_eq_some_iff.mp accepted
  have fit := allocateTables_fit (tzspecLen_narrow spec) allocated
  obtain ⟨⟨times, f₁⟩, timesRead, accepted⟩ := Option.bind_eq_some_iff.mp accepted
  obtain ⟨-, -, rfl⟩ := Stream.read_some timesRead
  obtain ⟨⟨idxs, f₂⟩, idxsRead, accepted⟩ := Option.bind_eq_some_iff.mp accepted
  obtain ⟨inside, idxsSame, rfl⟩ := Stream.read_some idxsRead
  rw [Option.ite_none_left_eq_some] at accepted
  obtain ⟨typed, accepted⟩ := accepted
  obtain ⟨⟨types, f₃⟩, typesRead, accepted⟩ := Option.bind_eq_some_iff.mp accepted
  have total := fit.total
  have small := fit.small
  obtain ⟨typesLength, rfl, names⟩ := readTypes_some (by omega) typesRead
  obtain ⟨⟨zoneNames, f₄⟩, namesRead, accepted⟩ := Option.bind_eq_some_iff.mp accepted
  obtain ⟨-, rfl, rfl⟩ := Stream.read_some namesRead
  obtain ⟨⟨leaps, f₅⟩, leapsRead, accepted⟩ := Option.bind_eq_some_iff.mp accepted
  obtain ⟨leapsLength, rfl⟩ := readLeaps_some leapsRead
  obtain ⟨⟨isstd, f₆⟩, isstdRead, accepted⟩ := Option.bind_eq_some_iff.mp accepted
  obtain rfl := readFlags_some isstdRead
  obtain ⟨⟨isgmt, f₇⟩, isgmtRead, accepted⟩ := Option.bind_eq_some_iff.mp accepted
  obtain rfl := readFlags_some isgmtRead
  rw [Option.ite_none_left_eq_some] at accepted
  obtain ⟨-, accepted⟩ := accepted
  obtain rfl := Option.some.inj accepted
  refine ⟨heads, len, headsRead, spec, fit, ?_, ?_, ?_, ?_, leapsLength, ?_, ?_, ?_⟩
  · rw [length_map, length_range]
  · rw [length_map, idxsSame, length_take, length_drop]
    omega
  · intro idx member
    by_contra large
    exact typed (any_eq_true.mpr ⟨idx, member, decide_eq_true (not_lt.mp large)⟩)
  · exact (setFlags_length _ _ _).trans typesLength
  · dsimp only
    congr 2
    ring
  · intro i type found
    obtain ⟨before, here, same⟩ := setFlags_idx found
    rw [same, names i before here]
    congr 2
    ring
  · dsimp only
    rw [← bytes]
    congr 2
    ring

/-! Files that are read safely -/

section

variable {file : List UInt8} {extra : UInt64} {tables : TzFile} {heads : Heads} {len : UInt64}

section

variable (accepted : Accepted file extra tables heads len)
include accepted

theorem Accepted.counted : heads.head.Counted := by
  obtain ⟨-, sized, isstd, isgmt, -, -⟩ := readHeads_some accepted.read
  exact accepted.fit.counted sized isstd isgmt

theorem Accepted.types_eq
    : tables.types.length = heads.head.typecnt.toNat := by
  have types := accepted.counted.types
  rw [accepted.types]
  omega

theorem Accepted.names_eq
    : tables.zoneNames = heads.names
      ∧ ∀ i type, tables.types[i]? = some type → type.idx = heads.nameIndex i := by
  obtain ⟨-, -, -, -, bytes, -⟩ := readHeads_some accepted.read
  have counted := accepted.counted
  have transitions : heads.head.counts.transitions.toNat = heads.head.timecnt.toNat := by
    have := counted.transitions
    omega
  have types : heads.head.counts.types.toNat = heads.head.typecnt.toNat := by
    have := counted.types
    omega
  have chars : heads.head.counts.chars.toNat = heads.head.charcnt.toNat := by
    have := counted.chars
    omega
  have zoneNames := accepted.zoneNames
  have names := accepted.names
  rw [transitions] at zoneNames names
  rw [types, chars] at zoneNames
  unfold Heads.names Heads.nameIndex Heads.typesAt
  rw [bytes]
  exact ⟨zoneNames, names⟩

/-- What remains for the string. -/
theorem Accepted.rest (long : file.length < 2 ^ 63) (wide : heads.width = 8)
    : (file.length : Int)
        = heads.f.pos + heads.head.timecnt * 9 + heads.head.typecnt * 6 + heads.head.charcnt
          + heads.head.leapcnt * 12 + heads.head.ttisstdcnt + heads.head.ttisutcnt + 1
          + len.toNat := by
  obtain ⟨-, -, -, -, -, inside⟩ := readHeads_some accepted.read
  obtain ⟨isgmt, isstd, leaps, transitions, types, chars⟩ := accepted.counted
  have total := accepted.fit.total
  have small := accepted.fit.small
  have spec := accepted.spec
  rw [wide] at spec
  have rem := tzspecLen_exact (by omega) (by omega) spec
  omega

private theorem Accepted.footer_eq (long : file.length < 2 ^ 63) : tables.tzspec = heads.footer := by
  obtain ⟨-, -, -, -, bytes, -⟩ := readHeads_some accepted.read
  obtain ⟨isgmt, isstd, leaps, transitions, types, chars⟩ := accepted.counted
  have place : heads.f.pos + (heads.width + 1) * heads.head.counts.transitions.toNat
      + 6 * heads.head.counts.types.toNat + heads.head.counts.chars.toNat
      + (heads.width + 4) * heads.head.counts.leaps.toNat
      + heads.head.counts.isstd.toNat + heads.head.counts.isgmt.toNat = heads.footerAt := by
    unfold Heads.footerAt Heads.typesAt
    rw [← isgmt, ← isstd, ← leaps, ← transitions, ← types, ← chars]
    simp only [Int.toNat_natCast]
  rw [accepted.tzspec, place, Heads.footer, bytes]
  by_cases wide : heads.width = 8
  · have whole := accepted.rest long wide
    have length : file.length - (heads.footerAt + 1) = len.toNat := by
      rw [← place, wide]
      omega
    rw [length, UInt64.ofNat_toNat]
  · rw [readTzspec, readTzspec, if_neg wide, if_neg wide]

theorem Accepted.placed
    (ruled : tables.transitions ≠ [] → ∀ tzspec, tables.tzspec = some tzspec →
      tzsetNoRule tzspec = none)
    : tables.Placed := by
  refine ⟨accepted.typeIdxs.trans accepted.transitions.symm, fun some same => ?_, ruled⟩
  have order := accepted.fit.order
  have positive := length_pos_of_ne_nil some
  have count := accepted.transitions
  have leaps := accepted.leaps
  rw [same, UInt64.toNat_add, UInt64.toNat_mul, UInt64.toNat_ofNat',
    show (16 : UInt64).toNat = 16 from rfl] at order
  omega

/-- Whatever is accepted, nothing has wrapped but in a header that is skipped. -/
theorem Accepted.exact (long : file.length < 2 ^ 63)
    (nonneg : ∀ first, heads.first = some first → first.Nonneg)
    : heads.Exact extra := by
  obtain ⟨firstSized, sized, -, -, bytes, inside⟩ := readHeads_some accepted.read
  have counted := accepted.counted
  have fit := accepted.fit
  have total := fit.total
  have small := fit.small
  refine ⟨fun first same => ?_, counted, len, ?_, fun wide => ?_, ?_⟩
  · have counted := (nonneg first same).counted (firstSized first same)
    exact ⟨counted, counted.toSkip_eq (firstSized first same)⟩
  · rw [bytes]
    exact accepted.spec
  · rw [bytes]
    exact accepted.rest long wide
  · obtain ⟨isgmt, isstd, leaps, transitions, types, chars⟩ := counted
    omega

end

/-- A file that is accepted is read safely exactly if a header that is skipped has no negative
number, there is a type, the names of all types end, and the string does not leave its rule to
another file.
-/
theorem tzfileRead_safe_iff {env : Surroundings} (long : file.length < 2 ^ 63)
    (accepted : tzfileRead env file extra = some tables)
    : ∃ heads, readHeads file = some heads ∧ (SafelyRead heads extra tables ↔ heads.Proper) := by
  obtain ⟨heads, len, facts⟩ := tzfileRead_some accepted
  obtain ⟨zoneNames, names⟩ := facts.names_eq
  have types := facts.types_eq
  have footer := facts.footer_eq long
  have transitions := facts.counted.transitions
  have length := facts.transitions
  refine ⟨heads, facts.read, fun safe => ?_, fun proper => ?_⟩
  · refine ⟨fun first same => (safe.exact.skipped first same).1.nonneg, ?_, fun i less => ?_,
      fun several tzspec same => ?_⟩
    · have positive := safe.sound.types
      omega
    · obtain ⟨type, -, found⟩ := index_ok (types.symm ▸ less)
      have ends := (safe.sound.names type (mem_of_getElem? found)).2
      rwa [zoneNames, names i type found] at ends
    · by_contra noRule
      obtain ⟨rules, noRule⟩ := Option.ne_none_iff_exists'.mp noRule
      have some_ : tables.transitions ≠ [] := ne_nil_of_length_pos (by omega)
      obtain ⟨timer, freed⟩ := tables.compute_freed some_ (footer.trans same) noRule (fun _ => 0)
        ⟨(none, none), false, 0, 0, 0, ⟨0, 0, 0, 0, 0, 0, 0, 0, 0, 0, []⟩⟩
      obtain ⟨after, run⟩ := safe.accessed timer (fun _ => 0) .missing true _
      rw [freed] at run
      cases run
  · have typed := facts.counted.types
    have sound : tables.Sound := by
      refine ⟨?_, fun idx member => facts.types.symm ▸ facts.typed idx member, fun type member => ?_⟩
      · have := proper.typed
        omega
      · obtain ⟨i, less, found⟩ := getElem_of_mem member
        have ends := proper.terminated i (types ▸ less)
        rw [← names i type (List.getElem?_eq_some_iff.mpr ⟨less, found⟩), ← zoneNames] at ends
        refine ⟨?_, ends⟩
        by_contra outside
        rw [drop_eq_nil_of_le (not_lt.mp outside)] at ends
        cases ends
    have placed : tables.Placed := by
      refine facts.placed fun some_ tzspec same => proper.ruled ?_ tzspec (footer.symm.trans same)
      have := length_pos_of_ne_nil some_
      omega
    exact ⟨sound, fun timer around rulesFile useLocaltime before =>
      sound.compute_ok placed timer around rulesFile useLocaltime before,
      facts.exact long proper.counted⟩

end

/-- Memory where a block starts at the address 4096. What stands at `types` if there are no types
are the names "UTC".
-/
def utcSurroundings : Surroundings where
  malloc size := if size < 1000000 then 4096 else 0
  fits size block := by
    by_cases small : size < 1000000
    · rw [if_pos small]
      have less : size.toNat < 1000000 := UInt64.lt_iff_toNat_lt.mp small
      have start : (4096 : UInt64).toNat = 4096 := rfl
      omega
    · rw [if_neg small] at block
      exact absurd rfl block
  room _ := true
  behind := []
  noType := ⟨4412501, false, 0, false, false⟩

/-- A file without transitions and with a given number of types, all of which are for UTC. -/
def utcFile (typecnt : Nat) : List UInt8 :=
  [84, 90, 105, 102] ++ List.replicate 32 0 ++ [0, 0, 0, UInt8.ofNat typecnt] ++ [0, 0, 0, 8]
    ++ List.replicate (6 * typecnt) 0 ++ [85, 84, 67, 0, 0, 0, 0, 0]

theorem utcFile_safe
    : (utcFile 1).length < 2 ^ 63 ∧ ∃ tables, tzfileRead utcSurroundings (utcFile 1) 0 = some tables
      ∧ ∃ heads, readHeads (utcFile 1) = some heads
      ∧ (SafelyRead heads 0 tables ↔ heads.Proper) := by
  have long : (utcFile 1).length < 2 ^ 63 := by decide +kernel
  have accepted : (tzfileRead utcSurroundings (utcFile 1) 0).isSome = true := by decide +kernel
  obtain ⟨tables, read⟩ := Option.isSome_iff_exists.mp accepted
  exact ⟨long, tables, read, tzfileRead_safe_iff long read⟩

/-- A file without types is accepted. -/
theorem utcFile_unsafe
    : ∃ tables heads, tzfileRead utcSurroundings (utcFile 0) 0 = some tables
      ∧ readHeads (utcFile 0) = some heads ∧ tables.types = [] ∧ ¬ SafelyRead heads 0 tables := by
  have accepted : (tzfileRead utcSurroundings (utcFile 0) 0).map TzFile.types = some [] := by
    decide +kernel
  obtain ⟨tables, read, empty⟩ := Option.map_eq_some_iff.mp accepted
  obtain ⟨heads, len, facts⟩ := tzfileRead_some read
  refine ⟨tables, heads, read, facts.read, empty, fun safe => ?_⟩
  have positive := safe.sound.types
  rw [empty] at positive
  cases positive

end Nglibc.Time
