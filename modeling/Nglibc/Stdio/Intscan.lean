import Nglibc.Stdio.Scanbuf

/-! `__intscan`, which reads an integer from a `scanbuf`. -/

namespace Nglibc.Stdio

variable {W : Type} {refills : W → List (List UInt8)}

/-- `UINT_MAX` and `ULLONG_MAX` -/
def uintMax : Nat := 2 ^ 32 - 1

def ullongMax : Nat := 2 ^ 64 - 1

/-- What `__intscan` stores in `errno`. -/
inductive IntscanErrno where
  | einval
  | erange
  deriving DecidableEq

structure IntscanResult (W : Type) where
  ret : Nat
  errno : Option IntscanErrno
  f : Scanbuf W

/-- `isspace` of the C locale. -/
def isspaceInt (c : Int) : Bool := c = 32 || (9 ≤ c && c ≤ 13)

/-- `table`, which starts with the entry of `EOF`. -/
def digitTable : List Nat := List.replicate 49 255 ++ [0, 1, 2, 3, 4, 5, 6, 7, 8, 9]
  ++ List.replicate 7 255
  ++ [10, 11, 12, 13, 14, 15, 16, 17, 18, 19, 20, 21, 22, 23, 24, 25, 26, 27, 28, 29, 30, 31, 32, 33,
    34, 35]
  ++ List.replicate 6 255
  ++ [10, 11, 12, 13, 14, 15, 16, 17, 18, 19, 20, 21, 22, 23, 24, 25, 26, 27, 28, 29, 30, 31, 32, 33,
    34, 35]
  ++ List.replicate 133 255

/-- `val[c]` -/
def digitVal (c : Int) : Nat := digitTable.getD (c + 1).toNat 255

/-- `c-'0'` as an `unsigned`. -/
def decimalVal (c : Int) : Nat := ((c - 48) % 2 ^ 32).toNat

/-- A loop that reads on for as long as `keep` holds of the last character and the value so far. -/
def scanWhile {α : Type} (uflow : Streambuf W → Int × Streambuf W) (keep : Int → α → Bool)
    (step : α → Int → α)
    : Nat → Int → α → Scanbuf W → Option (Int × α × Scanbuf W)
  | 0, _, _, _ => none
  | fuel + 1, c, a, f =>
    if keep c a then
      scanWhile uflow keep step fuel (shgetc uflow f).1 (step a c) (shgetc uflow f).2
    else some (c, a, f)

/-- The magic string that holds the number of bits of a digit. -/
def bitShift (base : Nat) : Nat := [0, 1, 2, 4, 7, 3, 6, 5].getD ((0x17 * base) >>> 5 &&& 7) 0

/-- The two loops over the digits of a base: in `unsigned`, and from there in `unsigned long long`. -/
def intscanDecimal (uflow : Streambuf W → Int × Streambuf W) (fuel : Nat) (c : Int) (f : Scanbuf W)
    : Option (Int × Nat × Scanbuf W) :=
  (scanWhile uflow (fun c x => decimalVal c < 10 && x ≤ uintMax / 10 - 1)
      (fun x c => (x * 10 + decimalVal c) % 2 ^ 32) fuel c 0 f).bind fun (c, x, f) =>
  scanWhile uflow
    (fun c y => decimalVal c < 10 && y ≤ ullongMax / 10 && (10 * y) % 2 ^ 64 ≤ ullongMax - decimalVal c)
    (fun y c => (y * 10 + decimalVal c) % 2 ^ 64) fuel c x f

def intscanBinary (uflow : Streambuf W → Int × Streambuf W) (fuel base : Nat) (c : Int)
    (f : Scanbuf W)
    : Option (Int × Nat × Scanbuf W) :=
  let bs := bitShift base
  (scanWhile uflow (fun c x => digitVal c < base && x ≤ uintMax / 32)
      (fun x c => x <<< bs % 2 ^ 32 ||| digitVal c) fuel c 0 f).bind fun (c, x, f) =>
  scanWhile uflow (fun c y => digitVal c < base && y ≤ ullongMax >>> bs)
    (fun y c => y <<< bs % 2 ^ 64 ||| digitVal c) fuel c x f

def intscanGeneral (uflow : Streambuf W → Int × Streambuf W) (fuel base : Nat) (c : Int)
    (f : Scanbuf W)
    : Option (Int × Nat × Scanbuf W) :=
  (scanWhile uflow (fun c x => digitVal c < base && x ≤ uintMax / 36 - 1)
      (fun x c => (x * base + digitVal c) % 2 ^ 32) fuel c 0 f).bind fun (c, x, f) =>
  scanWhile uflow (fun c y =>
      digitVal c < base && y ≤ ullongMax / base && (base * y) % 2 ^ 64 ≤ ullongMax - digitVal c)
    (fun y c => (y * base + digitVal c) % 2 ^ 64) fuel c x f

/-- The label `done`. -/
def intscanDone (lim : Nat) (neg : Bool) (y : Nat) (errno : Option IntscanErrno) (f : Scanbuf W)
    : IntscanResult W :=
  let f := shunget f
  if y ≥ lim ∧ lim &&& 1 = 0 ∧ !neg then ⟨(lim + (2 ^ 64 - 1)) % 2 ^ 64, some .erange, f⟩
  else if y ≥ lim ∧ y > lim then ⟨lim, some .erange, f⟩
  else ⟨if neg then (2 ^ 64 - y) % 2 ^ 64 else y, errno, f⟩

/-- The digits of a number from `c` on. -/
def intscanDigits (uflow : Streambuf W → Int × Streambuf W) (fuel base lim : Nat) (neg : Bool)
    (c : Int) (f : Scanbuf W)
    : Option (IntscanResult W) :=
  (if base = 10 then intscanDecimal uflow fuel c f
    else if base &&& (base - 1) = 0 then intscanBinary uflow fuel base c f
    else intscanGeneral uflow fuel base c f).bind fun (c, y, f) =>
  if base = 10 ∧ decimalVal c ≥ 10 then some (intscanDone lim neg y none f)
  else if digitVal c < base then
    (scanWhile uflow (fun c _ => decide (digitVal c < base)) (fun a _ => a) fuel c () f).map
      fun (_, _, f) => intscanDone lim (if lim &&& 1 ≠ 0 then false else neg) lim (some .erange) f
  else some (intscanDone lim neg y none f)

/-- `__intscan` from behind the sign on. -/
def intscanUnsigned (uflow : Streambuf W → Int × Streambuf W) (fuel base : Nat) (pok : Bool)
    (lim : Nat) (neg : Bool) (c : Int) (f : Scanbuf W)
    : Option (IntscanResult W) :=
  if (base = 0 ∨ base = 16) ∧ c = 48 then
    let (c, f) := shgetc uflow f
    -- `(c|32)=='x'`
    if c = 120 ∨ c = 88 then
      let (c, f) := shgetc uflow f
      if digitVal c ≥ 16 then
        let f := shunget f
        some ⟨0, none, if pok then shunget f else shlim 0 f⟩
      else intscanDigits uflow fuel 16 lim neg c f
    else intscanDigits uflow fuel (if base = 0 then 8 else base) lim neg c f
  else
    let base := if base = 0 then 10 else base
    if digitVal c ≥ base then some ⟨0, some .einval, shlim 0 (shunget f)⟩
    else intscanDigits uflow fuel base lim neg c f

def intscan (uflow : Streambuf W → Int × Streambuf W) (fuel base : Nat) (pok : Bool) (lim : Nat)
    (f : Scanbuf W)
    : Option (IntscanResult W) :=
  if base > 36 ∨ base = 1 then some ⟨0, some .einval, f⟩
  else
    let (c, f) := shgetc uflow f
    (scanWhile uflow (fun c _ => isspaceInt c) (fun a _ => a) fuel c () f).bind fun (c, _, f) =>
    if c = 43 ∨ c = 45 then
      let neg := decide (c = 45)
      let (c, f) := shgetc uflow f
      intscanUnsigned uflow fuel base pok lim neg c f
    else intscanUnsigned uflow fuel base pok lim false c f

/-- The value of a letter or digit, 255 for other bytes. -/
def digitOf (b : UInt8) : Nat :=
  if 48 ≤ b ∧ b ≤ 57 then b.toNat - 48
  else if 65 ≤ b ∧ b ≤ 90 then b.toNat - 55
  else if 97 ≤ b ∧ b ≤ 122 then b.toNat - 87
  else 255

theorem digitVal_fin : ∀ n : Fin 256, digitVal (n.val : Int) = digitOf (UInt8.ofNat n) := by
  decide +kernel

theorem digitVal_toNat (b : UInt8) : digitVal b.toNat = digitOf b := by
  have same := digitVal_fin ⟨b.toNat, b.toNat_lt⟩
  rw [UInt8.ofNat_toNat] at same
  exact same

theorem digitVal_eof : digitVal eofValue = 255 := by
  decide

end Nglibc.Stdio

/-! What `__intscan` reads: its loops as loops over the bytes that its calls of `shgetc` return. -/

namespace Nglibc.Stdio

variable {W : Type} {refills : W → List (List UInt8)} {value : UInt8 → Int}
  {uflow : Streambuf W → Int × Streambuf W} {lim n : Nat} {whole : List (UInt8 × Bool)} {c : Int}
  {f : Scanbuf W}

/-- The bytes up to one that is taken for the end. -/
def heard (value : UInt8 → Int) : List (UInt8 × Bool) → List UInt8
  | [] => []
  | (b, mark) :: more => if mark ∧ value b < 0 then [] else b :: heard value more

/-- What the limit leaves of the input behind `n` bytes. -/
def limited {α : Type} (lim n : Nat) (whole : List α) : List α :=
  if lim = 0 then whole else whole.take (lim - n)

/-- The bytes that `shgetc` will return. -/
def ahead (value : UInt8 → Int) (lim n : Nat) (whole : List (UInt8 × Bool)) : List UInt8 :=
  heard value (limited lim n whole)

theorem limited_cons {α : Type} (room : lim = 0 ∨ n < lim) (x : α) (more : List α)
    : limited lim n (x :: more) = x :: limited lim (n + 1) more := by
  unfold limited
  split
  next => rfl
  next limit =>
    obtain ⟨k, left⟩ : ∃ k, lim - n = k + 1 := ⟨lim - n - 1, by omega⟩
    have left' : lim - (n + 1) = k := by omega
    rw [left, left', List.take_succ_cons]

theorem limited_full {α : Type} (full : lim ≠ 0 ∧ n = lim) (whole : List α)
    : limited lim n whole = [] := by
  rw [limited, if_neg full.1, full.2, Nat.sub_self, List.take_zero]

theorem limited_nil {α : Type} : limited lim n ([] : List α) = [] := by
  rw [limited, List.take_nil, ite_self]

theorem ahead_cons {b : UInt8} {mark : Bool} {more : List (UInt8 × Bool)} (room : lim = 0 ∨ n < lim)
    (kept : mark = true → 0 ≤ value b)
    : ahead value lim n ((b, mark) :: more) = b :: ahead value lim (n + 1) more := by
  have heard' : ¬ (mark = true ∧ value b < 0) :=
    fun both => absurd both.2 (Int.not_lt.mpr (kept both.1))
  rw [ahead, limited_cons room, heard, if_neg heard', ahead]

theorem At.ahead_stop (reading : At refills value lim n whole c f) (eof : c = eofValue)
    : ahead value lim n whole = [] := by
  cases reading with
  | byte b mark room split kept read =>
    rw [eofValue] at eof
    omega
  | stop none =>
    obtain rfl | full := none
    · rw [ahead, limited_nil, heard]
    · rw [ahead, limited_full full, heard]
  | lost b room split negative =>
    rw [split, ahead, limited_cons room, heard, if_pos ⟨rfl, negative⟩]

/-- `shgetc` has returned `c`, the first of the bytes `rest`, or `EOF`. -/
def Reached (refills : W → List (List UInt8)) (value : UInt8 → Int) (lim : Nat)
    (whole : List (UInt8 × Bool)) (rest : List UInt8) (c : Int) (f : Scanbuf W)
    : Prop :=
  ∃ n, At refills value lim n (whole.drop n) c f ∧ ahead value lim n (whole.drop n) = rest
    ∧ n + rest.length = (ahead value lim 0 whole).length

theorem Scanning.reached (refill : Refill refills value uflow) (faithful : Faithful value)
    (scanning : Scanning refills lim 0 f)
    : Reached refills value lim (marked refills f.src) (ahead value lim 0 (marked refills f.src))
        (Stdio.shgetc uflow f).1 (Stdio.shgetc uflow f).2 :=
  ⟨0, scanning.at refill faithful, rfl, Nat.zero_add _⟩

variable {rest : List UInt8} {b : UInt8}

theorem Reached.eof (reached : Reached refills value lim whole [] c f) : c = eofValue := by
  obtain ⟨n, reading, none, -⟩ := reached
  cases reading with
  | byte b mark room split kept =>
    rw [split, ahead_cons room kept] at none
    cases none
  | stop _ _ read => exact read
  | lost _ _ _ _ read => exact read

theorem Reached.byte (reached : Reached refills value lim whole (b :: rest) c f) : c = b.toNat := by
  obtain ⟨n, reading, some_, -⟩ := reached
  by_cases eof : c = eofValue
  · rw [reading.ahead_stop eof] at some_
    cases some_
  · cases reading with
    | byte b' mark room split kept read =>
      rw [split, ahead_cons room kept] at some_
      cases some_
      exact read
    | stop _ _ read => exact absurd read eof
    | lost _ _ _ _ read => exact absurd read eof

theorem Reached.next (refill : Refill refills value uflow) (faithful : Faithful value)
    (reached : Reached refills value lim whole (b :: rest) c f)
    : Reached refills value lim whole rest (Stdio.shgetc uflow f).1 (Stdio.shgetc uflow f).2 := by
  have read := reached.byte
  obtain ⟨n, reading, some_, count⟩ := reached
  have more : c ≠ eofValue := by
    rw [eofValue]
    omega
  cases reading with
  | byte b' mark room split kept read scanning behind =>
    rw [split, ahead_cons room kept] at some_
    injection some_ with same rest_
    have behind_ : whole.drop (n + 1) = marked refills f.src := by
      rw [← List.drop_drop, split, List.drop_succ_cons, List.drop_zero]
    refine ⟨n + 1, ?_, by rw [behind_, rest_], ?_⟩
    · rw [behind_]
      exact scanning.at refill faithful
    · rw [← count, List.length_cons, Nat.add_right_comm, Nat.add_assoc]
  | stop _ _ eof => exact absurd eof more
  | lost _ _ _ _ eof => exact absurd eof more

/-- A loop of `scanWhile` over the bytes themselves. -/
def takeLoop {α : Type} (keep : Int → α → Bool) (step : α → Int → α) : List UInt8 → α → α × List UInt8
  | [], a => (a, [])
  | b :: rest, a =>
    if keep b.toNat a then takeLoop keep step rest (step a b.toNat) else (a, b :: rest)

/-- By induction on the bytes. -/
theorem Reached.scanWhile {α : Type} {fuel : Nat} (refill : Refill refills value uflow)
    (faithful : Faithful value) (reached : Reached refills value lim whole rest c f)
    (keep : Int → α → Bool) (step : α → Int → α) (ends : ∀ a, keep eofValue a = false)
    (enough : rest.length < fuel) (a : α)
    : ∃ c' f', Stdio.scanWhile uflow keep step fuel c a f
        = some (c', (takeLoop keep step rest a).1, f')
      ∧ Reached refills value lim whole (takeLoop keep step rest a).2 c' f' := by
  induction rest generalizing fuel c f a with
  | nil =>
    obtain ⟨fuel, rfl⟩ := Nat.exists_eq_add_of_lt enough
    refine ⟨c, f, ?_, reached⟩
    have stop := ends a
    rw [← reached.eof] at stop
    simp [Stdio.scanWhile, stop, takeLoop]
  | cons b rest ih =>
    obtain ⟨fuel, rfl⟩ : ∃ k, fuel = k + 1 := ⟨fuel - 1, by omega⟩
    rw [Stdio.scanWhile, takeLoop, reached.byte]
    by_cases kept : keep b.toNat a = true
    · rw [if_pos kept, if_pos kept]
      exact ih (reached.next refill faithful) (Nat.lt_of_succ_lt_succ enough) _
    · rw [if_neg kept, if_neg kept]
      exact ⟨c, f, by rw [reached.byte], reached⟩

/-- The stream behind the bytes read, when the last character is unread. -/
structure LeftBehind (refills : W → List (List UInt8)) (value : UInt8 → Int) (lim : Nat)
    (whole : List (UInt8 × Bool)) (rest : List UInt8) (f : Scanbuf W) : Prop where
  fed : Fed refills f.src
  count : shcnt f + rest.length = (ahead value lim 0 whole).length
  input : inputOf refills f.src
        = (whole.drop ((ahead value lim 0 whole).length - rest.length)).map Prod.fst
      ∧ (rest = [] → limited lim (ahead value lim 0 whole).length
        (whole.drop (ahead value lim 0 whole).length) = [])
    ∨ rest = [] ∧ ∃ b, (lim = 0 ∨ (ahead value lim 0 whole).length < lim) ∧ value b < 0
        ∧ whole.drop (ahead value lim 0 whole).length = (b, true) :: marked refills f.src

theorem Reached.shunget (reached : Reached refills value lim whole rest c f)
    : LeftBehind refills value lim whole rest (Stdio.shunget f) := by
  obtain ⟨n, reading, rest_, count⟩ := reached
  have position : (ahead value lim 0 whole).length - rest.length = n := by omega
  cases reading with
  | byte b mark room split kept read scanning behind =>
    obtain ⟨scanning', unread, cookie⟩ := scanning.shunget behind
    refine ⟨scanning'.fed, by rw [scanning'.count, ← count]; rfl, .inl ⟨?_, fun empty => ?_⟩⟩
    · rw [position, split, List.map_cons, marked_fst, inputOf, unread, cookie]
      rfl
    · rw [split, ahead_cons room kept, empty] at rest_
      cases rest_
  | stop none same read stopped =>
    rw [stopped.shunget]
    refine ⟨stopped.fed, by rw [stopped.count, ← count]; rfl, .inl ⟨?_, fun empty => ?_⟩⟩
    · rw [position, ← same, marked_fst]
    · rw [← count, empty, List.length_nil, Nat.add_zero]
      obtain none | full := none
      · rw [none, limited_nil]
      · exact limited_full full _
  | lost b room split negative read stopped =>
    have empty : rest = [] := by
      rw [← rest_, split, ahead, limited_cons room, heard, if_pos ⟨rfl, negative⟩]
    subst empty
    rw [stopped.shunget]
    refine ⟨stopped.fed, by rw [stopped.count, ← count]; simp, .inr ⟨rfl, b, ?_, negative, ?_⟩⟩
    · rw [← count]
      exact room
    · rw [← count]
      exact split

end Nglibc.Stdio
