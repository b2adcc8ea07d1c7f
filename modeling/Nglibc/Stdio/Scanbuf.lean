import Nglibc.Stdio.InputFeed

/-! The reader of the `scanf` functions: a stream with a limit and a count of the bytes read. -/

namespace Nglibc.Stdio

variable {W : Type} {refills : W → List (List UInt8)}

/-- A `scanbuf`. -/
structure Scanbuf (W : Type) where
  src : Streambuf W
  shend : Nat
  shlim : Int
  shcnt : Int

def shcnt (f : Scanbuf W) : Int := (f.src.gptr - f.src.buf : Int) + f.shcnt

def shlim (lim : Int) (f : Scanbuf W) : Scanbuf W :=
  { f with
    shlim := lim
    shcnt := f.src.buf - f.src.gptr
    shend :=
      if lim ≠ 0 ∧ (f.src.egptr - f.src.gptr : Int) > lim then (f.src.gptr + lim).toNat
      else f.src.egptr }

/-- The end of `__shgetc` when no byte was read. -/
def shgetcStop (cnt : Int) (f : Scanbuf W) : Int × Scanbuf W :=
  (eofValue, { f with shcnt := f.src.buf - f.src.gptr + cnt, shend := f.src.gptr, shlim := -1 })

/-- The end of `__shgetc` at the byte `c`, the `cnt`-th one. -/
def shgetcRead (cnt c : Int) (f : Scanbuf W) : Int × Scanbuf W :=
  let f :=
    { f with
      shend :=
        if f.shlim ≠ 0 ∧ (f.src.egptr - f.src.gptr : Int) > f.shlim - cnt then
          (f.src.gptr + (f.shlim - cnt)).toNat
        else f.src.egptr
      shcnt := f.src.buf - f.src.gptr + cnt }
  if f.src.gptr ≤ f.src.buf then
    (c, { f with
      src := { f.src with memory := f.src.memory.store (f.src.gptr - 1) [UInt8.ofInt c] } })
  else (c, f)

/-- `__shgetc` -/
def shgetcRefill (uflow : Streambuf W → Int × Streambuf W) (f : Scanbuf W) : Int × Scanbuf W :=
  let cnt := shcnt f
  if f.shlim ≠ 0 ∧ cnt ≥ f.shlim then shgetcStop cnt f
  else
    let (c, src) := uflow f.src
    if c < 0 then shgetcStop cnt { f with src := src }
    else shgetcRead (cnt + 1) c { f with src := src }

def shgetc (uflow : Streambuf W → Int × Streambuf W) (f : Scanbuf W) : Int × Scanbuf W :=
  if f.src.gptr ≠ f.shend then
    ((f.src.memory f.src.gptr).toNat, { f with src := { f.src with gptr := f.src.gptr + 1 } })
  else shgetcRefill uflow f

def shunget (f : Scanbuf W) : Scanbuf W :=
  if f.shlim ≥ 0 then { f with src := { f.src with gptr := f.src.gptr - 1 } } else f

/-! Reading up to the limit -/

/-- `n` bytes were read since the limit `lim` was set, 0 for none. -/
structure Scanning (refills : W → List (List UInt8)) (lim n : Nat) (f : Scanbuf W) : Prop where
  fed : Fed refills f.src
  shlim : f.shlim = lim
  count : Stdio.shcnt f = n
  within : lim = 0 ∨ n ≤ lim
  shend : f.shend
    = if lim ≠ 0 ∧ f.src.egptr - f.src.gptr > lim - n then f.src.gptr + (lim - n) else f.src.egptr

/-- No byte can be read any more. `n` were. -/
structure Stopped (refills : W → List (List UInt8)) (n : Nat) (f : Scanbuf W) : Prop where
  fed : Fed refills f.src
  shlim : f.shlim = -1
  count : Stdio.shcnt f = n
  shend : f.shend = f.src.gptr

/-- The place in the get area where the limit is reached, in `long long` and in addresses. -/
theorem shend_cast (lim n : Nat) {gptr egptr : Nat} (get : gptr ≤ egptr) (within : lim = 0 ∨ n ≤ lim)
    : (if (lim : Int) ≠ 0 ∧ (egptr - gptr : Int) > lim - n then (gptr + (lim - n) : Int).toNat
        else egptr)
      = if lim ≠ 0 ∧ egptr - gptr > lim - n then gptr + (lim - n) else egptr := by
  by_cases reached : lim ≠ 0 ∧ egptr - gptr > lim - n
  · rw [if_pos reached, if_pos (by omega)]
    omega
  · rw [if_neg reached, if_neg (by omega)]

@[simp] theorem shlim_src (lim : Int) (f : Scanbuf W) : (shlim lim f).src = f.src := rfl

variable {f : Scanbuf W} {uflow : Streambuf W → Int × Streambuf W} {value : UInt8 → Int} {lim n : Nat}

theorem shlim_scanning (fed : Fed refills f.src) (lim : Nat)
    : Scanning refills lim 0 (shlim lim f) := by
  refine ⟨fed, rfl, ?_, .inr (Nat.zero_le _), ?_⟩
  · simp only [shcnt, shlim]
    omega
  · have place := shend_cast lim 0 fed.get (.inr (Nat.zero_le lim))
    exact place

theorem shgetcStop_stopped (fed : Fed refills f.src) (n : Nat)
    : Stopped refills n (shgetcStop n f).2 := by
  refine ⟨fed, rfl, ?_, rfl⟩
  simp only [shcnt, shgetcStop]
  omega

theorem shgetcRefill_limit {n : Nat} (count : shcnt f = n) (limit : f.shlim ≠ 0 ∧ (n : Int) ≥ f.shlim)
    (uflow : Streambuf W → Int × Streambuf W)
    : shgetcRefill uflow f = shgetcStop n f := by
  simp only [shgetcRefill, count]
  rw [if_pos limit]

theorem shgetcRefill_refill {n : Nat} (count : shcnt f = n) (room : ¬ (f.shlim ≠ 0 ∧ (n : Int) ≥ f.shlim))
    (uflow : Streambuf W → Int × Streambuf W)
    : shgetcRefill uflow f
      = if (uflow f.src).1 < 0 then shgetcStop n { f with src := (uflow f.src).2 }
        else shgetcRead (n + 1) (uflow f.src).1 { f with src := (uflow f.src).2 } := by
  simp only [shgetcRefill, count]
  rw [if_neg room]

theorem Stopped.shunget {n : Nat} (stopped : Stopped refills n f)
    : Stdio.shunget f = f := by
  have below : ¬ f.shlim ≥ 0 := by
    rw [stopped.shlim]
    decide
  rw [Stdio.shunget, if_neg below]

/-- What a call of `shgetc` does. -/
inductive Shgetc (refills : W → List (List UInt8)) (value : UInt8 → Int) (lim n : Nat) (f : Scanbuf W)
    (c : Int) (f' : Scanbuf W) : Prop where
  /-- a byte from the get area -/
  | ready (b : UInt8) (room : lim = 0 ∨ n < lim) (unread : f.src.unread = b :: f'.src.unread)
      (coming : refills f'.src.cookie = refills f.src.cookie) (read : c = b.toNat)
      (scanning : Scanning refills lim (n + 1) f') (behind : Behind b f'.src)
  /-- a byte from a refill -/
  | refill (b : UInt8) (room : lim = 0 ∨ n < lim) (unread : f.src.unread = [])
      (coming : refills f.src.cookie = (b :: f'.src.unread) :: refills f'.src.cookie)
      (nonneg : 0 ≤ value b) (read : c = value b) (scanning : Scanning refills lim (n + 1) f')
      (behind : value b = b.toNat → Behind b f'.src)
  /-- a byte from a refill, taken for the end -/
  | lost (b : UInt8) (room : lim = 0 ∨ n < lim) (unread : f.src.unread = [])
      (coming : refills f.src.cookie = (b :: f'.src.unread) :: refills f'.src.cookie)
      (negative : value b < 0) (read : c = eofValue) (stopped : Stopped refills n f')
  | ended (unread : f.src.unread = []) (coming : refills f.src.cookie = [])
      (unread' : f'.src.unread = []) (coming' : refills f'.src.cookie = []) (read : c = eofValue)
      (stopped : Stopped refills n f')
  | limit (full : lim ≠ 0 ∧ n = lim) (same : f'.src = f.src) (read : c = eofValue)
      (stopped : Stopped refills n f')

/-- A byte from the get area. -/
theorem Scanning.shgetc_ready (scanning : Scanning refills lim n f) (ready : f.src.gptr ≠ f.shend)
    : Shgetc refills value lim n f (f.src.memory f.src.gptr).toNat
        { f with src := { f.src with gptr := f.src.gptr + 1 } } := by
  have get := scanning.fed.get
  have shend := scanning.shend
  have some_ : f.src.gptr ≠ f.src.egptr ∧ (lim = 0 ∨ n < lim) := by
    split at shend <;> omega
  refine .ready _ some_.2 (scanning.fed.unread_cons some_.1) rfl rfl
    ⟨scanning.fed.advance some_.1, scanning.shlim, ?_, by omega, ?_⟩ (behind_advance _)
  · have count := scanning.count
    simp only [Stdio.shcnt] at count ⊢
    omega
  · rw [shend]
    simp only
    by_cases reached : lim ≠ 0 ∧ f.src.egptr - f.src.gptr > lim - n
    · rw [if_pos reached, if_pos (by omega)]
      omega
    · rw [if_neg reached, if_neg (by omega)]

private theorem shgetcRead_scanning {b : UInt8} {c : Int} (fed : Fed refills f.src) (limit : f.shlim = lim)
    (room : lim = 0 ∨ n < lim) (low : 0 < f.src.gptr)
    (byte : f.src.buf < f.src.gptr → f.src.memory (f.src.gptr - 1) = b)
    : Scanning refills lim (n + 1) (shgetcRead (n + 1) c f).2
      ∧ (shgetcRead (n + 1) c f).2.src.unread = f.src.unread
      ∧ (shgetcRead (n + 1) c f).2.src.cookie = f.src.cookie
      ∧ (c = b.toNat → Behind b (shgetcRead (n + 1) c f).2.src) := by
  have place := shend_cast lim (n + 1) fed.get (by omega)
  by_cases start : f.src.gptr ≤ f.src.buf
  · obtain ⟨fed', unread, behind⟩ := fed.store low (UInt8.ofInt c)
    simp only [shgetcRead, start, if_true, limit]
    refine ⟨⟨fed', rfl, ?_, by omega, place⟩, unread, trivial, ?_⟩
    · simp only [shcnt]
      omega
    · intro same
      rw [same, ofInt_toNat] at behind ⊢
      exact behind
  · simp only [shgetcRead, start, if_false, limit]
    refine ⟨⟨fed, rfl, ?_, by omega, place⟩, trivial, trivial, fun _ => ⟨low, byte (by omega)⟩⟩
    simp only [shcnt]
    omega

/-- A byte from a refill. -/
theorem Scanning.shgetc_refill {r : Int × Scanbuf W} (refill : Refill refills value uflow)
    (scanning : Scanning refills lim n f) (full : f.src.gptr = f.shend) (room : lim = 0 ∨ n < lim)
    (run : r = if (uflow f.src).1 < 0 then shgetcStop n { f with src := (uflow f.src).2 }
        else shgetcRead (n + 1) (uflow f.src).1 { f with src := (uflow f.src).2 })
    : Shgetc refills value lim n f r.1 r.2 := by
  have shend := scanning.shend
  have empty : f.src.gptr = f.src.egptr := by
    split at shend <;> omega
  obtain ⟨ends, brings⟩ := refill f.src scanning.fed empty
  cases scanning.fed.next with
  | ready b some_ => exact absurd empty some_
  | ended _ unread coming =>
    obtain ⟨eof, ended⟩ := ends coming
    have negative : (uflow f.src).1 < 0 := by
      rw [eof]
      decide
    rw [if_pos negative] at run
    rw [run]
    exact .ended unread coming ended.unread ended.later rfl (shgetcStop_stopped ended.fed n)
  | refill b more later _ unread coming =>
    obtain ⟨read, refilled⟩ := brings b more later coming
    rw [← refilled.unread, ← refilled.later] at coming
    rw [read] at run
    by_cases negative : value b < 0
    · rw [if_pos negative] at run
      rw [run]
      exact .lost b room unread coming negative rfl (shgetcStop_stopped refilled.fed n)
    · obtain ⟨scanning', same, cookie, behind⟩ := shgetcRead_scanning
        (f := { f with src := (uflow f.src).2 }) (c := value b)
        refilled.fed scanning.shlim room refilled.low refilled.byte
      rw [if_neg negative] at run
      rw [run]
      refine .refill b room unread ?_ (Int.not_lt.mp negative) ?_ scanning' behind
      · rw [same, cookie]
        exact coming
      · simp only [shgetcRead]
        split <;> rfl

theorem Scanning.shgetc (refill : Refill refills value uflow) (scanning : Scanning refills lim n f)
    : Shgetc refills value lim n f (Stdio.shgetc uflow f).1 (Stdio.shgetc uflow f).2 := by
  by_cases ready : f.src.gptr ≠ f.shend
  · rw [Stdio.shgetc, if_pos ready]
    exact scanning.shgetc_ready ready
  · have full := not_not.mp ready
    rw [Stdio.shgetc, if_neg ready]
    by_cases limit : lim ≠ 0 ∧ n = lim
    · have reached : f.shlim ≠ 0 ∧ (n : Int) ≥ f.shlim := by
        rw [scanning.shlim]
        omega
      rw [shgetcRefill_limit scanning.count reached]
      exact .limit limit rfl rfl (shgetcStop_stopped scanning.fed n)
    · have within := scanning.within
      have room : ¬ (f.shlim ≠ 0 ∧ (n : Int) ≥ f.shlim) := by
        rw [scanning.shlim]
        omega
      exact scanning.shgetc_refill refill full (by omega)
        (shgetcRefill_refill scanning.count room uflow)

/-- The byte read last is unread again. -/
theorem Scanning.shunget {b : UInt8} (scanning : Scanning refills lim (n + 1) f) (behind : Behind b f.src)
    : Scanning refills lim n (Stdio.shunget f) ∧ (Stdio.shunget f).src.unread = b :: f.src.unread
      ∧ (Stdio.shunget f).src.cookie = f.src.cookie := by
  obtain ⟨fed, unread⟩ := scanning.fed.back behind
  have low := behind.low
  have within := scanning.within
  have counted := scanning.count
  have above : f.shlim ≥ 0 := by
    rw [scanning.shlim]
    omega
  rw [Stdio.shunget, if_pos above]
  refine ⟨⟨fed, scanning.shlim, ?_, by omega, ?_⟩, unread, rfl⟩
  · simp only [Stdio.shcnt] at counted ⊢
    omega
  · rw [scanning.shend]
    simp only
    by_cases reached : lim ≠ 0 ∧ f.src.egptr - f.src.gptr > lim - (n + 1)
    · rw [if_pos reached, if_pos (by omega)]
      omega
    · rw [if_neg reached, if_neg (by omega)]

/-! The input as marked bytes -/

def marks : List UInt8 → List (UInt8 × Bool)
  | [] => []
  | b :: more => (b, true) :: more.map (fun b => (b, false))

/-- The bytes a stream has not delivered yet. Those that come first in a refill are marked. -/
def marked (refills : W → List (List UInt8)) (s : Streambuf W) : List (UInt8 × Bool) :=
  s.unread.map (fun b => (b, false)) ++ (refills s.cookie).flatMap marks

theorem marks_fst (chunk : List UInt8) : (marks chunk).map Prod.fst = chunk := by
  cases chunk with
  | nil => rfl
  | cons b more => simp [marks, Function.comp_def]

theorem marked_fst (s : Streambuf W) : (marked refills s).map Prod.fst = inputOf refills s := by
  have chunks (later : List (List UInt8)) : (later.flatMap marks).map Prod.fst = later.flatten := by
    induction later with
    | nil => rfl
    | cons chunk later ih => rw [List.flatMap_cons, List.map_append, marks_fst, ih, List.flatten_cons]
  rw [marked, List.map_append, chunks, inputOf]
  simp [Function.comp_def]

theorem marked_ready {s s' : Streambuf W} {b : UInt8} (unread : s.unread = b :: s'.unread)
    (coming : refills s'.cookie = refills s.cookie)
    : marked refills s = (b, false) :: marked refills s' := by
  rw [marked, marked, unread, coming, List.map_cons, List.cons_append]

theorem marked_refill {s s' : Streambuf W} {b : UInt8} (unread : s.unread = [])
    (coming : refills s.cookie = (b :: s'.unread) :: refills s'.cookie)
    : marked refills s = (b, true) :: marked refills s' := by
  rw [marked, unread, coming]
  rfl

theorem marked_ended {s : Streambuf W} (unread : s.unread = []) (coming : refills s.cookie = [])
    : marked refills s = [] := by
  rw [marked, unread, coming]
  rfl

/-- The last character read is `c`. Before it `n` bytes were read, and `whole` was left then. -/
inductive At (refills : W → List (List UInt8)) (value : UInt8 → Int) (lim n : Nat)
    (whole : List (UInt8 × Bool)) (c : Int) (f : Scanbuf W) : Prop where
  | byte (b : UInt8) (mark : Bool) (room : lim = 0 ∨ n < lim)
      (split : whole = (b, mark) :: marked refills f.src) (kept : mark = true → 0 ≤ value b)
      (read : c = b.toNat) (scanning : Scanning refills lim (n + 1) f) (behind : Behind b f.src)
  | stop (none : whole = [] ∨ lim ≠ 0 ∧ n = lim) (same : marked refills f.src = whole)
      (read : c = eofValue) (stopped : Stopped refills n f)
  | lost (b : UInt8) (room : lim = 0 ∨ n < lim) (split : whole = (b, true) :: marked refills f.src)
      (negative : value b < 0) (read : c = eofValue) (stopped : Stopped refills n f)

/-- A conversion of bytes to `int` that takes a byte for itself or for the end. -/
def Faithful (value : UInt8 → Int) : Prop := ∀ b, 0 ≤ value b → value b = b.toNat

theorem Scanning.at (refill : Refill refills value uflow) (faithful : Faithful value)
    (scanning : Scanning refills lim n f)
    : At refills value lim n (marked refills f.src) (Stdio.shgetc uflow f).1
        (Stdio.shgetc uflow f).2 := by
  cases scanning.shgetc refill with
  | ready b room unread coming read scanning behind =>
    exact .byte b false room (marked_ready unread coming) nofun read scanning behind
  | refill b room unread coming nonneg read scanning behind =>
    have same := faithful b nonneg
    exact .byte b true room (marked_refill unread coming) (fun _ => nonneg) (read.trans same)
      scanning (behind same)
  | lost b room unread coming negative read stopped =>
    exact .lost b room (marked_refill unread coming) negative read stopped
  | ended unread coming unread' coming' read stopped =>
    have none := marked_ended unread coming
    exact .stop (.inl none) ((marked_ended unread' coming').trans none.symm) read stopped
  | limit full same read stopped => exact .stop (.inr full) (by rw [same]) read stopped

end Nglibc.Stdio
