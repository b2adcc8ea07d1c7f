import Mathlib.Algebra.Ring.Int.Defs
import Nglibc.Stdio.Input

/-! `__fread_unlocked` over any answers of `read`. An answer of -1 moves the destination one byte back and
asks for one byte more.
-/

namespace Nglibc.Stdio

variable {W : Type} {virt : Jumptable W}

/-- The contract of a cookie: a read stores the bytes it counts, up to `len`, or fails with -1. -/
def CookieRead (virt : Jumptable W) : Prop := ∀ s len, 0 < len →
    (virt.read s len).1 = -1 ∧ (virt.read s len).2.1 = []
    ∨ (virt.read s len).1 = (virt.read s len).2.1.length ∧ (virt.read s len).2.1.length ≤ len

def readOnce (virt : Jumptable W) (l : Nat) (s : Streambuf W) : Int × List UInt8 × Streambuf W :=
  let (failed, s) := s.toread virt.write
  if failed ≠ 0 then (0, [], s) else virt.read s l

/-- The answers of the reads for `l` bytes. Each asks for what is missing, where an answer of -1 adds one
byte; they end with 0 or when nothing is missing.
-/
inductive ReadAnswers (virt : Jumptable W) : Nat → Streambuf W → List Int → Prop where
  | full (s : Streambuf W) : ReadAnswers virt 0 s []
  | ended {l : Nat} {s : Streambuf W} (zero : (readOnce virt (l + 1) s).1 = 0)
      : ReadAnswers virt (l + 1) s [0]
  | more {l : Nat} {s : Streambuf W} {answers : List Int} (some_ : 0 < (readOnce virt (l + 1) s).1)
      (later : ReadAnswers virt (l + 1 - (readOnce virt (l + 1) s).1.toNat)
        (readOnce virt (l + 1) s).2.2 answers)
      : ReadAnswers virt (l + 1) s ((readOnce virt (l + 1) s).1 :: answers)
  | failed {l : Nat} {s : Streambuf W} {answers : List Int}
      (error : (readOnce virt (l + 1) s).1 = -1)
      (later : ReadAnswers virt (l + 2) (readOnce virt (l + 1) s).2.2 answers)
      : ReadAnswers virt (l + 1) s (-1 :: answers)

def StaysIn : Int → List Int → Prop
  | _, [] => True
  | place, answer :: answers => 0 ≤ place + answer ∧ StaysIn (place + answer) answers

/-- The bytes that are delivered before the first answer of 0 or -1. -/
def delivered (virt : Jumptable W) (l : Nat) (s : Streambuf W) : Nat :=
  if _more : 0 < l ∧ 0 < (readOnce virt l s).1 then
    (readOnce virt l s).1.toNat
      + delivered virt (l - (readOnce virt l s).1.toNat) (readOnce virt l s).2.2
  else 0
termination_by l
decreasing_by omega

/-- The bytes that `__fread_unlocked` takes from the get area. -/
def buffered (size nmemb : Nat) (s : Streambuf W) : Nat := min (s.egptr - s.gptr) (size * nmemb)

def exhausted (size nmemb : Nat) (s : Streambuf W) : Streambuf W :=
  { s with gptr := s.gptr + buffered size nmemb s }

def wholeItems (virt : Jumptable W) (size nmemb : Nat) (s : Streambuf W) : Nat :=
  (buffered size nmemb s
    + delivered virt (size * nmemb - buffered size nmemb s) (exhausted size nmemb s)) / size

/-- A function of the destination that ends with `n` and stores nothing from the offset `len` on. -/
def Leaves (len n : Nat) (run : Memory UInt8 → Option (Nat × Memory UInt8 × Streambuf W)) : Prop :=
  ∀ dest, ∃ dest' s', run dest = some (n, dest', s') ∧ ∀ x, len ≤ x → dest' x = dest x

/-- `__fread_unlocked` ends, stores inside its buffer only, and counts the whole items. -/
def ReadsItems (virt : Jumptable W) (size nmemb : Nat) (s : Streambuf W) : Prop :=
  ∃ fuel, Leaves (size * nmemb) (wholeItems virt size nmemb s)
    fun dest => freadUnlocked virt fuel dest size nmemb s

/-- The answers come to an end, without a place below 0, inside the item of the first 0 or -1. -/
def AnswersFit (virt : Jumptable W) (size nmemb : Nat) (s : Streambuf W) : Prop :=
  ∃ answers, ReadAnswers virt (size * nmemb - buffered size nmemb s) (exhausted size nmemb s) answers
    ∧ StaysIn (buffered size nmemb s) answers
    ∧ (buffered size nmemb s + answers.sum) / size = (wholeItems virt size nmemb s : Int)

/-- A function of the destination whose result and stores do not depend on what was there before. -/
structure Blind (run : Memory UInt8 → Option (Nat × Memory UInt8 × Streambuf W)) : Prop where
  result : ∀ dest dest₂, (run dest).map (·.1) = (run dest₂).map (·.1)
  cell : ∀ x, (∀ dest r, run dest = some r → r.2.1 x = dest x)
    ∨ ∃ v, ∀ dest r, run dest = some r → r.2.1 x = v

theorem store_inside {a x : Nat} {bytes : List UInt8} (inside : a ≤ x ∧ x < a + bytes.length)
    : ∃ v, ∀ m : Memory UInt8, m.store a bytes x = v := by
  have bound : x - a < bytes.length := by omega
  refine ⟨bytes.get ⟨x - a, bound⟩, fun m => ?_⟩
  rw [Memory.store, if_pos inside.1, List.getElem?_eq_getElem bound]
  rfl

theorem store_cell (a : Nat) (bytes : List UInt8) (x : Nat)
    : (∀ m : Memory UInt8, m.store a bytes x = m x)
      ∨ ∃ v, ∀ m : Memory UInt8, m.store a bytes x = v := by
  by_cases inside : a ≤ x ∧ x < a + bytes.length
  · exact .inr (store_inside inside)
  · exact .inl fun m => Memory.store_outside (by omega)

variable {s : Streambuf W} {len n size nmemb fuel place : Nat}
  {run : Memory UInt8 → Option (Nat × Memory UInt8 × Streambuf W)} {l : Nat}

/-- Stores before a function of the destination. -/
theorem Blind.store (blind : Blind run) (a : Nat) (bytes : List UInt8)
    : Blind fun dest => run (dest.store a bytes) := by
  refine ⟨fun dest dest₂ => blind.result _ _, fun x => ?_⟩
  rcases blind.cell x with same | ⟨v, stored⟩
  · rcases store_cell a bytes x with kept | ⟨v, stored⟩
    · exact .inl fun dest r ran => (same _ r ran).trans (kept dest)
    · exact .inr ⟨v, fun dest r ran => (same _ r ran).trans (stored dest)⟩
  · exact .inr ⟨v, fun dest r ran => stored _ r ran⟩

theorem freadLoop_step (virt : Jumptable W) (size nmemb len fuel l place : Nat) (dest : Memory UInt8)
    (s : Streambuf W)
    : freadLoop virt size nmemb len (fuel + 1) (l + 1) place dest s
      = if toSizeT (readOnce virt (l + 1) s).1 = 0 then
          some (toSizeT (len - (l + 1)) / size, dest, (readOnce virt (l + 1) s).2.2)
        else
          freadLoop virt size nmemb len fuel (toSizeT (l + 1 - toSizeT (readOnce virt (l + 1) s).1))
            ((place + toSizeT (readOnce virt (l + 1) s).1) % 2 ^ 64)
            (dest.store place (readOnce virt (l + 1) s).2.1) (readOnce virt (l + 1) s).2.2 := by
  rfl

/-- The loop never reads its destination; by induction on the reads. -/
theorem freadLoop_blind (virt : Jumptable W) (size nmemb len fuel l place : Nat) (s : Streambuf W)
    : Blind fun dest => freadLoop virt size nmemb len fuel l place dest s := by
  have ended (n : Nat) (s' : Streambuf W) : Blind fun dest => some (n, dest, s') := by
    refine ⟨fun dest dest₂ => rfl, fun x => .inl fun dest r ran => ?_⟩
    cases ran
    rfl
  induction fuel generalizing l place s with
  | zero => exact ⟨fun dest dest₂ => rfl, fun x => .inl fun dest r ran => by cases ran⟩
  | succ fuel ih =>
    cases l with
    | zero => exact ended nmemb s
    | succ l =>
      simp only [freadLoop_step]
      by_cases zero : toSizeT (readOnce virt (l + 1) s).1 = 0
      · simp only [zero, if_true]
        exact ended _ _
      · simp only [zero, if_false]
        exact (ih _ _ _).store place _

/-- A run behind a store, and where that store is. -/
theorem Leaves.inner {len n a : Nat} {bytes : List UInt8} (blind : Blind run)
    (leaves : Leaves len n fun dest => run (dest.store a bytes))
    : Leaves len n run ∧ ∀ x, len ≤ x → ¬ (a ≤ x ∧ x < a + bytes.length) := by
  have changes {x : Nat} (outside : len ≤ x) (v : UInt8)
      (stored : ∀ (dest : Memory UInt8) r, run (dest.store a bytes) = some r → r.2.1 x = v)
      : False := by
    obtain ⟨dest', s', ran, same⟩ := leaves fun _ => v + 1
    have both := (stored _ _ ran).symm.trans (same x outside)
    simp at both
  constructor
  · intro dest
    obtain ⟨dest', s', ran, -⟩ := leaves dest
    have ran' : run (dest.store a bytes) = some (n, dest', s') := ran
    have result := blind.result dest (dest.store a bytes)
    rw [ran', Option.map_some, Option.map_eq_some_iff] at result
    obtain ⟨⟨m, dest₂, s₂⟩, ran₂, rfl⟩ := result
    refine ⟨dest₂, s₂, ran₂, fun x outside => ?_⟩
    rcases blind.cell x with same | ⟨v, stored⟩
    · exact same dest _ ran₂
    · exact (changes outside v fun dest r ran => stored _ r ran).elim
  · intro x outside inside
    obtain ⟨v, stored⟩ := store_inside inside
    rcases blind.cell x with same | ⟨w, stored'⟩
    · exact changes outside v fun dest r ran => (same _ r ran).trans (stored dest)
    · exact changes outside w fun dest r ran => stored' _ r ran

/-- What a read answers: an error, nothing, or some of the bytes asked for. -/
theorem readOnce_cases (cookie : CookieRead virt) (l : Nat) (s : Streambuf W)
    : ∃ answer bytes s', readOnce virt (l + 1) s = (answer, bytes, s')
      ∧ (answer = -1 ∧ bytes = [] ∨ answer = 0
        ∨ answer = bytes.length ∧ 0 < bytes.length ∧ bytes.length ≤ l + 1) := by
  by_cases failed : (s.toread virt.write).1 ≠ 0
  · exact ⟨0, [], _, if_pos failed, .inr (.inl rfl)⟩
  · refine ⟨_, _, _, if_neg failed, ?_⟩
    rcases cookie (s.toread virt.write).2 (l + 1) (Nat.succ_pos l) with error | ⟨count, most⟩
    · exact .inl error
    · refine .inr (or_iff_not_imp_left.mpr fun nonzero => ⟨count, ?_, most⟩)
      exact Nat.pos_of_ne_zero fun none => nonzero (count.trans (congrArg Nat.cast none))

variable {s' : Streambuf W} {bytes : List UInt8}

theorem freadLoop_ended (once : readOnce virt (l + 1) s = (0, bytes, s'))
    (size nmemb len fuel place : Nat) (dest : Memory UInt8)
    : freadLoop virt size nmemb len (fuel + 1) (l + 1) place dest s
      = some (toSizeT (len - (l + 1)) / size, dest, s') := by
  rw [freadLoop_step, once]
  rfl

theorem freadLoop_more (once : readOnce virt (l + 1) s = ((bytes.length : Int), bytes, s'))
    (small : l + 1 < 2 ^ 64) (some_ : 0 < bytes.length) (most : bytes.length ≤ l + 1)
    (size nmemb len fuel place : Nat) (dest : Memory UInt8)
    : freadLoop virt size nmemb len (fuel + 1) (l + 1) place dest s
      = freadLoop virt size nmemb len fuel (l + 1 - bytes.length) ((place + bytes.length) % 2 ^ 64)
          (dest.store place bytes) s' := by
  have k : toSizeT bytes.length = bytes.length := toSizeT_natCast (by omega)
  have left : toSizeT ((l + 1 : Int) - bytes.length) = l + 1 - bytes.length := by
    unfold toSizeT
    omega
  rw [freadLoop_step, once, k, if_neg (by omega), left]

theorem freadLoop_failed (once : readOnce virt (l + 1) s = (-1, [], s'))
    (size nmemb len fuel place : Nat) (dest : Memory UInt8)
    : freadLoop virt size nmemb len (fuel + 1) (l + 1) place dest s
      = freadLoop virt size nmemb len fuel ((l + 2) % 2 ^ 64) ((place + (2 ^ 64 - 1)) % 2 ^ 64) dest
          s' := by
  have k : toSizeT (-1) = 2 ^ 64 - 1 := by decide
  have left : toSizeT ((l + 1 : Int) - (2 ^ 64 - 1 : Nat)) = (l + 2) % 2 ^ 64 := by
    unfold toSizeT
    omega
  rw [freadLoop_step, once, k, if_neg (by omega), left, Memory.store_nil]

section

variable (leaves : Leaves len n fun dest => freadLoop virt size nmemb len (fuel + 1) (l + 1) place dest s)
include leaves

theorem Leaves.more (once : readOnce virt (l + 1) s = ((bytes.length : Int), bytes, s'))
    (small : l + 1 < 2 ^ 64) (some_ : 0 < bytes.length) (most : bytes.length ≤ l + 1)
    : Leaves len n (fun dest =>
        freadLoop virt size nmemb len fuel (l + 1 - bytes.length)
          ((place + bytes.length) % 2 ^ 64) dest s')
      ∧ place < len := by
  simp only [freadLoop_more once small some_ most] at leaves
  obtain ⟨inner, outside⟩ := leaves.inner (freadLoop_blind virt size nmemb len fuel _ _ _)
  refine ⟨inner, ?_⟩
  by_contra behind
  exact outside place (Nat.le_of_not_lt behind) ⟨le_rfl, by omega⟩

theorem Leaves.ended (once : readOnce virt (l + 1) s = (0, bytes, s'))
    : n = toSizeT (len - (l + 1)) / size := by
  obtain ⟨dest', s', ran, -⟩ := leaves fun _ => 0
  have result := (freadLoop_ended once size nmemb len fuel place _).symm.trans ran
  rw [Option.some.injEq, Prod.mk.injEq] at result
  exact result.1.symm

end

/-- The result of a run with nothing to read. -/
theorem Leaves.full (leaves : Leaves len n fun dest => freadLoop virt size nmemb len fuel 0 place dest s)
    : n = nmemb := by
  obtain ⟨dest', s', ran, -⟩ := leaves fun _ => 0
  cases fuel with
  | zero => cases ran
  | succ fuel =>
    simp only [freadLoop, Option.some.injEq, Prod.mk.injEq] at ran
    exact ran.1.symm

/-- From a place below the buffer a run ends with too large a result, or stores there. By induction on
the reads.
-/
theorem freadLoop_below (cookie : CookieRead virt) {size len fuel j n : Nat}
    (below : 0 < j) (small : len + j < 2 ^ 64)
    (leaves : Leaves len n fun dest =>
      freadLoop virt size (len / size) len fuel (len + j) (2 ^ 64 - j) dest s)
    : len / size ≤ n := by
  induction fuel generalizing j s with
  | zero =>
    obtain ⟨dest', s', ran, -⟩ := leaves fun _ => 0
    cases ran
  | succ fuel ih =>
    obtain ⟨l, missing⟩ : ∃ l, len + j = l + 1 := ⟨len + j - 1, by omega⟩
    rw [missing] at leaves
    obtain ⟨_, bytes, s', once, ⟨rfl, rfl⟩ | rfl | ⟨rfl, some_, most⟩⟩ := readOnce_cases cookie l s
    · simp only [freadLoop_failed once] at leaves
      have back : (2 ^ 64 - j + (2 ^ 64 - 1)) % 2 ^ 64 = 2 ^ 64 - (j + 1) := by omega
      by_cases wraps : l + 2 = 2 ^ 64
      · rw [wraps] at leaves
        exact Nat.le_of_eq leaves.full.symm
      · have next : (l + 2) % 2 ^ 64 = len + (j + 1) := by omega
        rw [back, next] at leaves
        exact ih (Nat.succ_pos j) (by omega) leaves
    · have far : toSizeT ((len : Int) - (l + 1)) = 2 ^ 64 - j := by
        unfold toSizeT
        omega
      rw [leaves.ended once]
      exact Nat.div_le_div_right (by omega)
    · have inside := (leaves.more once (missing ▸ small) some_ most).2
      omega

theorem delivered_none (none : (readOnce virt (l + 1) s).1 ≤ 0)
    : delivered virt (l + 1) s = 0 := by
  rw [delivered, dif_neg fun both => absurd both.2 (Int.not_lt.mpr none)]

theorem delivered_more (once : readOnce virt (l + 1) s = ((bytes.length : Int), bytes, s'))
    (some_ : 0 < bytes.length)
    : delivered virt (l + 1) s = bytes.length + delivered virt (l + 1 - bytes.length) s' := by
  rw [delivered, dif_pos ⟨Nat.succ_pos l, by rw [once]; exact Int.natCast_pos.mpr some_⟩, once]
  rfl

/-- A run from inside the buffer that stores nothing outside: the answers come to an end in the buffer,
or the result is too large behind an error. By induction on the reads.
-/
theorem freadLoop_answers (cookie : CookieRead virt) {size len fuel l place n : Nat}
    (missing : place + l = len) (small : len < 2 ^ 63)
    (leaves : Leaves len n fun dest => freadLoop virt size (len / size) len fuel l place dest s)
    : (∃ answers, ReadAnswers virt l s answers ∧ StaysIn place answers
        ∧ (place + answers.sum) / size = (n : Int))
      ∨ len / size ≤ n ∧ place + delivered virt l s < len := by
  induction fuel generalizing l place s with
  | zero =>
    obtain ⟨dest', s', ran, -⟩ := leaves fun _ => 0
    cases ran
  | succ fuel ih =>
    cases l with
    | zero =>
      have all := leaves.full
      refine .inl ⟨[], .full s, trivial, ?_⟩
      rw [all, ← missing, List.sum_nil]
      exact (Int.natCast_ediv place size).symm
    | succ l =>
      obtain ⟨_, bytes, s', once, ⟨rfl, rfl⟩ | rfl | ⟨rfl, some_, most⟩⟩ := readOnce_cases cookie l s
      · have none : delivered virt (l + 1) s = 0 := delivered_none (by simp [once])
        have further : (l + 2) % 2 ^ 64 = l + 2 := Nat.mod_eq_of_lt (by omega)
        simp only [freadLoop_failed once, further] at leaves
        rcases Nat.eq_zero_or_pos place with start | behind
        · -- the place falls below the buffer
          have back : (place + (2 ^ 64 - 1)) % 2 ^ 64 = 2 ^ 64 - 1 := by omega
          have wider : l + 2 = len + 1 := by omega
          rw [back, wider] at leaves
          exact .inr ⟨freadLoop_below cookie Nat.one_pos (by omega) leaves, by omega⟩
        · have back : (place + (2 ^ 64 - 1)) % 2 ^ 64 = place - 1 := by omega
          rw [back] at leaves
          have step : ((place - 1 : Nat) : Int) = (place : Int) + -1 := by omega
          rcases ih (by omega) leaves with ⟨answers, later, stays, ends⟩ | ⟨large, -⟩
          · rw [step] at stays ends
            refine .inl ⟨-1 :: answers, .failed (by rw [once]) (by rw [once]; exact later),
              ⟨by omega, stays⟩, ?_⟩
            rw [List.sum_cons, ← Int.add_assoc]
            exact ends
          · exact .inr ⟨large, by omega⟩
      · have at_ : toSizeT ((len : Int) - (l + 1)) = place := by
          unfold toSizeT
          omega
        refine .inl ⟨[0], .ended (by rw [once]), ⟨by omega, trivial⟩, ?_⟩
        rw [leaves.ended once, at_, List.sum_singleton]
        exact (Int.natCast_ediv place size).symm
      · obtain ⟨inner, -⟩ := leaves.more once (by omega) some_ most
        have next : (place + bytes.length) % 2 ^ 64 = place + bytes.length :=
          Nat.mod_eq_of_lt (by omega)
        rw [next] at inner
        rcases ih (by omega) inner with ⟨answers, later, stays, ends⟩ | ⟨large, error⟩
        · rw [Int.natCast_add] at stays ends
          refine .inl ⟨bytes.length :: answers, ?_, ⟨by omega, stays⟩, ?_⟩
          · have more := @ReadAnswers.more W virt l s answers
            rw [once] at more
            exact more (Int.natCast_pos.mpr some_) later
          · rw [List.sum_cons, ← Int.add_assoc]
            exact ends
        · rw [delivered_more once some_]
          exact .inr ⟨large, by omega⟩

/-- Answers that stay in the buffer make the loop end. By induction on the answers. -/
theorem freadLoop_ends (cookie : CookieRead virt) {size len l place n : Nat} {answers : List Int}
    (missing : place + l = len) (small : len < 2 ^ 63) (reads : ReadAnswers virt l s answers)
    (stays : StaysIn place answers) (ends : (place + answers.sum) / size = (n : Int))
    : Leaves len n fun dest =>
        freadLoop virt size (len / size) len (answers.length + 1) l place dest s := by
  induction reads generalizing place with
  | full s =>
    intro dest
    have all : len / size = n := by
      rw [← missing]
      exact Int.ofNat.inj ends
    exact ⟨dest, s, by rw [all]; rfl, fun x _ => rfl⟩
  | @ended l s zero =>
    intro dest
    have at_ : toSizeT ((len : Int) - (l + 1)) = place := by
      unfold toSizeT
      omega
    have items : place / size = n := by
      exact Int.ofNat.inj ends
    have once : readOnce virt (l + 1) s = (0, _, _) := Prod.ext zero rfl
    have round := freadLoop_ended once size (len / size) len 1 place dest
    rw [at_, items] at round
    exact ⟨dest, _, round, fun x _ => rfl⟩
  | @more l s answers some_ later ih =>
    obtain ⟨_, bytes, s', once, ⟨rfl, -⟩ | rfl | ⟨rfl, full, most⟩⟩ := readOnce_cases cookie l s
    · simp [once] at some_
    · simp [once] at some_
    · rw [once] at ih stays ends
      have next : (place + bytes.length) % 2 ^ 64 = place + bytes.length :=
        Nat.mod_eq_of_lt (by omega)
      have inner := @ih (place + bytes.length) (by dsimp only; omega)
        (by rw [Int.natCast_add]; exact stays.2)
        (by rw [Int.natCast_add, Int.add_assoc]; exact ends)
      intro dest
      obtain ⟨dest', s'', ran, same⟩ := inner (dest.store place bytes)
      refine ⟨dest', s'', ?_, fun x outside => ?_⟩
      · have round := freadLoop_more once (by omega) full most size (len / size) len
          (answers.length + 1) place dest
        rw [next] at round
        exact round.trans ran
      · rw [same x outside]
        exact Memory.store_outside (.inr (by omega))
  | @failed l s answers error later ih =>
    obtain ⟨_, bytes, s', once, ⟨rfl, rfl⟩ | rfl | ⟨rfl, -⟩⟩ := readOnce_cases cookie l s
    · rw [once] at ih
      have above : 1 ≤ place := by
        have first := stays.1
        omega
      have back : (place + (2 ^ 64 - 1)) % 2 ^ 64 = place - 1 := by omega
      have further : (l + 2) % 2 ^ 64 = l + 2 := Nat.mod_eq_of_lt (by omega)
      have step : ((place - 1 : Nat) : Int) = (place : Int) + -1 := by omega
      have inner := @ih (place - 1) (by omega) (by rw [step]; exact stays.2)
        (by rw [step, Int.add_assoc]; exact ends)
      intro dest
      have round := freadLoop_failed once size (len / size) len (answers.length + 1) place dest
      obtain ⟨dest', s'', ran, same⟩ := inner dest
      rw [back, further] at round
      exact ⟨dest', s'', round.trans ran, same⟩
    · simp [once] at error
    · rw [once] at error
      dsimp only at error
      omega

theorem freadUnlocked_loop (virt : Jumptable W) {size nmemb : Nat} (some_ : 0 < size)
    (small : size * nmemb < 2 ^ 63) (fuel : Nat) (dest : Memory UInt8) (s : Streambuf W)
    : freadUnlocked virt fuel dest size nmemb s
      = freadLoop virt size (size * nmemb / size) (size * nmemb) fuel
          (size * nmemb - buffered size nmemb s) (buffered size nmemb s)
          (dest.store 0 (s.memory.slice s.gptr (buffered size nmemb s))) (exhausted size nmemb s) := by
  have len : size * nmemb % 2 ^ 64 = size * nmemb := Nat.mod_eq_of_lt (by omega)
  have items : (if size = 0 then 0 else nmemb) = size * nmemb / size := by
    rw [if_neg (Nat.ne_of_gt some_), Nat.mul_div_cancel_left _ some_]
  rw [freadUnlocked, len, items]
  rfl

/-- `__fread_unlocked` counts the whole items before the first answer of 0 or -1 and stores inside its
buffer only, if and only if the answers behind it stay in the buffer and end in the same item.
-/
theorem freadUnlocked_iff (cookie : CookieRead virt) {size nmemb : Nat} (some_ : 0 < size)
    (small : size * nmemb < 2 ^ 63) (s : Streambuf W)
    : ReadsItems virt size nmemb s ↔ AnswersFit virt size nmemb s := by
  have held : buffered size nmemb s ≤ size * nmemb := Nat.min_le_right _ _
  have missing := Nat.add_sub_of_le held
  constructor
  · rintro ⟨fuel, leaves⟩
    simp only [freadUnlocked_loop virt some_ small] at leaves
    obtain ⟨inner, -⟩ := leaves.inner (freadLoop_blind virt size _ _ fuel _ _ _)
    rcases freadLoop_answers cookie missing small inner with fit | ⟨large, error⟩
    · exact fit
    · -- an error came before the last item was there
      have less : wholeItems virt size nmemb s < size * nmemb / size := by
        rw [Nat.mul_div_cancel_left _ some_, wholeItems, Nat.div_lt_iff_lt_mul some_,
          Nat.mul_comm nmemb]
        exact error
      exact absurd large (Nat.not_le_of_lt less)
  · rintro ⟨answers, reads, stays, ends⟩
    refine ⟨answers.length + 1, fun dest => ?_⟩
    obtain ⟨dest', s', ran, same⟩ := freadLoop_ends cookie missing small reads stays ends
      (dest.store 0 (s.memory.slice s.gptr (buffered size nmemb s)))
    refine ⟨dest', s', (freadUnlocked_loop virt some_ small _ dest s).trans ran, fun x outside => ?_⟩
    rw [same x outside]
    apply Memory.store_outside
    rw [Memory.length_slice]
    omega

def scriptTable : Jumptable (List (Option (List UInt8))) where
  read s len :=
    match s.cookie with
    | [] => (0, [], s)
    | none :: later => (-1, [], { s with cookie := later })
    | some bytes :: later => ((bytes.take len).length, bytes.take len, { s with cookie := later })
  write s _ := (0, s)
  seek s _ _ := (-1, 0, s)

theorem scriptTable_cookieRead : CookieRead scriptTable := by
  intro s len _
  match coming : s.cookie with
  | [] =>
    simp only [scriptTable, coming]
    exact .inr ⟨rfl, Nat.zero_le _⟩
  | none :: later =>
    simp only [scriptTable, coming]
    exact .inl ⟨trivial, trivial⟩
  | some bytes :: later =>
    simp only [scriptTable, coming]
    exact .inr ⟨trivial, List.length_take_le _ _⟩

def scriptStream (script : List (Option (List UInt8))) : Streambuf (List (Option (List UInt8))) :=
  Streambuf.finit false true false false (fun _ => 0) script 16 256

/-- An error behind three bytes of an item of four, before the end. -/
theorem freadUnlocked_iff_error
    : ReadsItems scriptTable 4 2 (scriptStream [some [97, 98, 99], none]) := by
  apply (freadUnlocked_iff scriptTable_cookieRead (by decide) (by decide) _).mpr
  refine ⟨[3, -1, 0], ?_, ⟨by decide, by decide, by decide, trivial⟩, ?_⟩
  · exact .more (by decide) (.failed rfl (.ended rfl))
  · have three : delivered scriptTable 8 (scriptStream [some [97, 98, 99], none]) = 3 := by
      have none_ : (readOnce scriptTable 5
          (readOnce scriptTable 8 (scriptStream [some [97, 98, 99], none])).2.2).1 ≤ 0 := by decide
      rw [@delivered_more _ scriptTable _ 7 _ [97, 98, 99] rfl (by decide)]
      exact congrArg (3 + ·) (delivered_none none_)
    have items : wholeItems scriptTable 4 2 (scriptStream [some [97, 98, 99], none]) = (0 + 3) / 4 :=
      congrArg (fun n => (0 + n) / 4) three
    rw [items]
    rfl

/-- An error and then the end of the file: `fread` of four bytes returns `SIZE_MAX`. -/
theorem freadUnlocked_error_counts : ¬ ReadsItems scriptTable 1 4 (scriptStream [none]) := by
  rintro ⟨fuel, leaves⟩
  have none_ : wholeItems scriptTable 1 4 (scriptStream [none]) = 0 :=
    congrArg (fun n => (0 + n) / 1) (delivered_none (l := 3) (by decide))
  obtain ⟨dest', s', ran, -⟩ := leaves (fun _ => 0 : Memory UInt8)
  rw [none_] at ran
  match fuel with
  | 0 => cases ran
  | 1 => cases ran
  | fuel + 2 =>
    have count : (freadUnlocked scriptTable (fuel + 2) (fun _ => 0 : Memory UInt8) 1 4
        (scriptStream [none])).map (·.1) = some (2 ^ 64 - 1) := rfl
    have both := (congrArg (Option.map (·.1)) ran).symm.trans count
    exact absurd (Option.some.inj both) (by decide : ¬ 0 = 2 ^ 64 - 1)

end Nglibc.Stdio
