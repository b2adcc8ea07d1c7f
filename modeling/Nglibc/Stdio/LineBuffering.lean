import Nglibc.Stdio.PutArea

/-! Line buffering asked for with `setvbuf`: what is pending holds no newline, as long as `F_LBF` was set or
no block with a newline fits the buffer.
-/

namespace Nglibc.Stdio

open List

variable {W : Type} {write : WriteFn W}

def ioFbf : Int := 0

def ioLbf : Int := 1

def ioNbf : Int := 2

/-- `setvbuf`, without `F_SVB`. `F_LBF` is only set for a buffer of the caller. -/
def setvbuf (buf : Nat) (type : Int) (size : Nat) (s : Streambuf W) : Int × Streambuf W :=
  let s := { s with lbf := false }
  if type = ioNbf then (0, { s with bufend := s.buf })
  else if type = ioLbf ∨ type = ioFbf then
    if buf ≠ 0 ∧ size > unget then
      (0, { s with buf := buf + unget, bufend := buf + size, lbf := type = ioLbf })
    else (0, s)
  else (-1, s)

def setlinebuf (s : Streambuf W) : Streambuf W := (setvbuf 0 ioLbf 0 s).2

/-- `__fputs_unlocked` of the bytes before the terminator. -/
def fputsUnlocked (write : WriteFn W) (bytes : List UInt8) (s : Streambuf W) : Int × Streambuf W :=
  let (k, s) := fwritex (some write) bytes s
  ((if k = bytes.length then 1 else 0) - 1, s)

def puts (write : WriteFn W) (bytes : List UInt8) (s : Streambuf W) : Int × Streambuf W :=
  let (r, s) := fputsUnlocked write bytes s
  if r < 0 then (-1, s)
  else
    let (c, s) := putc write newline.toNat s
    (if c < 0 then -1 else 0, s)

/-- The bytes of a string, whose length is a `size_t`. -/
structure Text where
  bytes : List UInt8
  small : bytes.length < 2 ^ 64

inductive LineCall where
  | putc (c : Int)
  | fwrite (src : List UInt8) (size nmemb : Nat)
  | fputs (text : Text)
  | puts (text : Text)

def LineCall.run (write : WriteFn W) : LineCall → Streambuf W → Streambuf W
  | .putc c, s => (Stdio.putc write c s).2
  | .fwrite src size nmemb, s => (Stdio.fwrite write src size nmemb s).2
  | .fputs text, s => (Stdio.fputs write text.bytes s).2
  | .puts text, s => (Stdio.puts write text.bytes s).2

def outputRun (write : WriteFn W) (calls : List LineCall) (s : Streambuf W) : Streambuf W :=
  calls.foldl (fun s call => call.run write s) s

def NoLinePending (write : WriteFn W) : List LineCall → Streambuf W → Prop
  | [], _ => True
  | call :: later, s =>
    newline ∉ (call.run write s).pending ∧ NoLinePending write later (call.run write s)

def NothingPending (write : WriteFn W) : List LineCall → Streambuf W → Prop
  | [], _ => True
  | call :: later, s =>
    (call.run write s).pending = [] ∧ NothingPending write later (call.run write s)

/-- A block that leaves no newline in the buffer: lines are `split` off, there is none, or the block
does not fit.
-/
def BlockFits (split : Prop) (bytes : List UInt8) (s : Streambuf W) : Prop :=
  split ∨ newline ∉ bytes ∨ s.towrite.2.epptr - s.towrite.2.pptr < bytes.length

/-- A call that leaves no newline in the buffer. A newline from `putc` is told by the `int`. -/
def LineCall.Fits (split : Prop) : LineCall → Streambuf W → Prop
  | .putc c, s => UInt8.ofInt c = newline → c = newline.toNat ∨ s.pptr = s.epptr
  | .fwrite src size nmemb, s => BlockFits split (src.take (size * nmemb % 2 ^ 64)) s
  | .fputs text, s => BlockFits split text.bytes s
  | .puts _, _ => True

/-- Each of the calls leaves no newline in the buffer. -/
def CallsFitLines (write : WriteFn W) (split : Prop) : List LineCall → Streambuf W → Prop
  | [], _ => True
  | call :: later, s => call.Fits split s ∧ CallsFitLines write split later (call.run write s)

/-- A stream behind a write that has emptied the put area. -/
structure Flushed (s s' : Streambuf W) : Prop where
  writing : Writing s'
  mode : s'.curWr = true
  pptr : s'.pptr = s'.buf
  lbf : s'.lbf = s.lbf
  buf : s'.buf = s.buf
  bufend : s'.bufend = s.bufend

/-- The functions `virt->write` that end with `__fsetwrite`, or else set `F_ERR`. -/
structure Flushing (write : WriteFn W) : Prop where
  err : ∀ s bytes, bytes ≠ [] → (write s bytes).2.err = false → s.err = false
  sends : ∀ s bytes, Writing s → s.curWr = true → bytes ≠ [] → (write s bytes).2.err = false →
    (write s bytes).1 = bytes.length ∧ Flushed s (write s bytes).2

private theorem stdioWrite_flushing (writev : Nat → Option Nat) : Flushing (stdioWrite writev) := by
  constructor
  · intro s bytes some_ fine
    have nonempty : s.pending ++ bytes ≠ [] := append_ne_nil_of_right_ne_nil _ some_
    rcases stdioWrite_spec writev nonempty with ⟨calls, -, -, result⟩ | ⟨calls, j, -, -, -, result⟩
    · rw [result] at fine
      exact fine
    · rw [result] at fine
      cases fine
  · intro s bytes writing mode some_ fine
    have nonempty : s.pending ++ bytes ≠ [] := append_ne_nil_of_right_ne_nil _ some_
    rcases stdioWrite_spec writev nonempty with ⟨calls, -, -, result⟩ | ⟨calls, j, -, -, -, result⟩
    · rw [result]
      exact ⟨rfl, (writing.sentAll mode (s.pending ++ bytes) calls).1, mode, rfl, rfl, rfl, rfl⟩
    · rw [result] at fine
      cases fine

theorem Flushed.pending {s s' : Streambuf W} (flushed : Flushed s s') : s'.pending = [] := by
  obtain ⟨base, -, -, -⟩ := flushed.writing.active flushed.mode
  rw [flushed.writing.pending_eq, flushed.pptr, base, Nat.sub_self, Memory.slice_zero]

/-- A call without an error keeps the stream in order and its buffer in place. -/
structure Kept (s s' : Streambuf W) : Prop where
  writing : Writing s'
  lbf : s'.lbf = s.lbf
  buf : s'.buf = s.buf
  bufend : s'.bufend = s.bufend
  err : s.err = false

theorem Kept.trans {s₁ s₂ s₃ : Streambuf W} (first : Kept s₁ s₂) (second : Kept s₂ s₃) : Kept s₁ s₃ :=
  ⟨second.writing, second.lbf.trans first.lbf, second.buf.trans first.buf,
    second.bufend.trans first.bufend, first.err⟩

theorem newline_drop_lineEnd (bytes : List UInt8) : newline ∉ bytes.drop (lineEnd bytes) := by
  have split := @takeWhile_append_dropWhile _ (fun b => decide (b ≠ newline)) bytes.reverse
  have whole : bytes = (bytes.reverse.dropWhile fun b => decide (b ≠ newline)).reverse
      ++ (bytes.reverse.takeWhile fun b => decide (b ≠ newline)).reverse := by
    rw [← reverse_append, split, reverse_reverse]
  have width : lineEnd bytes
      = (bytes.reverse.dropWhile fun b => decide (b ≠ newline)).reverse.length := by
    have lengths := congrArg List.length split
    rw [length_append, length_reverse] at lengths
    rw [length_reverse, lineEnd]
    omega
  have rest : bytes.drop (lineEnd bytes)
      = (bytes.reverse.takeWhile fun b => decide (b ≠ newline)).reverse :=
    (congrArg (List.drop (lineEnd bytes)) whole).trans (drop_left' width.symm)
  rw [rest, mem_reverse]
  intro member
  have all := @all_takeWhile _ (fun b => decide (b ≠ newline)) bytes.reverse
  exact of_decide_eq_true (all_eq_true.mp all _ member) rfl

variable {s : Streambuf W} {bytes : List UInt8}

theorem newline_of_lineEnd (zero : lineEnd bytes = 0) : newline ∉ bytes := by
  have none := newline_drop_lineEnd bytes
  rw [zero] at none
  exact none

/-- `__towrite` keeps the flags and the buffer. -/
theorem Writing.towrite_kept (writing : Writing s)
    : ∃ t, s.towrite = (0, t) ∧ Writing t ∧ t.curWr = true ∧ t.pending = s.pending ∧ t.lbf = s.lbf
      ∧ t.buf = s.buf ∧ t.bufend = s.bufend ∧ t.err = s.err := by
  obtain ⟨t, entered, writing', mode, pending, -⟩ := writing.towrite
  refine ⟨t, entered, writing', mode, pending, ?_⟩
  cases active : s.curWr with
  | true =>
    rw [Streambuf.towrite, active] at entered
    obtain ⟨-, rfl⟩ := entered
    exact ⟨rfl, rfl, rfl, rfl⟩
  | false =>
    simp only [Streambuf.towrite, active, writing.noWr, Bool.false_eq_true, if_false,
      Prod.mk.injEq] at entered
    obtain ⟨-, rfl⟩ := entered
    exact ⟨rfl, rfl, rfl, rfl⟩

theorem Writing.append_kept (writing : Writing s) (mode : s.curWr = true) (fine : s.err = false)
    (room : bytes.length ≤ s.epptr - s.pptr)
    : Kept s (s.append bytes) ∧ (s.append bytes).pending = s.pending ++ bytes := by
  obtain ⟨writing', pending⟩ := writing.append mode room
  exact ⟨⟨writing', rfl, rfl, rfl, fine⟩, pending⟩

section

variable (flushing : Flushing write)
include flushing

theorem Flushing.kept (writing : Writing s) (mode : s.curWr = true) (some_ : bytes ≠ [])
    (fine : (write s bytes).2.err = false)
    : (write s bytes).1 = bytes.length ∧ Flushed s (write s bytes).2 ∧ Kept s (write s bytes).2 := by
  obtain ⟨all, flushed⟩ := flushing.sends s bytes writing mode some_ fine
  exact ⟨all, flushed, flushed.writing, flushed.lbf, flushed.buf, flushed.bufend,
    flushing.err s bytes some_ fine⟩

/-- `__fwritex` of a block. -/
theorem fwritex_lines (writing : Writing s) (none : newline ∉ s.pending) (small : bytes.length < 2 ^ 64)
    (fine : (fwritex (some write) bytes s).2.err = false)
    : (fwritex (some write) bytes s).1 = bytes.length ∧ Kept s (fwritex (some write) bytes s).2
      ∧ (newline ∉ (fwritex (some write) bytes s).2.pending ↔ BlockFits (s.lbf = true) bytes s) := by
  obtain ⟨t, entered, writing', mode, pending, lbf, buf, bufend, err⟩ := writing.towrite_kept
  have none' : newline ∉ t.pending := pending ▸ none
  have kept {s' : Streambuf W} (later : Kept t s') : Kept s s' :=
    ⟨later.writing, later.lbf.trans lbf, later.buf.trans buf, later.bufend.trans bufend,
      err.symm.trans later.err⟩
  simp only [fwritex, entered, ne_eq, not_true_eq_false, if_false] at fine ⊢
  rw [BlockFits, entered, ← lbf]
  by_cases bypass : bytes.length > t.epptr - t.pptr
  · have some_ : bytes ≠ [] := length_pos_iff.mp (Nat.zero_lt_of_lt bypass)
    rw [if_pos bypass] at fine ⊢
    obtain ⟨all, flushed, behind⟩ := flushing.kept writing' mode some_ fine
    refine ⟨?_, kept behind, iff_of_true ?_ (.inr (.inr bypass))⟩
    · rw [all, toSizeT_natCast small]
    · simp only [flushed.pending]
      exact not_mem_nil
  · rw [if_neg bypass] at fine ⊢
    obtain ⟨-, low, high, bound⟩ := writing'.active mode
    by_cases split : t.lbf = true ∧ lineEnd bytes ≠ 0
    · -- what ends with a newline is sent, the rest is stored
      have le := lineEnd_le bytes
      have size : (bytes.take (lineEnd bytes)).length = lineEnd bytes := length_take_of_le le
      have some_ : bytes.take (lineEnd bytes) ≠ [] := by
        rw [← length_pos_iff, size]
        exact Nat.pos_of_ne_zero split.2
      have fine' : (write t (bytes.take (lineEnd bytes))).2.err = false := by
        rw [if_pos split] at fine
        split at fine <;> exact fine
      obtain ⟨all, flushed, behind⟩ := flushing.kept writing' mode some_ fine'
      rw [size] at all
      have count : toSizeT (write t (bytes.take (lineEnd bytes))).1 = lineEnd bytes := by
        rw [all, toSizeT_natCast (Nat.lt_of_le_of_lt le small)]
      have base := flushed.pptr
      obtain ⟨-, -, -, bound'⟩ := flushed.writing.active flushed.mode
      have buf' := flushed.buf
      have bufend' := flushed.bufend
      have fits : (bytes.drop (lineEnd bytes)).length
          ≤ (write t (bytes.take (lineEnd bytes))).2.epptr
            - (write t (bytes.take (lineEnd bytes))).2.pptr := by
        rw [length_drop]
        omega
      obtain ⟨stored, last⟩ := flushed.writing.append_kept flushed.mode fine' fits
      rw [if_pos split, count, if_neg (Nat.lt_irrefl _)]
      refine ⟨rfl, kept (behind.trans stored), iff_of_true ?_ (.inl split.1)⟩
      simp only [last, flushed.pending, nil_append]
      exact newline_drop_lineEnd bytes
    · rw [if_neg split] at fine ⊢
      have fits : bytes.length ≤ t.epptr - t.pptr := Nat.le_of_not_lt bypass
      obtain ⟨stored, last⟩ := writing'.append_kept mode fine fits
      refine ⟨rfl, kept stored, ?_⟩
      simp only [last, mem_append, none', false_or]
      refine ⟨fun absent => .inr (.inl absent), ?_⟩
      rintro (lines | absent | room)
      · exact newline_of_lineEnd (not_not.mp fun ends => split ⟨lines, ends⟩)
      · exact absent
      · exact absurd room bypass

/-- `__overflowx` stores no newline, and a newline sends what is pending. -/
theorem overflowx_lines (writing : Writing s) {b : UInt8} (none : b ≠ newline → newline ∉ s.pending)
    (fine : (overflowx write b.toNat s).2.err = false)
    : Kept s (overflowx write b.toNat s).2 ∧ newline ∉ (overflowx write b.toNat s).2.pending := by
  obtain ⟨t, entered, writing', mode, pending, kept⟩ : ∃ t,
      (if s.epptr = 0 then s.towrite else (0, s)) = (0, t) ∧ Writing t ∧ t.curWr = true
      ∧ t.pending = s.pending ∧ ∀ {s'}, Kept t s' → Kept s s' := by
    by_cases null : s.epptr = 0
    · obtain ⟨t, entered, writing', mode, pending, lbf, buf, bufend, err⟩ := writing.towrite_kept
      exact ⟨t, by rw [if_pos null, entered], writing', mode, pending, fun later =>
        ⟨later.writing, later.lbf.trans lbf, later.buf.trans buf, later.bufend.trans bufend,
          err.symm.trans later.err⟩⟩
    · have mode : s.curWr = true := by
        by_contra off
        exact null (writing.idle (Bool.eq_false_iff.mpr off)).2.2
      exact ⟨s, if_neg null, writing, mode, rfl, fun later => later⟩
  have none' : b ≠ newline → newline ∉ t.pending := pending ▸ none
  obtain ⟨-, low, high, bound⟩ := writing'.active mode
  simp only [overflowx, ofInt_toNat, entered, ne_eq, not_true_eq_false, if_false] at fine ⊢
  by_cases stored : ¬ t.epptr = t.pptr ∧ ¬ b = newline ∧ t.lbf = true
  · rw [if_pos stored] at fine ⊢
    have fits : [b].length ≤ t.epptr - t.pptr := by
      rw [length_singleton]
      omega
    obtain ⟨behind, last⟩ := writing'.append_kept mode fine fits
    refine ⟨kept behind, ?_⟩
    simp only [last, mem_append, mem_singleton, none' stored.2.1, false_or]
    exact fun same => stored.2.1 same.symm
  · rw [if_neg stored] at fine ⊢
    have fine' : (write t [b]).2.err = false := by
      split at fine <;> exact fine
    obtain ⟨all, flushed, behind⟩ := flushing.kept writing' mode (cons_ne_nil b []) fine'
    have one : (write t [b]).1 = 1 := all
    rw [if_neg (not_not_intro one)]
    refine ⟨kept behind, ?_⟩
    simp only [flushed.pending]
    exact not_mem_nil

/-- `putc` stores a newline only if it goes by an `int` other than `'\n'`. -/
theorem putc_lines (writing : Writing s) (none : newline ∉ s.pending) {c : Int}
    (fine : (putc write c s).2.err = false)
    : Kept s (putc write c s).2 ∧ (newline ∉ (putc write c s).2.pending
        ↔ (UInt8.ofInt c = newline → c = newline.toNat ∨ s.pptr = s.epptr)) := by
  by_cases direct : c ≠ newline.toNat ∧ s.pptr ≠ s.epptr
  · have mode : s.curWr = true := by
      by_contra off
      obtain ⟨-, current, bound⟩ := writing.idle (Bool.eq_false_iff.mpr off)
      exact direct.2 (current.trans bound.symm)
    obtain ⟨-, -, high, bound⟩ := writing.active mode
    have fits : [UInt8.ofInt c].length ≤ s.epptr - s.pptr := by
      rw [length_singleton]
      omega
    rw [putc, if_pos direct] at fine ⊢
    obtain ⟨behind, last⟩ := writing.append_kept mode fine fits
    refine ⟨behind, ?_⟩
    simp only [last, mem_append, mem_singleton, none, false_or]
    refine ⟨fun other same => absurd same.symm other, fun told same => ?_⟩
    exact (told same.symm).elim direct.1 direct.2
  · rw [putc, if_neg direct] at fine ⊢
    obtain ⟨behind, absent⟩ := overflowx_lines flushing writing (fun _ => none) fine
    refine ⟨behind, iff_of_true absent fun _ => ?_⟩
    by_cases same : c = newline.toNat
    · exact .inl same
    · exact .inr (not_not.mp fun room => direct ⟨same, room⟩)

end

theorem fwrite_stream (write : WriteFn W) (src : List UInt8) (size nmemb : Nat) (s : Streambuf W)
    : (fwrite write src size nmemb s).2
      = (fwritex (some write) (src.take (size * nmemb % 2 ^ 64)) s).2 := rfl

theorem fputs_stream (write : WriteFn W) (text : Text) (s : Streambuf W)
    : (fputs write text.bytes s).2 = (fwritex (some write) text.bytes s).2 := by
  have whole : 1 * text.bytes.length % 2 ^ 64 = text.bytes.length := by
    rw [Nat.one_mul, Nat.mod_eq_of_lt text.small]
  have same := fwrite_stream write text.bytes 1 text.bytes.length s
  rw [whole, take_length] at same
  exact same

theorem towrite_err (fine : s.towrite.2.err = false) : s.err = false := by
  unfold Streambuf.towrite at fine
  split at fine
  next => exact fine
  next => split at fine <;> [cases fine; exact fine]

private theorem fwritex_err (flushing : Flushing write) (fine : (fwritex (some write) bytes s).2.err = false)
    : s.err = false := by
  apply towrite_err
  rcases entered : s.towrite with ⟨failed, t⟩
  simp only [fwritex, entered] at fine ⊢
  split at fine
  next => exact fine
  next =>
    split at fine
    next bypass =>
      exact flushing.err t bytes (length_pos_iff.mp (Nat.zero_lt_of_lt bypass)) fine
    next =>
      split at fine
      next ends =>
        have some_ : bytes.take (lineEnd bytes) ≠ [] := by
          rw [← length_pos_iff, length_take_of_le (lineEnd_le bytes)]
          exact Nat.pos_of_ne_zero ends.2
        apply flushing.err t _ some_
        split at fine <;> exact fine
      next => exact fine

theorem putc_err (flushing : Flushing write) {c : Int} (fine : (putc write c s).2.err = false)
    : s.err = false := by
  have entered (fine : (if s.epptr = 0 then s.towrite else (0, s)).2.err = false) : s.err = false := by
    split at fine
    next => exact towrite_err fine
    next => exact fine
  unfold putc at fine
  split at fine
  next => exact fine
  next =>
    rw [overflowx] at fine
    apply entered
    generalize (if s.epptr = 0 then s.towrite else (0, s)) = step at fine ⊢
    obtain ⟨failed, t⟩ := step
    simp only at fine ⊢
    split at fine
    next => exact fine
    next =>
      split at fine
      next => exact fine
      next =>
        apply flushing.err t _ (cons_ne_nil _ [])
        split at fine <;> exact fine

theorem puts_stream (write : WriteFn W) (text : Text) (s : Streambuf W)
    : (puts write text.bytes s).2
      = if (fwritex (some write) text.bytes s).1 = text.bytes.length then
          (putc write newline.toNat (fwritex (some write) text.bytes s).2).2
        else (fwritex (some write) text.bytes s).2 := by
  simp only [puts, fputsUnlocked]
  split <;> rfl

section

variable (flushing : Flushing write)
include flushing

/-- The block of `puts` was written without an error. -/
theorem puts_err {text : Text} (fine : (puts write text.bytes s).2.err = false)
    : (fwritex (some write) text.bytes s).2.err = false := by
  rw [puts_stream] at fine
  split at fine
  next => exact putc_err flushing fine
  next => exact fine

theorem puts_lines (writing : Writing s) (none : newline ∉ s.pending) {text : Text}
    (fine : (puts write text.bytes s).2.err = false)
    : Kept s (puts write text.bytes s).2 ∧ newline ∉ (puts write text.bytes s).2.pending := by
  obtain ⟨all, kept, -⟩ := fwritex_lines flushing writing none text.small (puts_err flushing fine)
  rw [puts_stream, if_pos all] at fine ⊢
  obtain ⟨kept', absent⟩ :=
    overflowx_lines flushing kept.writing (fun other => absurd rfl other) fine
  exact ⟨kept.trans kept', absent⟩

theorem LineCall.run_lines (call : LineCall) (writing : Writing s) (none : newline ∉ s.pending)
    (fine : (call.run write s).err = false)
    : Kept s (call.run write s)
      ∧ (newline ∉ (call.run write s).pending ↔ call.Fits (s.lbf = true) s) := by
  cases call with
  | putc c => exact putc_lines flushing writing none fine
  | fwrite src size nmemb =>
    have small : (src.take (size * nmemb % 2 ^ 64)).length < 2 ^ 64 := by
      rw [length_take]
      omega
    exact (fwritex_lines flushing writing none small fine).2
  | fputs text =>
    rw [LineCall.run, fputs_stream] at fine ⊢
    exact (fwritex_lines flushing writing none text.small fine).2
  | puts text =>
    obtain ⟨kept, absent⟩ := puts_lines flushing writing none fine
    exact ⟨kept, iff_of_true absent trivial⟩

theorem LineCall.run_err {call : LineCall} (fine : (call.run write s).err = false)
    : s.err = false := by
  cases call with
  | putc c => exact putc_err flushing fine
  | fwrite src size nmemb => exact fwritex_err flushing fine
  | fputs text => exact fwritex_err flushing ((congrArg Streambuf.err (fputs_stream write text s)).symm.trans fine)
  | puts text => exact fwritex_err flushing (puts_err flushing fine)

end

variable {calls : List LineCall}

theorem outputRun_err (flushing : Flushing write) (fine : (outputRun write calls s).err = false)
    : s.err = false := by
  induction calls generalizing s with
  | nil => exact fine
  | cons call later ih => exact LineCall.run_err flushing (ih fine)

/-- Calls leave no newline in the buffer if and only if each of them fits; by induction on the calls. -/
theorem noLinePending_iff (flushing : Flushing write) (writing : Writing s) (none : newline ∉ s.pending)
    (fine : (outputRun write calls s).err = false)
    : NoLinePending write calls s ↔ CallsFitLines write (s.lbf = true) calls s := by
  induction calls generalizing s with
  | nil => exact Iff.rfl
  | cons call later ih =>
    obtain ⟨kept, lines⟩ := call.run_lines flushing writing none (outputRun_err flushing fine)
    have rest (absent : newline ∉ (call.run write s).pending) := ih kept.writing absent fine
    rw [kept.lbf] at rest
    rw [CallsFitLines, ← lines]
    exact and_congr_right rest

theorem Writing.unbuffered (writing : Writing s) (none : s.bufend = s.buf)
    : s.pending = [] := by
  have width : s.pptr - s.pbase = 0 := by
    cases mode : s.curWr with
    | true =>
      obtain ⟨base, low, high, -⟩ := writing.active mode
      omega
    | false =>
      obtain ⟨base, current, -⟩ := writing.idle mode
      omega
  rw [writing.pending_eq, width, Memory.slice_zero]

theorem nothingPending (flushing : Flushing write) (writing : Writing s) (unbuffered : s.bufend = s.buf)
    (fine : (outputRun write calls s).err = false)
    : NothingPending write calls s := by
  induction calls generalizing s with
  | nil => exact trivial
  | cons call later ih =>
    have none : newline ∉ s.pending := by
      rw [writing.unbuffered unbuffered]
      exact not_mem_nil
    obtain ⟨kept, -⟩ := call.run_lines flushing writing none (outputRun_err flushing fine)
    have same : (call.run write s).bufend = (call.run write s).buf := by
      rw [kept.bufend, kept.buf, unbuffered]
    exact ⟨kept.writing.unbuffered same, ih kept.writing same fine⟩

/-- `setvbuf` before the first operation. -/
theorem Writing.setvbuf (writing : Writing s) (first : s.curWr = false) (buf : Nat) (type : Int)
    (size : Nat)
    : Writing (setvbuf buf type size s).2 ∧ (setvbuf buf type size s).2.pending = [] := by
  have fresh (lbf : Bool) {low high : Nat} (null : low = 0 → high = 0) (le : low ≤ high)
      : Writing { s with lbf := lbf, buf := low, bufend := high }
        ∧ Streambuf.pending { s with lbf := lbf, buf := low, bufend := high } = [] := by
    have idle := writing.idle first
    have kept : Writing { s with lbf := lbf, buf := low, bufend := high } :=
      ⟨writing.noWr, writing.gptr, writing.egptr, null, le,
        fun mode => absurd (first.symm.trans mode) (by decide), fun _ => idle⟩
    refine ⟨kept, ?_⟩
    rw [kept.pending_eq, idle.1, idle.2.1]
    rfl
  unfold Stdio.setvbuf
  split
  next => exact fresh false (fun null => null) (Nat.le_refl _)
  next =>
    split
    next =>
      split
      next own =>
        refine fresh _ (fun null => ?_) (Nat.add_le_add_left (Nat.le_of_lt own.2) buf)
        exact absurd (Nat.eq_zero_of_add_eq_zero_right null) own.1
      next => exact fresh false writing.null writing.buffer
    next => exact fresh false writing.null writing.buffer

/-- `F_LBF` is set for a buffer of the caller with room behind the pushback bytes. -/
theorem setvbuf_lbf (buf size : Nat) (s : Streambuf W)
    : (setvbuf buf ioLbf size s).2.lbf = true ↔ buf ≠ 0 ∧ size > unget := by
  have other : ¬ ioLbf = ioNbf := by decide
  by_cases own : buf ≠ 0 ∧ size > unget
  · simp only [setvbuf, other, own, if_false, true_or, if_true, decide_true, and_self, ne_eq,
      not_false_eq_true]
  · simp only [setvbuf, other, own, if_false, true_or, if_true, Bool.false_eq_true]

/-- After a request for line buffering no newline is pending behind any call, if and only if each
call fits: the caller gave a buffer, or no block with a newline fits the buffer of the stream. After a
request for no buffering nothing is ever pending.
-/
theorem setvbuf_lines_iff (flushing : Flushing write) {s : Streambuf W} (writing : Writing s)
    (first : s.curWr = false) (buf size : Nat) (calls : List LineCall)
    : ((outputRun write calls (setvbuf buf ioLbf size s).2).err = false →
        (NoLinePending write calls (setvbuf buf ioLbf size s).2
          ↔ CallsFitLines write (buf ≠ 0 ∧ size > unget) calls (setvbuf buf ioLbf size s).2))
      ∧ ((outputRun write calls (setvbuf buf ioNbf size s).2).err = false →
        NothingPending write calls (setvbuf buf ioNbf size s).2) := by
  constructor
  · intro fine
    obtain ⟨writing', empty⟩ := writing.setvbuf first buf ioLbf size
    have none : newline ∉ (setvbuf buf ioLbf size s).2.pending := by
      rw [empty]
      exact not_mem_nil
    have lines := noLinePending_iff flushing writing' none fine
    rw [propext (setvbuf_lbf buf size s)] at lines
    exact lines
  · exact nothingPending flushing (writing.setvbuf first buf ioNbf size).1 rfl

def freshOutput : Streambuf Descriptor :=
  Streambuf.finit true false false false (fun _ => 0) ⟨[], 0⟩ 64 32

theorem freshOutput_writing : Writing freshOutput :=
  ⟨rfl, rfl, rfl, by decide, by decide, by decide, fun _ => ⟨rfl, rfl, rfl⟩⟩

/-- Two lines and a letter go through a line buffer of the caller. -/
theorem setvbuf_lines_iff_own
    : NoLinePending (stdioWrite fun _ => some 9) [.fwrite [97, 10, 98] 1 3, .putc 97, .puts ⟨[97], by decide⟩]
        (setvbuf 1000 ioLbf 24 freshOutput).2 := by
  apply ((setvbuf_lines_iff (stdioWrite_flushing _) freshOutput_writing rfl 1000 24 _).1 rfl).mpr
  exact ⟨.inl (by decide), fun same => absurd same (by decide), trivial, trivial⟩

/-- `setlinebuf` does not make the stream line buffered. -/
theorem setlinebuf_keepsLine
    : ¬ NoLinePending (stdioWrite fun _ => some 9) [.fwrite [97, 10] 1 2] (setlinebuf freshOutput) := by
  intro none
  exact none.1 (by decide)

end Nglibc.Stdio
