import Nglibc.Stdio.Output

/-! What a single output call on a stream with the writer `__stdio_write` sends to the
descriptor and leaves in the put area.
-/

namespace Nglibc.Stdio

open List

variable {writev : Nat → Option Nat} {s s' : Streambuf Descriptor} {bytes : List UInt8}

/-! The writer -/

/-- No `writev` call between two descriptor states has failed. -/
def NoFailure (writev : Nat → Option Nat) (d d' : Descriptor) : Prop :=
  ∀ i, d.calls ≤ i → i < d'.calls → writev i ≠ none

/-- The state after `writev` calls in which the descriptor accepted the bytes `sent`. -/
def Streambuf.send (s : Streambuf Descriptor) (sent : List UInt8) (calls : Nat)
    : Streambuf Descriptor :=
  { s with cookie := { accepted := s.cookie.accepted ++ sent, calls := calls } }

/-- The result of a failed `__stdio_write` after `j` bytes of its vector were accepted. -/
def ownAccepted (len j : Nat) (iov0 : List UInt8) (iov1 : Option (List UInt8)) : Int :=
  if iov1.isSome then (j - iov0.length : Nat) else (len : Int) - iov0.length + j

/-- What a run of `writev` calls does with the vector `total`: all of it is accepted, or less
than all of it before a call fails.
-/
def WritesOut (writev : Nat → Option Nat) (s : Streambuf Descriptor) (total : List UInt8)
    (len : Nat) (own : Nat → Int) (r : Int × Streambuf Descriptor) : Prop :=
  (∃ calls, s.cookie.calls ≤ calls ∧ (∀ i, s.cookie.calls ≤ i → i < calls → writev i ≠ none)
    ∧ r = (Int.ofNat len, (s.send total calls).fsetwrite))
  ∨ ∃ calls j, s.cookie.calls ≤ calls ∧ writev calls = none ∧ j < total.length
    ∧ r = (own j, (s.send (total.take j) (calls + 1)).fseterror)

theorem WritesOut.step {total : List UInt8} {len cnt : Nat} {own own' : Nat → Int}
    {r : Int × Streambuf Descriptor} {k : Nat} (accepts : writev s.cookie.calls = some k)
    (short : cnt < total.length)
    (later : WritesOut writev (s.send (total.take cnt) (s.cookie.calls + 1)) (total.drop cnt)
      len own' r)
    (shift : ∀ j, own' j = own (cnt + j))
    : WritesOut writev s total len own r := by
  rcases later with ⟨calls, le, fine, result⟩ | ⟨calls, j, le, failed, bound, result⟩
  · refine .inl ⟨calls, Nat.le_of_succ_le le, ?_, ?_⟩
    · intro i low high
      rcases Nat.eq_or_lt_of_le low with rfl | later
      · simp [accepts]
      · exact fine i later high
    · rw [result]
      simp [Streambuf.send]
  · rw [length_drop] at bound
    refine .inr ⟨calls, cnt + j, Nat.le_of_succ_le le, failed, by omega, ?_⟩
    rw [result, shift j, take_add]
    simp [Streambuf.send]

/-- By induction on the `writev` calls. -/
theorem stdioWriteLoop_spec {len fuel : Nat} {iov0 : List UInt8} {iov1 : Option (List UInt8)}
    (nonempty : iov0 ++ iov1.getD [] ≠ []) (enough : (iov0 ++ iov1.getD []).length < fuel)
    (second : ∀ b, iov1 = some b → b.length = len)
    : WritesOut writev s (iov0 ++ iov1.getD []) len (fun j => ownAccepted len j iov0 iov1)
        (stdioWriteLoop writev len fuel iov0 iov1 s) := by
  induction fuel generalizing iov0 iov1 s with
  | zero => omega
  | succ fuel ih =>
    cases result : writev s.cookie.calls with
    | none =>
      refine Or.inr ⟨s.cookie.calls, 0, Nat.le_refl _, result, ?_, ?_⟩
      · exact List.length_pos_iff.mpr nonempty
      · cases iov1 <;> simp [stdioWriteLoop, result, ownAccepted, Streambuf.send]
    | some k =>
      set cnt := min (k + 1) (iov0 ++ iov1.getD []).length with accepted
      by_cases whole : cnt = (iov0 ++ iov1.getD []).length
      · refine .inl ⟨s.cookie.calls + 1, Nat.le_succ _, ?_, ?_⟩
        · intro i low high
          rw [show i = s.cookie.calls by omega, result]
          simp
        · simp only [stdioWriteLoop, result, ← accepted, whole, if_true, take_length]
          rfl
      · have short : cnt < (iov0 ++ iov1.getD []).length := by omega
        let t := s.send ((iov0 ++ iov1.getD []).take cnt) (s.cookie.calls + 1)
        have later : ∃ iov0' iov1', stdioWriteLoop writev len (fuel + 1) iov0 iov1 s
              = stdioWriteLoop writev len fuel iov0' iov1' t
            ∧ iov0' ++ iov1'.getD [] = (iov0 ++ iov1.getD []).drop cnt
            ∧ (∀ b, iov1' = some b → b.length = len)
            ∧ ∀ j, ownAccepted len j iov0' iov1' = ownAccepted len (cnt + j) iov0 iov1 := by
          cases iov1 with
          | none =>
            refine ⟨iov0.drop cnt, none, ?_, by simp, by simp, ?_⟩
            · simp only [stdioWriteLoop, result, ← accepted, whole, if_false]
              rfl
            · intro j
              simp only [Option.getD_none, append_nil] at short
              simp only [ownAccepted, length_drop, Option.isSome_none, Bool.false_eq_true,
                if_false]
              omega
          | some b =>
            have len_eq := second b rfl
            by_cases into : cnt > iov0.length
            · refine ⟨b.drop (cnt - iov0.length), none, ?_, ?_, by simp, ?_⟩
              · simp only [stdioWriteLoop, result, ← accepted, whole, if_false, into, if_true]
                rfl
              · simp [drop_append, drop_eq_nil_of_le (Nat.le_of_lt into)]
              · intro j
                simp only [Option.getD_some, length_append] at short
                simp only [ownAccepted, length_drop, Option.isSome_none,
                  Option.isSome_some, if_true, Bool.false_eq_true, if_false]
                omega
            · refine ⟨iov0.drop cnt, some b, ?_, ?_, ?_, ?_⟩
              · simp only [stdioWriteLoop, result, ← accepted, whole, if_false, into]
                rfl
              · rw [drop_append_of_le_length (by omega)]
              · rintro _ ⟨⟩
                exact len_eq
              · intro j
                simp only [ownAccepted, length_drop, Option.isSome_some, if_true]
                omega
        obtain ⟨iov0', iov1', step, rest, second', own⟩ := later
        have left : ((iov0 ++ iov1.getD []).drop cnt).length < fuel := by
          rw [length_drop]
          omega
        have run := @ih t iov0' iov1'
        rw [rest] at run
        rw [step]
        refine WritesOut.step result short (run ?_ left second') own
        intro none
        rw [drop_eq_nil_iff] at none
        omega

theorem stdioWrite_spec (writev : Nat → Option Nat) (nonempty : s.pending ++ bytes ≠ [])
    : WritesOut writev s (s.pending ++ bytes) bytes.length
        (fun j => (j - s.pending.length : Nat)) (stdioWrite writev s bytes) := by
  have second : ∀ b, some bytes = some b → b.length = bytes.length := by
    rintro _ ⟨⟩
    rfl
  exact stdioWriteLoop_spec nonempty (by simp) second

/-! The put area -/

/-- A stream that is only written to: the put area is the buffer while `F_CURWR` is set, and
null otherwise.
-/
structure Writing {W : Type} (s : Streambuf W) : Prop where
  noWr : s.noWr = false
  gptr : s.gptr = 0
  egptr : s.egptr = 0
  null : s.buf = 0 → s.bufend = 0
  buffer : s.buf ≤ s.bufend
  active : s.curWr = true
    → s.pbase = s.buf ∧ s.buf ≤ s.pptr ∧ s.pptr ≤ s.bufend ∧ s.epptr = s.bufend
  idle : s.curWr = false → s.pbase = 0 ∧ s.pptr = 0 ∧ s.epptr = 0

variable {W : Type}

theorem Writing.pending_eq {s : Streambuf W} (writing : Writing s)
    : s.pending = s.memory.slice s.pbase (s.pptr - s.pbase) := by
  unfold Streambuf.pending Streambuf.fpending
  split
  · rfl
  · rename_i null
    have empty : s.pptr - s.pbase = 0 := by
      cases mode : s.curWr with
      | true =>
        obtain ⟨base, low, high, bound⟩ := writing.active mode
        omega
      | false =>
        obtain ⟨base, current, bound⟩ := writing.idle mode
        omega
    rw [empty]

theorem Writing.towrite {s : Streambuf W} (writing : Writing s)
    : ∃ s', s.towrite = (0, s') ∧ Writing s' ∧ s'.curWr = true
      ∧ s'.pending = s.pending ∧ s'.cookie = s.cookie := by
  cases mode : s.curWr with
  | true => exact ⟨s, by simp [Streambuf.towrite, mode], writing, mode, rfl, rfl⟩
  | false =>
    have empty : s.pending = [] := by
      obtain ⟨base, current, _⟩ := writing.idle mode
      rw [writing.pending_eq, base, current]
      rfl
    have entered : Writing (Streambuf.fsetwrite { s with curWr := true, gptr := 0, egptr := 0 }) :=
      ⟨writing.noWr, rfl, rfl, writing.null, writing.buffer,
        fun _ => ⟨rfl, Nat.le_refl _, writing.buffer, rfl⟩, by simp [Streambuf.fsetwrite]⟩
    refine ⟨_, by simp [Streambuf.towrite, mode, writing.noWr], entered, rfl, ?_, rfl⟩
    rw [entered.pending_eq, empty]
    simp [Streambuf.fsetwrite]

theorem Writing.append {s : Streambuf W} (writing : Writing s) (mode : s.curWr = true)
    {bytes : List UInt8} (room : bytes.length ≤ s.epptr - s.pptr)
    : Writing (s.append bytes) ∧ (s.append bytes).pending = s.pending ++ bytes := by
  obtain ⟨base, low, high, bound⟩ := writing.active mode
  have appended : Writing (s.append bytes) := by
    refine ⟨writing.noWr, writing.gptr, writing.egptr, writing.null, writing.buffer, ?_, ?_⟩
    · intro _
      exact ⟨base, by simp only [Streambuf.append]; omega, by simp only [Streambuf.append]; omega,
        bound⟩
    · simp [Streambuf.append, mode]
  refine ⟨appended, ?_⟩
  rw [appended.pending_eq, writing.pending_eq]
  simp only [Streambuf.append]
  rw [Nat.sub_add_comm (by omega), ← Memory.slice_store_append, Nat.add_sub_cancel' (by omega)]

theorem Writing.sentAll (writing : Writing s) (mode : s.curWr = true) (sent : List UInt8)
    (calls : Nat)
    : Writing (s.send sent calls).fsetwrite ∧ (s.send sent calls).fsetwrite.pending = [] := by
  have empty : Writing (s.send sent calls).fsetwrite :=
    ⟨writing.noWr, writing.gptr, writing.egptr, writing.null, writing.buffer,
      fun _ => ⟨rfl, Nat.le_refl _, writing.buffer, rfl⟩, by simp [Streambuf.send, Streambuf.fsetwrite, mode]⟩
  refine ⟨empty, ?_⟩
  rw [empty.pending_eq]
  simp [Streambuf.fsetwrite]

theorem Writing.failed (writing : Writing s) (sent : List UInt8) (calls : Nat)
    : Writing (s.send sent calls).fseterror ∧ (s.send sent calls).fseterror.pending = [] := by
  have empty : Writing (s.send sent calls).fseterror :=
    ⟨writing.noWr, writing.gptr, writing.egptr, writing.null, writing.buffer,
      by simp [Streambuf.fseterror], fun _ => ⟨rfl, rfl, rfl⟩⟩
  refine ⟨empty, ?_⟩
  rfl

/-! Outcomes of calls -/

/-- All `writev` calls succeed, and what is pending afterwards follows what was sent. -/
structure Accepts (writev : Nat → Option Nat) (bytes : List UInt8)
    (s s' : Streambuf Descriptor) : Prop where
  calls : s.cookie.calls ≤ s'.cookie.calls
  fine : NoFailure writev s.cookie s'.cookie
  sent : ∃ sent, s'.cookie.accepted = s.cookie.accepted ++ sent
    ∧ sent ++ s'.pending = s.pending ++ bytes

/-- A `writev` call fails after `own` of the new bytes were accepted; the rest is dropped. -/
structure Fails (writev : Nat → Option Nat) (bytes : List UInt8) (own : Nat)
    (s s' : Streambuf Descriptor) : Prop where
  failed : ∃ i, s.cookie.calls ≤ i ∧ i < s'.cookie.calls ∧ writev i = none
  sent : ∃ sent, s'.cookie.accepted = s.cookie.accepted ++ sent ∧ sent <+: s.pending ++ bytes
    ∧ own = sent.length - s.pending.length
  dropped : s'.pending = []
  err : s'.err = true

/-- `k` of the bytes passed in count as written. -/
def Pushes (writev : Nat → Option Nat) (bytes : List UInt8) (s : Streambuf Descriptor)
    (k : Nat) (s' : Streambuf Descriptor) : Prop :=
  Writing s'
  ∧ (k = bytes.length ∧ Accepts writev bytes s s' ∨ k < bytes.length ∧ Fails writev bytes k s s')

theorem Accepts.refl (writev : Nat → Option Nat) (s : Streambuf Descriptor)
    : Accepts writev [] s s :=
  ⟨Nat.le_refl _, fun i low high => by omega, [], by simp, by simp⟩

theorem Accepts.trans {more : List UInt8} {s₁ s₂ s₃ : Streambuf Descriptor}
    (first : Accepts writev bytes s₁ s₂) (second : Accepts writev more s₂ s₃)
    : Accepts writev (bytes ++ more) s₁ s₃ := by
  obtain ⟨sent, accepted, rest⟩ := first.sent
  obtain ⟨sent', accepted', rest'⟩ := second.sent
  refine ⟨Nat.le_trans first.calls second.calls, ?_, sent ++ sent', ?_, ?_⟩
  · intro i low high
    rcases Nat.lt_or_ge i s₂.cookie.calls with early | late
    · exact first.fine i low early
    · exact second.fine i late high
  · rw [accepted', accepted, append_assoc]
  · rw [append_assoc, rest', ← append_assoc, rest, append_assoc]

/-- A failure after bytes that went through. -/
theorem Accepts.fails {more : List UInt8} {own : Nat} {s₁ s₂ s₃ : Streambuf Descriptor}
    (first : Accepts writev bytes s₁ s₂) (second : Fails writev more own s₂ s₃)
    : ∃ own', Fails writev (bytes ++ more) own' s₁ s₃ := by
  obtain ⟨sent, accepted, rest⟩ := first.sent
  obtain ⟨sent', accepted', ⟨left, part⟩, _⟩ := second.sent
  obtain ⟨i, low, high, failed⟩ := second.failed
  have calls := first.calls
  refine ⟨_, ⟨i, by omega, high, failed⟩, ⟨sent ++ sent', ?_, ⟨left, ?_⟩, rfl⟩,
    second.dropped, second.err⟩
  · rw [accepted', accepted, append_assoc]
  · rw [append_assoc, part, ← append_assoc, rest, append_assoc]

theorem stdioWrite_pushes (writev : Nat → Option Nat) (writing : Writing s) (mode : s.curWr = true)
    (some_ : bytes ≠ [])
    (small : bytes.length < 2 ^ 64)
    : ∃ n s', stdioWrite writev s bytes = (Int.ofNat n, s') ∧ Pushes writev bytes s n s'
      ∧ (n = bytes.length
        → s'.pending = [] ∧ s'.curWr = true ∧ s'.epptr - s'.pptr = s.bufend - s.buf) := by
  have nonempty : s.pending ++ bytes ≠ [] := by simp [some_]
  rcases stdioWrite_spec writev nonempty with
    ⟨calls, le, fine, result⟩ | ⟨calls, j, le, failed, bound, result⟩
  · obtain ⟨writing', empty⟩ := writing.sentAll mode (s.pending ++ bytes) calls
    refine ⟨bytes.length, _, result, ⟨writing', .inl ⟨rfl, le, fine, _, rfl, ?_⟩⟩, ?_⟩
    · rw [empty, append_nil]
    · intro _
      exact ⟨empty, mode, rfl⟩
  · obtain ⟨writing', empty⟩ := writing.failed ((s.pending ++ bytes).take j) (calls + 1)
    rw [length_append] at bound
    have pos := length_pos_iff.mpr some_
    refine ⟨j - s.pending.length, _, result, ⟨writing', .inr ⟨by omega, ?_⟩⟩, by omega⟩
    refine ⟨⟨calls, le, Nat.lt_succ_self _, failed⟩, ⟨_, rfl, take_prefix _ _, ?_⟩, empty, rfl⟩
    rw [length_take, length_append]
    omega

theorem Accepts.append (writev : Nat → Option Nat) (writing : Writing s)
    (mode : s.curWr = true) (room : bytes.length ≤ s.epptr - s.pptr)
    : Accepts writev bytes s (s.append bytes) := by
  refine ⟨Nat.le_refl _, fun i low high => ?_, [], by simp [Streambuf.append], ?_⟩
  · simp only [Streambuf.append] at high
    omega
  · rw [nil_append, (writing.append mode room).2]

theorem Fails.longer {own : Nat} (fails : Fails writev bytes own s s') (more : List UInt8)
    : Fails writev (bytes ++ more) own s s' := by
  obtain ⟨sent, accepted, part, count⟩ := fails.sent
  refine ⟨fails.failed, ⟨sent, accepted, part.trans ?_, count⟩, fails.dropped, fails.err⟩
  rw [← append_assoc]
  exact prefix_append _ _

theorem Pushes.of_same {k : Nat} {t : Streambuf Descriptor} (pushes : Pushes writev bytes t k s')
    (pending : t.pending = s.pending) (cookie : t.cookie = s.cookie)
    : Pushes writev bytes s k s' := by
  obtain ⟨writing, ⟨all, accepts⟩ | ⟨less, fails⟩⟩ := pushes
  · refine ⟨writing, .inl ⟨all, cookie ▸ accepts.calls, cookie ▸ accepts.fine, ?_⟩⟩
    rw [← pending, ← cookie]
    exact accepts.sent
  · refine ⟨writing, .inr ⟨less, cookie ▸ fails.failed, ?_, fails.dropped, fails.err⟩⟩
    rw [← pending, ← cookie]
    exact fails.sent

/-- `__fwritex` from writing mode. The bytes bypass the buffer, are split behind their last
newline, or are stored in the buffer.
-/
theorem fwritex_pushes (writing : Writing s) (small : bytes.length < 2 ^ 64)
    : ∃ k s', fwritex (some (stdioWrite writev)) bytes s = (k, s')
      ∧ Pushes writev bytes s k s' := by
  obtain ⟨t, entered, writing', mode, pending, cookie⟩ := writing.towrite
  suffices ∃ k s', fwritex (some (stdioWrite writev)) bytes s = (k, s')
      ∧ Pushes writev bytes t k s' by
    obtain ⟨k, s', run, pushes⟩ := this
    exact ⟨k, s', run, pushes.of_same pending cookie⟩
  obtain ⟨base, low, high, bound⟩ := writing'.active mode
  simp only [fwritex, entered, ne_eq, not_true_eq_false, if_false]
  by_cases bypass : bytes.length > t.epptr - t.pptr
  · have some_ : bytes ≠ [] := length_pos_iff.mp (Nat.zero_lt_of_lt bypass)
    obtain ⟨n, s', run, pushes, _⟩ := stdioWrite_pushes writev writing' mode some_ small
    have le : n ≤ bytes.length := by
      rcases pushes.2 with ⟨all, _⟩ | ⟨less, _⟩ <;> omega
    refine ⟨n, s', ?_, pushes⟩
    rw [if_pos bypass, run, Int.ofNat_eq_natCast, toSizeT_natCast (by omega)]
  · rw [if_neg bypass]
    by_cases split : t.lbf = true ∧ lineEnd bytes ≠ 0
    · have le := lineEnd_le bytes
      have size : (bytes.take (lineEnd bytes)).length = lineEnd bytes := by
        rw [length_take]
        omega
      have some_ : bytes.take (lineEnd bytes) ≠ [] := by
        rw [← length_pos_iff]
        omega
      obtain ⟨n, t', run, ⟨writing'', outcome⟩, room⟩ :=
        stdioWrite_pushes writev writing' mode some_ (by omega)
      rw [size] at outcome room
      rw [if_pos split, run]
      rcases outcome with ⟨rfl, accepts⟩ | ⟨less, fails⟩
      · obtain ⟨_, mode', room'⟩ := room rfl
        have fits : (bytes.drop (lineEnd bytes)).length ≤ t'.epptr - t'.pptr := by
          rw [length_drop]
          omega
        have both := accepts.trans (.append writev writing'' mode' fits)
        rw [take_append_drop] at both
        refine ⟨bytes.length, _, ?_, (writing''.append mode' fits).1, .inl ⟨rfl, both⟩⟩
        simp only [Int.ofNat_eq_natCast, toSizeT_natCast (by omega : lineEnd bytes < 2 ^ 64), Nat.lt_irrefl, if_false]
      · have whole := fails.longer (bytes.drop (lineEnd bytes))
        rw [take_append_drop] at whole
        refine ⟨n, t', ?_, writing'', .inr ⟨by omega, whole⟩⟩
        simp only [Int.ofNat_eq_natCast, toSizeT_natCast (by omega : n < 2 ^ 64), less, if_true]
    · rw [if_neg split]
      have fits : bytes.length ≤ t.epptr - t.pptr := by omega
      exact ⟨bytes.length, _, rfl, (writing'.append mode fits).1,
        .inl ⟨rfl, .append writev writing' mode fits⟩⟩

theorem fwrite_pushes (writev : Nat → Option Nat) (writing : Writing s) {size nmemb : Nat}
    (length : bytes.length = size * nmemb) (small : bytes.length < 2 ^ 64)
    : ∃ k s', Pushes writev bytes s k s' ∧ fwrite (stdioWrite writev) bytes size nmemb s
        = (if k = bytes.length then (if size ≠ 0 then nmemb else 0) else k / size, s') := by
  obtain ⟨k, s', run, pushes⟩ := fwritex_pushes writing small
  refine ⟨k, s', pushes, ?_⟩
  have l : size * nmemb % 2 ^ 64 = bytes.length := by rw [← length, Nat.mod_eq_of_lt small]
  simp only [fwrite, l, take_length, run]

theorem fwrite_bytes (writev : Nat → Option Nat) (bytes : List UInt8) (writing : Writing s)
    (small : bytes.length < 2 ^ 64)
    : ∃ k s', Pushes writev bytes s k s'
      ∧ fwrite (stdioWrite writev) bytes 1 bytes.length s = (k, s') := by
  obtain ⟨k, s', pushes, run⟩ := fwrite_pushes writev writing (Nat.one_mul _).symm small
  refine ⟨k, s', pushes, ?_⟩
  rw [run]
  by_cases all : k = bytes.length <;> simp [all]

/-- The padding still to be written goes through, or the loop stops at a failure; by
induction on the blocks.
-/
theorem padnLoop_pushes (writev : Nat → Option Nat) (pad : UInt8) {rest : Nat}
    (part : rest < padSize) (blocks written : Nat) (writing : Writing s)
    : ∃ w s', padnLoop (stdioWrite writev) pad rest blocks written s = (written + w, s')
      ∧ Writing s'
      ∧ (w = padSize * blocks + rest
          ∧ Accepts writev (List.replicate (padSize * blocks + rest) pad) s s'
        ∨ ∃ own, Fails writev (List.replicate (padSize * blocks + rest) pad) own s s') := by
  induction blocks generalizing s written with
  | zero =>
    rcases Nat.eq_zero_or_pos rest with rfl | pos
    · exact ⟨0, s, by simp [padnLoop], writing, .inl ⟨by simp, .refl writev s⟩⟩
    · obtain ⟨k, s', ⟨writing', outcome⟩, run⟩ :=
        fwrite_bytes writev (List.replicate rest pad) writing (by simp [padSize] at *; omega)
      simp only [length_replicate] at run outcome
      refine ⟨k, s', by simp only [padnLoop, pos, if_true, run], writing', ?_⟩
      simp only [Nat.mul_zero, Nat.zero_add]
      rcases outcome with ⟨all, accepts⟩ | ⟨_, fails⟩
      · exact .inl ⟨all, accepts⟩
      · exact .inr ⟨k, fails⟩
  | succ blocks ih =>
    have count : padSize * (blocks + 1) + rest = padSize + (padSize * blocks + rest) := by
      simp only [padSize]
      omega
    have split : List.replicate (padSize * (blocks + 1) + rest) pad
        = List.replicate padSize pad ++ List.replicate (padSize * blocks + rest) pad := by
      rw [replicate_append_replicate, count]
    obtain ⟨k, t, ⟨writing', outcome⟩, run⟩ :=
      fwrite_bytes writev (List.replicate padSize pad) writing (by simp [padSize])
    simp only [length_replicate] at run outcome
    rw [split]
    rcases outcome with ⟨rfl, accepts⟩ | ⟨less, fails⟩
    · obtain ⟨w, s', run', writing'', outcome⟩ := ih (written + padSize) writing'
      refine ⟨padSize + w, s', ?_, writing'', ?_⟩
      · simp only [padnLoop, run, ne_eq, not_true_eq_false, if_false, run']
        rw [Nat.add_assoc]
      · rcases outcome with ⟨all, accepts'⟩ | ⟨own, fails⟩
        · exact .inl ⟨by rw [all, count], accepts.trans accepts'⟩
        · exact .inr (accepts.fails fails)
    · refine ⟨k, t, ?_, writing', .inr ⟨k, fails.longer _⟩⟩
      simp only [padnLoop, run, ne_eq, Nat.ne_of_lt less, not_false_eq_true, if_true]

/-- Whether `putc` stores the byte in the buffer: at once, or in `__overflowx` of a line
buffered stream.
-/
def Streambuf.buffersByte {W : Type} (s : Streambuf W) (c : Int) : Prop :=
  c ≠ newline.toNat ∧ s.pptr ≠ s.epptr
  ∨ UInt8.ofInt c ≠ newline ∧ s.lbf = true ∧ (if s.epptr = 0 then s.towrite.2 else s).epptr
      ≠ (if s.epptr = 0 then s.towrite.2 else s).pptr

/-- `__overflowx` enters writing mode unless the put area is active. -/
theorem Writing.enter {s : Streambuf W} (writing : Writing s)
    : ∃ t, (if s.epptr = 0 then s.towrite else (0, s)) = (0, t) ∧ Writing t
      ∧ t.curWr = true ∧ t.pending = s.pending ∧ t.cookie = s.cookie
      ∧ t = (if s.epptr = 0 then s.towrite.2 else s) := by
  by_cases null : s.epptr = 0
  · obtain ⟨t, entered, writing', mode, pending, cookie⟩ := writing.towrite
    exact ⟨t, by rw [if_pos null, entered], writing', mode, pending, cookie,
      by rw [if_pos null, entered]⟩
  · have mode : s.curWr = true := by
      by_contra off
      exact null (writing.idle (Bool.eq_false_iff.mpr off)).2.2
    exact ⟨s, if_neg null, writing, mode, rfl, rfl, (if_neg null).symm⟩

theorem towrite_lbf {W : Type} (s : Streambuf W) : s.towrite.2.lbf = s.lbf := by
  unfold Streambuf.towrite
  split
  · rfl
  · split <;> rfl

/-- `__overflowx` stores the byte in the buffer of a line buffered stream, or sends it. -/
theorem overflowx_pushes (writev : Nat → Option Nat) (writing : Writing s) {b : UInt8}
    (plain : b.toNat < 128 ∨ ¬ (b ≠ newline ∧ s.lbf = true
        ∧ (if s.epptr = 0 then s.towrite.2 else s).epptr
          ≠ (if s.epptr = 0 then s.towrite.2 else s).pptr))
    : ∃ r s', overflowx (stdioWrite writev) b.toNat s = (r, s') ∧ Writing s'
      ∧ (r = b.toNat ∧ Accepts writev [b] s s' ∨ ∃ own, Fails writev [b] own s s') := by
  obtain ⟨t, entered, writing', mode, pending, cookie, shape⟩ := writing.enter
  have lbf : t.lbf = s.lbf := by
    rw [shape]
    split
    · exact towrite_lbf s
    · rfl
  simp only [overflowx, ofInt_toNat, entered, ne_eq, not_true_eq_false, if_false]
  by_cases stored : ¬ t.epptr = t.pptr ∧ ¬ b = newline ∧ t.lbf = true
  · obtain ⟨_, _, high, bound⟩ := writing'.active mode
    have fits : [b].length ≤ t.epptr - t.pptr := by
      rw [length_singleton]
      omega
    have ascii : b.toNat < 128 :=
      plain.resolve_right (not_not.mpr ⟨stored.2.1, lbf ▸ stored.2.2, by rw [← shape]; exact stored.1⟩)
    have pushes : Pushes writev [b] t 1 (t.append [b]) :=
      ⟨(writing'.append mode fits).1, .inl ⟨rfl, .append writev writing' mode fits⟩⟩
    obtain ⟨written, ⟨_, accepts⟩ | ⟨less, _⟩⟩ := pushes.of_same pending cookie
    · exact ⟨_, _, if_pos stored, written, .inl ⟨plainChar_ascii ascii, accepts⟩⟩
    · exact absurd less (Nat.lt_irrefl _)
  · obtain ⟨n, s', run, pushes, _⟩ :=
      stdioWrite_pushes writev writing' mode (cons_ne_nil b []) (by simp)
    obtain ⟨written, ⟨all, accepts⟩ | ⟨less, fails⟩⟩ := pushes.of_same pending cookie
    · refine ⟨_, s', ?_, written, .inl ⟨rfl, accepts⟩⟩
      rw [if_neg stored, run]
      simp [all]
    · refine ⟨eofValue, s', ?_, written, .inr ⟨n, fails⟩⟩
      rw [if_neg stored, run]
      rw [length_singleton] at less
      simp [show n = 0 by omega]

theorem putc_pushes (writev : Nat → Option Nat) (writing : Writing s) {c : Int}
    (plain : (UInt8.ofInt c).toNat < 128 ∨ ¬ s.buffersByte c)
    : ∃ r s', putc (stdioWrite writev) c s = (r, s') ∧ Writing s'
      ∧ (r = (UInt8.ofInt c).toNat ∧ Accepts writev [UInt8.ofInt c] s s'
        ∨ ∃ own, Fails writev [UInt8.ofInt c] own s s') := by
  by_cases direct : c ≠ newline.toNat ∧ s.pptr ≠ s.epptr
  · have mode : s.curWr = true := by
      by_contra off
      obtain ⟨_, current, bound⟩ := writing.idle (Bool.eq_false_iff.mpr off)
      exact direct.2 (current.trans bound.symm)
    obtain ⟨_, _, high, bound⟩ := writing.active mode
    have fits : [UInt8.ofInt c].length ≤ s.epptr - s.pptr := by
      rw [length_singleton]
      omega
    have ascii : (UInt8.ofInt c).toNat < 128 := plain.resolve_right (not_not.mpr (.inl direct))
    refine ⟨plainChar (UInt8.ofInt c), s.append [UInt8.ofInt c], by rw [putc, if_pos direct],
      (writing.append mode fits).1, .inl ⟨plainChar_ascii ascii, .append writev writing mode fits⟩⟩
  · rw [putc, if_neg direct]
    exact overflowx_pushes writev writing (plain.imp_right fun bytes stored => bytes (.inr stored))

/-- A flush sends what is pending, or fails; the rest of the stream is reset. -/
theorem fflushx_pushes {virt : Jumptable Descriptor} (writer : virt.write = stdioWrite writev)
    (writing : Writing s)
    : ∃ r s', fflushx virt s = (r, s') ∧ Writing s' ∧ s'.pending = []
      ∧ (r = 0 ∧ Accepts writev [] s s' ∨ r = eofValue ∧ ∃ own, Fails writev [] own s s') := by
  have idle {t : Streambuf Descriptor} (writing : Writing t)
      : Writing t.fpurge ∧ t.fpurge.pending = [] ∧ t.freadahead = 0 := by
    have purged : Writing t.fpurge :=
      ⟨writing.noWr, rfl, rfl, writing.null, writing.buffer, by simp [Streambuf.fpurge],
        fun _ => ⟨rfl, rfl, rfl⟩⟩
    exact ⟨purged, purged.pending_eq, by simp [Streambuf.freadahead, writing.egptr]⟩
  by_cases some_ : s.fpending ≠ 0
  · have mode : s.curWr = true := by
      by_contra off
      obtain ⟨_, _, bound⟩ := writing.idle (Bool.eq_false_iff.mpr off)
      exact some_ (by simp [Streambuf.fpending, bound])
    have nonempty : s.pending ++ [] ≠ [] := by
      simpa [Streambuf.pending, ← length_eq_zero_iff] using some_
    have address : s.buf ≠ 0 := by
      intro null
      obtain ⟨base, low, high, bound⟩ := writing.active mode
      have none := writing.null null
      exact some_ (by simp only [Streambuf.fpending, bound, none]; simp)
    rcases stdioWrite_spec writev nonempty with
      ⟨calls, le, fine, result⟩ | ⟨calls, j, le, failed, bound, result⟩
    · obtain ⟨writing', _⟩ := writing.sentAll mode (s.pending ++ []) calls
      obtain ⟨purged, empty, ahead⟩ := idle writing'
      refine ⟨0, _, ?_, purged, empty, .inl ⟨rfl, le, fine, s.pending ++ [], rfl, ?_⟩⟩
      · have kept : (s.send (s.pending ++ []) calls).fsetwrite.pptr ≠ 0 := address
        rw [fflushx_pending virt some_ (writer ▸ result), if_neg kept, ahead]
        rfl
      · rw [empty, append_nil]
    · obtain ⟨writing', empty⟩ := writing.failed ((s.pending ++ []).take j) (calls + 1)
      refine ⟨eofValue, _, ?_, writing', empty, .inr ⟨rfl, j - s.pending.length,
        ⟨calls, le, Nat.lt_succ_self _, failed⟩, ⟨_, rfl, take_prefix _ _, ?_⟩, empty, rfl⟩⟩
      · have null : (s.send ((s.pending ++ []).take j) (calls + 1)).fseterror.pptr = 0 := rfl
        rw [fflushx_pending virt some_ (writer ▸ result), if_pos null]
      · rw [length_take]
        omega
  · obtain ⟨purged, empty, ahead⟩ := idle writing
    refine ⟨0, s.fpurge, ?_, purged, empty, Or.inl ⟨rfl, Nat.le_refl _, ?_, [], ?_, ?_⟩⟩
    · simp [fflushx, some_, ahead]
    · intro i low high
      simp only [Streambuf.fpurge] at high
      omega
    · simp [Streambuf.fpurge]
    · rw [empty]
      simp [Streambuf.pending, not_not.mp some_]

end Nglibc.Stdio
