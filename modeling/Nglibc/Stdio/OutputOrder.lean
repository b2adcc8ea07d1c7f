import Nglibc.Stdio.PutArea

/-! Output through `__stdio_write` reaches the descriptor in order, each byte at most once. -/

namespace Nglibc.Stdio

inductive OutputCall where
  | putc (c : Int)
  | fwrite (src : List UInt8) (size nmemb : Nat)
  | fputs (bytes : List UInt8)
  | padn (pad count : Int)
  | fflush

namespace OutputCall

def bytes : OutputCall → List UInt8
  | putc c => [UInt8.ofInt c]
  | fwrite src _ _ => src
  | fputs bytes => bytes
  | padn pad count => List.replicate count.toNat (UInt8.ofInt pad)
  | fflush => []

def success : OutputCall → Int
  | putc c => (UInt8.ofInt c).toNat
  | fwrite _ size nmemb => if size ≠ 0 then nmemb else 0
  | fputs _ => 0
  | padn _ count => count.toNat
  | fflush => 0

def run {W : Type} (virt : Jumptable W) : OutputCall → Streambuf W → Int × Streambuf W
  | putc c, s => Stdio.putc virt.write c s
  | fwrite src size nmemb, s =>
    let (n, s) := Stdio.fwrite virt.write src size nmemb s
    (n, s)
  | fputs bytes, s => Stdio.fputs virt.write bytes s
  | padn pad count, s =>
    let (n, s) := Stdio.padn virt.write pad count s
    (n, s)
  | fflush, s => fflushx virt s

def Sized : OutputCall → Prop
  | fwrite src size nmemb => src.length = size * nmemb ∧ src.length < 2 ^ 64
  | fputs bytes => bytes.length < 2 ^ 64
  | _ => True

/-- No byte from 0x80 on goes from `putc` into the buffer, and the count of `_IO_padn` is an
`int`.
-/
def Meets {W : Type} (s : Streambuf W) : OutputCall → Prop
  | putc c => (UInt8.ofInt c).toNat < 128 ∨ ¬ s.buffersByte c
  | padn _ count => -2 ^ 31 ≤ count ∧ count < 2 ^ 31
  | _ => True

end OutputCall

def runOutput {W : Type} (virt : Jumptable W)
    : List OutputCall → Streambuf W → List Int × Streambuf W
  | [], s => ([], s)
  | call :: rest, s =>
    let (r, s) := call.run virt s
    let (results, s) := runOutput virt rest s
    (r :: results, s)

def MeetsAll {W : Type} (virt : Jumptable W) : List OutputCall → Streambuf W → Prop
  | [], _ => True
  | call :: rest, s => call.Meets s ∧ MeetsAll virt rest (call.run virt s).2

variable {writev : Nat → Option Nat}

/-- What one call does in writing mode. -/
theorem OutputCall.run_outcome {virt : Jumptable Descriptor} {s : Streambuf Descriptor}
    (writer : virt.write = stdioWrite writev) (writing : Writing s) {call : OutputCall}
    (sized : call.Sized) (meets : call.Meets s)
    : ∃ r s', call.run virt s = (r, s') ∧ Writing s' ∧ (call = .fflush → s'.pending = [])
      ∧ (r = call.success ∧ Accepts writev call.bytes s s' ∨ ∃ own, Fails writev call.bytes own s s'
          ∧ ∀ src size nmemb, call = .fwrite src size nmemb → r = (own / size : Nat)) := by
  cases call with
  | putc c =>
    obtain ⟨r, s', run, writing', ⟨all, accepts⟩ | ⟨own, fails⟩⟩ := putc_pushes writev writing meets
    · exact ⟨r, s', by rw [← run, ← writer]; rfl, writing', by simp, .inl ⟨all, accepts⟩⟩
    · exact ⟨r, s', by rw [← run, ← writer]; rfl, writing', by simp, .inr ⟨own, fails, by simp⟩⟩
  | fwrite src size nmemb =>
    obtain ⟨k, s', ⟨writing', outcome⟩, run⟩ := fwrite_pushes writev writing sized.1 sized.2
    refine ⟨_, s', by simp only [OutputCall.run, writer, run]; rfl, writing', by simp, ?_⟩
    rcases outcome with ⟨all, accepts⟩ | ⟨less, fails⟩
    · refine .inl ⟨?_, accepts⟩
      rw [if_pos all, OutputCall.success]
      split <;> rfl
    · refine .inr ⟨k, fails, ?_⟩
      rintro _ _ _ ⟨⟩
      rw [if_neg (Nat.ne_of_lt less)]
  | fputs bytes =>
    obtain ⟨k, s', ⟨writing', outcome⟩, run⟩ := fwrite_bytes writev bytes writing sized
    refine ⟨_, s', by simp only [OutputCall.run, Stdio.fputs, writer, run]; rfl, writing', by simp, ?_⟩
    rcases outcome with ⟨all, accepts⟩ | ⟨less, fails⟩
    · exact .inl ⟨by simp [all, OutputCall.success], accepts⟩
    · exact .inr ⟨k, fails, by simp⟩
  | padn pad count =>
    have int : toInt count = count := by
      obtain ⟨low, high⟩ := meets
      simp only [toInt]
      rw [Int.bmod_eq_of_le] <;> omega
    have split : padSize * (count.toNat / padSize) + count.toNat % padSize = count.toNat :=
      Nat.div_add_mod _ _
    obtain ⟨w, s', run, writing', outcome⟩ :=
      padnLoop_pushes writev (UInt8.ofInt pad) (Nat.mod_lt count.toNat (by simp [padSize]))
        (count.toNat / padSize) 0 writing
    rw [split] at *
    refine ⟨_, s', by simp only [OutputCall.run, Stdio.padn, writer, int, run]; rfl, writing', by simp, ?_⟩
    rcases outcome with ⟨all, accepts⟩ | ⟨own, fails⟩
    · exact .inl ⟨by simp [all, OutputCall.success], accepts⟩
    · exact .inr ⟨own, fails, by simp⟩
  | fflush =>
    obtain ⟨r, s', run, writing', empty, ⟨ok, accepts⟩ | ⟨_, own, fails⟩⟩ :=
      fflushx_pushes writer writing
    · exact ⟨r, s', run, writing', fun _ => empty, .inl ⟨ok, accepts⟩⟩
    · exact ⟨r, s', run, writing', fun _ => empty, .inr ⟨own, fails, by simp⟩⟩

/-- What a run has done with the bytes passed in so far. -/
structure Delivered (writev : Nat → Option Nat) (passed : List UInt8)
    (s : Streambuf Descriptor) : Prop where
  writing : Writing s
  all : (∀ i < s.cookie.calls, writev i ≠ none) → s.cookie.accepted ++ s.pending = passed
  once : (s.cookie.accepted ++ s.pending).Sublist passed

theorem Delivered.accepts {passed bytes : List UInt8} {s s' : Streambuf Descriptor}
    (delivered : Delivered writev passed s) (accepts : Accepts writev bytes s s') (writing : Writing s')
    : Delivered writev (passed ++ bytes) s' := by
  obtain ⟨sent, accepted, rest⟩ := accepts.sent
  have total : s'.cookie.accepted ++ s'.pending = (s.cookie.accepted ++ s.pending) ++ bytes := by
    rw [accepted, List.append_assoc, rest, ← List.append_assoc]
  refine ⟨writing, ?_, ?_⟩
  · intro fine
    have calls := accepts.calls
    rw [total, delivered.all (fun i before => fine i (by omega))]
  · rw [total]
    exact delivered.once.append_right bytes

theorem Delivered.fails {passed bytes : List UInt8} {own : Nat} {s s' : Streambuf Descriptor}
    (delivered : Delivered writev passed s) (fails : Fails writev bytes own s s') (writing : Writing s')
    : Delivered writev (passed ++ bytes) s' := by
  obtain ⟨sent, accepted, part, _⟩ := fails.sent
  refine ⟨writing, ?_, ?_⟩
  · intro fine
    obtain ⟨i, _, before, failed⟩ := fails.failed
    exact absurd failed (fine i before)
  · rw [fails.dropped, List.append_nil, accepted]
    have inner := part.sublist.append_left s.cookie.accepted
    rw [← List.append_assoc] at inner
    exact inner.trans (delivered.once.append_right bytes)

/-- The invariant holds along every run whose calls meet their conditions, and while no
`writev` fails every call succeeds; by induction on the run.
-/
theorem runOutput_delivered {virt : Jumptable Descriptor} (writer : virt.write = stdioWrite writev)
    {calls : List OutputCall} {passed : List UInt8} {s : Streambuf Descriptor}
    (delivered : Delivered writev passed s) (sized : ∀ call ∈ calls, call.Sized)
    (meets : MeetsAll virt calls s)
    : Delivered writev (passed ++ calls.flatMap OutputCall.bytes) (runOutput virt calls s).2
      ∧ s.cookie.calls ≤ (runOutput virt calls s).2.cookie.calls
      ∧ ((∀ i < (runOutput virt calls s).2.cookie.calls, writev i ≠ none)
        → (runOutput virt calls s).1 = calls.map OutputCall.success) := by
  induction calls generalizing s passed with
  | nil => exact ⟨by simpa [runOutput] using delivered, Nat.le_refl _, fun _ => rfl⟩
  | cons call rest ih =>
    obtain ⟨r, s', run, writing, _, outcome⟩ :=
      call.run_outcome writer delivered.writing (sized call List.mem_cons_self) meets.1
    have later : MeetsAll virt rest s' := by
      have tail := meets.2
      rw [run] at tail
      exact tail
    have sized' : ∀ c ∈ rest, c.Sized := fun c member => sized c (List.mem_cons_of_mem _ member)
    simp only [runOutput, run, List.flatMap_cons, ← List.append_assoc, List.map_cons]
    rcases outcome with ⟨ok, accepts⟩ | ⟨own, fails, _⟩
    · obtain ⟨done, calls, results⟩ := ih (delivered.accepts accepts writing) sized' later
      refine ⟨done, Nat.le_trans accepts.calls calls, ?_⟩
      intro fine
      rw [ok, results fine]
    · obtain ⟨done, calls, results⟩ := ih (delivered.fails fails writing) sized' later
      obtain ⟨i, low, high, failed⟩ := fails.failed
      refine ⟨done, by omega, ?_⟩
      intro fine
      exact absurd failed (fine i (by omega))

theorem runOutput_append {W : Type} (virt : Jumptable W) (calls more : List OutputCall)
    (s : Streambuf W)
    : runOutput virt (calls ++ more) s
      = ((runOutput virt calls s).1 ++ (runOutput virt more (runOutput virt calls s).2).1,
          (runOutput virt more (runOutput virt calls s).2).2) := by
  induction calls generalizing s with
  | nil => rfl
  | cons call rest ih => simp [runOutput, ih]

theorem meetsAll_append {W : Type} {virt : Jumptable W} {calls more : List OutputCall}
    {s : Streambuf W}
    : MeetsAll virt (calls ++ more) s
      ↔ MeetsAll virt calls s ∧ MeetsAll virt more (runOutput virt calls s).2 := by
  induction calls generalizing s with
  | nil => simp [MeetsAll, runOutput]
  | cons call rest ih => simp [MeetsAll, runOutput, ih, and_assoc]

/-- The last call of a run from `start`: while no `writev` has failed, what the descriptor
accepted and what is pending are all bytes passed in, and every call has reported complete
success. A call sends what is pending and its own bytes in this order; if a `writev` fails
in it, the rest is dropped and `fwrite` returns the items of its own that were accepted.
-/
def OutputInOrder (writev : Nat → Option Nat) (virt : Jumptable Descriptor)
    (start : Streambuf Descriptor) (calls : List OutputCall) (call : OutputCall) : Prop :=
  let s := (runOutput virt calls start).2
  let (r, s') := call.run virt s
  let passed := (calls ++ [call]).flatMap OutputCall.bytes
  (NoFailure writev start.cookie s'.cookie → s'.cookie.accepted ++ s'.pending = passed
      ∧ (runOutput virt (calls ++ [call]) start).1 = (calls ++ [call]).map OutputCall.success)
  ∧ (s'.cookie.accepted ++ s'.pending).Sublist passed
  ∧ (call = .fflush → s'.pending = [])
  ∧ ∃ sent, s'.cookie.accepted = s.cookie.accepted ++ sent ∧ (NoFailure writev s.cookie s'.cookie
      → r = call.success ∧ sent ++ s'.pending = s.pending ++ call.bytes)
    ∧ (¬ NoFailure writev s.cookie s'.cookie → s'.err = true ∧ s'.pending = []
        ∧ sent <+: s.pending ++ call.bytes
        ∧ ∀ src size nmemb, call = .fwrite src size nmemb
          → r = ((sent.length - s.pending.length) / size : Nat))

theorem finit_writing {W : Type} (noRd lbf app : Bool) (memory : Memory UInt8) (cookie : W)
    {buf n : Nat} (null : buf = 0 → n = 0)
    : Writing (Streambuf.finit noRd false lbf app memory cookie buf n) where
  noWr := rfl
  gptr := rfl
  egptr := rfl
  null := by
    intro zero
    change buf = 0 at zero
    simp only [Streambuf.finit, zero, null zero]
  buffer := Nat.le_add_right buf n
  active := by simp [Streambuf.finit]
  idle := fun _ => ⟨rfl, rfl, rfl⟩

/-- If each call meets the condition, what it puts is sent or pending in order, and told. -/
theorem output_inOrder {writev : Nat → Option Nat} {virt : Jumptable Descriptor}
    (writer : virt.write = stdioWrite writev) (noRd lbf app : Bool) (memory : Memory UInt8)
    {buf n : Nat} (null : buf = 0 → n = 0) {calls : List OutputCall} {call : OutputCall}
    (sized : ∀ c ∈ calls ++ [call], c.Sized)
    (meets : MeetsAll virt (calls ++ [call])
      (Streambuf.finit noRd false lbf app memory ⟨[], 0⟩ buf n))
    : OutputInOrder writev virt (Streambuf.finit noRd false lbf app memory ⟨[], 0⟩ buf n)
        calls call := by
  set start := Streambuf.finit noRd false lbf app memory (⟨[], 0⟩ : Descriptor) buf n with fresh
  have writing : Writing start := finit_writing noRd lbf app memory _ null
  have delivered : Delivered writev [] start := by
    have empty : start.pending = [] := rfl
    have none : start.cookie.accepted = [] := rfl
    exact ⟨writing, fun _ => by rw [empty]; rfl, by rw [empty]; exact .refl _⟩
  obtain ⟨before, now⟩ := meetsAll_append.mp meets
  obtain ⟨done, _, _⟩ := runOutput_delivered writer delivered
    (fun c member => sized c (List.mem_append_left _ member)) before
  obtain ⟨all, _, results⟩ := runOutput_delivered writer delivered sized meets
  rw [runOutput_append] at all results
  obtain ⟨r, s', run, writing', flushed, outcome⟩ :=
    call.run_outcome writer done.writing (sized call (by simp)) now.1
  simp only [runOutput, run, List.nil_append] at all results
  unfold OutputInOrder
  simp only [run]
  refine ⟨?_, all.once, flushed, ?_⟩
  · intro fine
    have every : ∀ i < s'.cookie.calls, writev i ≠ none := fun i high => fine i (Nat.zero_le i) high
    refine ⟨all.all every, ?_⟩
    rw [runOutput_append]
    simp only [runOutput, run]
    exact results every
  · rcases outcome with ⟨ok, accepts⟩ | ⟨own, fails, count⟩
    · obtain ⟨sent, accepted, rest⟩ := accepts.sent
      exact ⟨sent, accepted, fun _ => ⟨ok, rest⟩, fun failed => absurd accepts.fine failed⟩
    · obtain ⟨sent, accepted, part, size⟩ := fails.sent
      refine ⟨sent, accepted, ?_, fun _ => ⟨fails.err, fails.dropped, part, size ▸ count⟩⟩
      intro fine
      obtain ⟨i, low, high, failed⟩ := fails.failed
      exact absurd failed (fine i low high)

/-- A descriptor that takes three bytes at a time. -/
def threeAtATime : Nat → Option Nat := fun _ => some 2

def outputTable (writev : Nat → Option Nat) : Jumptable Descriptor where
  read s _ := (0, [], s)
  write := stdioWrite writev
  seek s _ _ := (-1, 0, s)

/-- A line buffered stream with four bytes of buffer at the address 16. -/
def smallStream : Streambuf Descriptor :=
  Streambuf.finit false false true false (fun _ => 0) ⟨[], 0⟩ 16 4

theorem output_inOrder_smallStream
    : MeetsAll (outputTable threeAtATime) ([.putc 97] ++ [.fwrite [98, 10, 99] 1 3]) smallStream
      ∧ OutputInOrder threeAtATime (outputTable threeAtATime) smallStream [.putc 97]
        (.fwrite [98, 10, 99] 1 3) :=
  have meets : MeetsAll (outputTable threeAtATime) ([.putc 97] ++ [.fwrite [98, 10, 99] 1 3])
      smallStream := ⟨.inl (by decide), trivial, trivial⟩
  ⟨meets, output_inOrder rfl false true false (fun _ => 0) (by simp)
    (by simp [OutputCall.Sized]) meets⟩

/-- The byte 0xFF stored in the buffer is reported as `EOF`. -/
theorem output_putc_reports_eof
    : ¬ OutputInOrder threeAtATime (outputTable threeAtATime) smallStream [.fwrite [97] 1 1]
        (.putc 255) := by
  rintro ⟨_, _, _, sent, _, success, _⟩
  have fine : NoFailure threeAtATime
      (runOutput (outputTable threeAtATime) [.fwrite [97] 1 1] smallStream).2.cookie
      ((OutputCall.putc 255).run (outputTable threeAtATime)
        (runOutput (outputTable threeAtATime) [.fwrite [97] 1 1] smallStream).2).2.cookie := by
    simp [NoFailure, threeAtATime]
  have reported := (success fine).1
  revert reported
  decide

end Nglibc.Stdio
