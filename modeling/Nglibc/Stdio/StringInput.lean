import Nglibc.Stdio.InputOrder

/-! Input from a string, as `__vsscanf` sets it up. -/

namespace Nglibc.Stdio

/-- `s_read`: the cookie is the address of the rest of the string. -/
def sRead (s : Streambuf Nat) (len : Nat) : Int × List UInt8 × Streambuf Nat :=
  let src := s.cookie
  let k := ((s.memory.slice src (len + 256)).idxOf? 0).getD (len + 256)
  let len := if k < len then k else len
  (len, s.memory.slice src len, { s.setg (src + len) (src + k) with cookie := src + k })

/-- The stream of `__vsscanf` on the string at `address`. -/
def vsscanfStream (memory : Memory UInt8) (address : Nat) : Streambuf Nat :=
  Streambuf.finit false false false false memory address address 0

/-- A string with its terminator at the address `terminator`. -/
def stringSource (terminator : Nat) : Source Nat where
  valid memory src :=
    src ≤ terminator ∧ memory terminator = 0 ∧ ∀ x, src ≤ x → x < terminator → memory x ≠ 0
  remaining memory src := memory.slice src (terminator - src)

/-- The search for the terminator finds it if it is in reach. -/
theorem idxOf?_terminator {memory : Memory UInt8} {src terminator : Nat}
    (valid : (stringSource terminator).valid memory src) (n : Nat)
    : ((memory.slice src n).idxOf? 0).getD n = min n (terminator - src) := by
  induction n generalizing src with
  | zero => simp
  | succ n ih =>
    obtain ⟨le, zero, nonzero⟩ := valid
    rw [Memory.slice_succ, List.idxOf?_cons]
    by_cases here : src = terminator
    · subst here
      simp [zero]
    · have other := nonzero src (Nat.le_refl _) (by omega)
      have rest := ih ⟨(by omega : src + 1 ≤ terminator), zero,
        fun x low high => nonzero x (by omega) high⟩
      rw [if_neg (by simpa using other)]
      cases found : List.idxOf? (0 : UInt8) (memory.slice (src + 1) n) <;>
        rw [found] at rest <;> simp at rest ⊢ <;> omega

/-- `s_read` stores as much as asked for or is left, and preloads up to 256 more bytes. -/
theorem sRead_eq {s : Streambuf Nat} {terminator : Nat}
    (valid : (stringSource terminator).valid s.memory s.cookie) (len : Nat)
    : ∃ stored k, stored = min len (terminator - s.cookie)
        ∧ k = min (len + 256) (terminator - s.cookie)
        ∧ sRead s len = ((stored : Int), s.memory.slice s.cookie stored,
              { s with gptr := s.cookie + stored, egptr := s.cookie + k, cookie := s.cookie + k }) := by
  have k := idxOf?_terminator valid (len + 256)
  have stored : (if min (len + 256) (terminator - s.cookie) < len
      then min (len + 256) (terminator - s.cookie) else len) = min len (terminator - s.cookie) := by
    split <;> omega
  refine ⟨_, _, rfl, rfl, ?_⟩
  simp only [sRead, k, stored, Streambuf.setg]

theorem sRead_handsOut {virt : Jumptable Nat} (reads : virt.read = sRead) (terminator : Nat)
    : HandsOut (stringSource terminator) virt := by
  intro s len reading pos
  obtain ⟨le, zero, nonzero⟩ := reading.valid
  obtain ⟨stored, k, storedEq, kEq, result⟩ := sRead_eq reading.valid len
  rw [reads, result]
  have order : s.memory.slice s.cookie stored
      ++ (s.memory.slice (s.cookie + stored) (s.cookie + k - (s.cookie + stored))
        ++ s.memory.slice (s.cookie + k) (terminator - (s.cookie + k)))
      = s.memory.slice s.cookie (terminator - s.cookie) := by
    rw [show s.cookie + k - (s.cookie + stored) = k - stored by omega,
      show terminator - s.cookie = stored + ((k - stored) + (terminator - (s.cookie + k))) by omega,
      Memory.slice_add, Memory.slice_add,
      show s.cookie + stored + (k - stored) = s.cookie + k by omega]
  refine ⟨by simp, by simp only [Memory.length_slice]; omega, order, ?_, reading.noRd,
    reading.put, by simp only; omega, ?_, by simp only; omega, zero, ?_⟩
  · intro more
    rw [← List.length_pos_iff, stringSource, Memory.length_slice] at more
    rw [← List.length_pos_iff, Memory.length_slice]
    omega
  · intro ended
    have none := reading.eof ended
    simp only [stringSource, ← List.length_eq_zero_iff, Memory.length_slice] at none ⊢
    omega
  · intro x low high
    simp only at low
    exact nonzero x (by omega) high

theorem sRead_short {virt : Jumptable Nat} (reads : virt.read = sRead) {terminator len : Nat}
    {s : Streambuf Nat} (reading : Reading (stringSource terminator) s)
    (short : (virt.read s len).2.1.length < len)
    : (virt.read s len).2.2.unread = [] := by
  obtain ⟨stored, k, storedEq, kEq, result⟩ := sRead_eq reading.valid len
  rw [reads, result] at short ⊢
  simp only [Memory.length_slice] at short
  simp only [Streambuf.unread, ← List.length_eq_zero_iff, Memory.length_slice]
  omega

theorem sRead_plainReads {virt : Jumptable Nat} (reads : virt.read = sRead) {terminator : Nat}
    (fuel l : Nat) {s : Streambuf Nat} (reading : Reading (stringSource terminator) s)
    : PlainReads virt fuel l s := by
  induction fuel generalizing l s with
  | zero => trivial
  | succ fuel ih =>
    cases l with
    | zero => trivial
    | succ l =>
      obtain ⟨t, entered, reading', -⟩ := reading.toread virt.write
      have outcome := sRead_handsOut reads terminator t (l + 1) reading' (Nat.succ_pos l)
      rw [PlainReads, entered]
      exact fun _ _ short => ⟨sRead_short reads reading' short, ih _ outcome.reading⟩

/-- A run over a string of `__vsscanf` has only plain direct reads. -/
theorem sRead_plainFreads {virt : Jumptable Nat} (reads : virt.read = sRead) {terminator fuel : Nat}
    {calls : List InputCall} (small : ∀ call ∈ calls, call.length < 2 ^ 64)
    (enough : ∀ call ∈ calls, call.length < fuel) {s : Streambuf Nat}
    (reading : Reading (stringSource terminator) s)
    (plain : PlainRefills (stringSource terminator) virt fuel calls s)
    : PlainFreads virt fuel calls s := by
  induction calls generalizing s with
  | nil => trivial
  | cons call calls ih =>
    have now : call.Plain virt fuel s := by
      cases call with
      | getc => trivial
      | fread dest size nmemb =>
        have get := reading.get
        refine sRead_plainReads reads _ _
          ⟨reading.noRd, reading.put, ?_, reading.eof, reading.valid⟩
        simp only
        omega
    refine ⟨now, fun r s' run => ?_⟩
    obtain ⟨r', t, -, run', reading', -⟩ := InputCall.run_delivers (sRead_handsOut reads terminator)
      (small call List.mem_cons_self) (enough call List.mem_cons_self) reading plain.1 now
    obtain ⟨rfl, rfl⟩ := Prod.mk.inj (Option.some.inj (run'.symm.trans run))
    exact ih (fun c member => small c (List.mem_cons_of_mem _ member))
      (fun c member => enough c (List.mem_cons_of_mem _ member)) reading' (plain.2 _ _ run)

/-- Input is delivered in order if no `getc` refills the get area with a byte from 0x80 on and no direct
read of `fread` that is followed by another one preloads it; a string of `__vsscanf` never does the latter.
-/
theorem input_inOrder {fuel : Nat} {calls : List InputCall}
    (small : ∀ call ∈ calls, call.length < 2 ^ 64) (enough : ∀ call ∈ calls, call.length < fuel)
    : (∀ {W : Type} {source : Source W} {virt : Jumptable W} {s : Streambuf W},
        HandsOut source virt → Reading source s → PlainRefills source virt fuel calls s
        → PlainFreads virt fuel calls s
        → ∃ results s', runInput virt fuel calls s = some (results, s')
          ∧ DeliversAll calls results (source.left s) (source.left s'))
      ∧ ∀ {virt : Jumptable Nat} {memory : Memory UInt8} {address terminator : Nat},
        virt.read = sRead → (stringSource terminator).valid memory address
        → PlainRefills (stringSource terminator) virt fuel calls (vsscanfStream memory address)
        → ∃ results s', runInput virt fuel calls (vsscanfStream memory address) = some (results, s')
          ∧ DeliversAll calls results (memory.slice address (terminator - address))
            ((stringSource terminator).left s') := by
  refine ⟨fun hands reading plain reads =>
    runInput_delivers hands small enough reading plain reads, ?_⟩
  intro virt memory address terminator reads valid plain
  have reading : Reading (stringSource terminator) (vsscanfStream memory address) :=
    ⟨rfl, rfl, Nat.le_refl _, by simp [vsscanfStream, Streambuf.finit], valid⟩
  exact runInput_delivers (sRead_handsOut reads terminator) small enough reading plain
    (sRead_plainFreads reads small enough reading plain)

def stringTable : Jumptable Nat where
  read := sRead
  write s _ := (-1, s)
  seek s _ _ := (-1, 0, s)

def oneByte (b : UInt8) : Memory UInt8 := Memory.store (fun _ => 0) 16 [b]

theorem oneByte_valid {b : UInt8} (nonzero : b ≠ 0) : (stringSource 17).valid (oneByte b) 16 := by
  refine ⟨by decide, by simp [oneByte, Memory.store], ?_⟩
  intro x low high
  rw [show x = 16 by omega]
  simpa [oneByte, Memory.store] using nonzero

theorem input_inOrder_oneByte
    : ∃ results s',
        runInput stringTable 1 [.getc, .getc] (vsscanfStream (oneByte 97) 16) = some (results, s')
        ∧ DeliversAll [.getc, .getc] results ((oneByte 97).slice 16 (17 - 16))
          ((stringSource 17).left s') := by
  refine (input_inOrder (by decide) (by decide)).2 rfl (oneByte_valid (by decide)) ⟨?_, ?_⟩
  · rintro _ _ b rest first
    have byte : [97] = b :: rest := first
    cases byte
    decide
  · -- the second call finds the end of the string
    intro r s' run
    have state : s' = (getcUnlocked stringTable (vsscanfStream (oneByte 97) 16)).2 := by
      cases run
      rfl
    refine ⟨?_, fun _ _ _ => trivial⟩
    intro _ _ b rest first
    have cookie : s'.cookie = 17 := by
      rw [state]
      decide
    rw [cookie] at first
    cases first

/-- The byte 0xFF at a refill is reported as the end of the input. -/
theorem getc_reports_eof
    : ¬ ∃ results s',
        runInput stringTable 1 [.getc] (vsscanfStream (oneByte 255) 16) = some (results, s')
        ∧ DeliversAll [.getc] results ((oneByte 255).slice 16 (17 - 16))
          ((stringSource 17).left s') := by
  rintro ⟨results, s', run, delivers⟩
  have reported : results = [.getc (-1)] := by
    have value : (getcUnlocked stringTable (vsscanfStream (oneByte 255) 16)).1 = -1 := by decide
    have first : results = [.getc (getcUnlocked stringTable (vsscanfStream (oneByte 255) 16)).1] := by
      cases run
      rfl
    rw [first, value]
  rw [reported] at delivers
  obtain ⟨bytes, rest, order, ⟨b, _, negative⟩ | ⟨rfl, _, rfl⟩, _⟩ := delivers
  · omega
  · cases order

end Nglibc.Stdio
