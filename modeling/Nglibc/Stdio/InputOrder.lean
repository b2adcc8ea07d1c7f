import Nglibc.Stdio.Input

/-! Input through the get area delivers the bytes of the source in order, each byte once. -/

namespace Nglibc.Stdio

open List

variable {W : Type}

/-- What stands behind an input stream: the bytes that `virt->read` has not handed out yet,
in the states of memory and cookie that are valid.
-/
structure Source (W : Type) where
  valid : Memory UInt8 → W → Prop
  remaining : Memory UInt8 → W → List UInt8

def Source.left (source : Source W) (s : Streambuf W) : List UInt8 :=
  s.unread ++ source.remaining s.memory s.cookie

structure Reading (source : Source W) (s : Streambuf W) : Prop where
  noRd : s.noRd = false
  put : s.pptr = s.pbase
  get : s.gptr ≤ s.egptr
  eof : s.eof = true → source.remaining s.memory s.cookie = []
  valid : source.valid s.memory s.cookie

/-- A call of `virt->read` stores some of the next bytes and may preload the get area with
the ones that follow; it stores none only at the end.
-/
structure ReadOutcome (source : Source W) (s : Streambuf W) (len : Nat) (n : Int)
    (bytes : List UInt8) (s' : Streambuf W) : Prop where
  count : n = bytes.length
  most : bytes.length ≤ len
  order : bytes ++ source.left s' = source.remaining s.memory s.cookie
  some_ : source.remaining s.memory s.cookie ≠ [] → bytes ≠ []
  reading : Reading source s'

/-- The contract of `virt->read`. -/
def HandsOut (source : Source W) (virt : Jumptable W) : Prop :=
  ∀ s len, Reading source s → 0 < len →
    ReadOutcome source s len (virt.read s len).1 (virt.read s len).2.1 (virt.read s len).2.2

/-- A direct read of `fread` that stores some but not all of the bytes, so that another one follows, has
not preloaded the get area.
-/
def PlainReads (virt : Jumptable W) : Nat → Nat → Streambuf W → Prop
  | fuel + 1, l + 1, s =>
    let (failed, s) := s.toread virt.write
    let (_, bytes, s) := virt.read s (l + 1)
    failed = 0 → bytes ≠ [] → bytes.length < l + 1 →
      s.unread = [] ∧ PlainReads virt fuel (l + 1 - bytes.length) s
  | _, _, _ => True

variable {source : Source W} {s : Streambuf W} {virt : Jumptable W}

theorem Reading.unread_nil (reading : Reading source s)
    : s.unread = [] ↔ s.gptr = s.egptr := by
  have get := reading.get
  rw [← length_eq_zero_iff, Streambuf.unread, Memory.length_slice]
  omega

theorem Reading.unread_cons (reading : Reading source s) (some_ : s.gptr ≠ s.egptr)
    : s.unread = s.memory s.gptr :: Streambuf.unread { s with gptr := s.gptr + 1 } := by
  have get := reading.get
  simp only [Streambuf.unread]
  rw [show s.egptr - s.gptr = s.egptr - (s.gptr + 1) + 1 by omega, Memory.slice_succ]

theorem Reading.toread (reading : Reading source s) (write : WriteFn W)
    : ∃ t, s.toread write = (if s.eof then eofValue else 0, t) ∧ Reading source t
      ∧ t.unread = [] ∧ t.memory = s.memory ∧ t.cookie = s.cookie := by
  refine ⟨{ s with
    pptr := 0, pbase := 0, epptr := 0, curWr := false, gptr := s.bufend, egptr := s.bufend }, ?_,
    ⟨reading.noRd, rfl, Nat.le_refl _, reading.eof, reading.valid⟩, ?_, rfl, rfl⟩
  · simp [Streambuf.toread, reading.put, reading.noRd]
  · simp [Streambuf.unread]

/-- The byte that `getc_unlocked` asks `virt->read` for is below 0x80. -/
def PlainRefill (source : Source W) (s : Streambuf W) : Prop :=
  s.gptr = s.egptr → ∀ b rest, source.remaining s.memory s.cookie = b :: rest → b.toNat < 128

def NextByte (source : Source W) (s : Streambuf W) (c : Int) (s' : Streambuf W) : Prop :=
  match source.left s with
  | [] => c = eofValue ∧ source.left s' = []
  | b :: rest => c = b.toNat ∧ source.left s' = rest

/-- `getc_unlocked` hands out the next byte, or the end when none is left. -/
theorem getcUnlocked_next (hands : HandsOut source virt) (reading : Reading source s)
    (plain : PlainRefill source s)
    : Reading source (getcUnlocked virt s).2
      ∧ NextByte source s (getcUnlocked virt s).1 (getcUnlocked virt s).2 := by
  have get := reading.get
  by_cases empty : s.gptr = s.egptr
  · -- the byte comes from a refill, through a plain `char`
    have none : s.unread = [] := reading.unread_nil.mpr empty
    have left : source.left s = source.remaining s.memory s.cookie := by
      rw [Source.left, none, nil_append]
    obtain ⟨t, entered, reading', cleared, memory, cookie⟩ := reading.toread virt.write
    simp only [getcUnlocked, uflowx, empty, ne_eq, not_true_eq_false, if_false, entered]
    cases eof : s.eof with
    | true =>
      have ended := reading.eof eof
      have after : source.left t = [] := by
        rw [Source.left, cleared, memory, cookie, ended, nil_append]
      refine ⟨by simpa [eofValue] using reading', ?_⟩
      rw [NextByte, left, ended]
      simpa [eofValue] using after
    | false =>
      have outcome := hands t 1 reading' Nat.one_pos
      rcases result : virt.read t 1 with ⟨n, bytes, s'⟩
      rw [result] at outcome
      obtain ⟨count, most, order, some_, reading''⟩ := outcome
      rw [memory, cookie] at order some_
      cases bytes with
      | nil =>
        have ended : source.remaining s.memory s.cookie = [] := by
          by_contra more
          exact some_ more rfl
        rw [ended] at order
        have zero : n = 0 := count
        refine ⟨by simpa [result, zero] using reading'', ?_⟩
        rw [NextByte, left, ended]
        simpa [result, zero] using order
      | cons b more =>
        have single : more = [] := by
          rw [length_cons] at most
          exact length_eq_zero_iff.mp (by omega)
        subst single
        have one : n = 1 := count
        have ascii := plain empty b (source.left s') order.symm
        refine ⟨by simpa [result, one] using reading'', ?_⟩
        rw [NextByte, left, ← order]
        simp [result, one, plainChar, ascii]
  · -- the byte is in the buffer
    simp only [getcUnlocked, empty, ne_eq, not_false_eq_true, if_true]
    refine ⟨⟨reading.noRd, reading.put, by simp only; omega, reading.eof, reading.valid⟩, ?_⟩
    rw [NextByte, Source.left, reading.unread_cons empty]
    exact ⟨rfl, rfl⟩

/-- A result of `fread` with `place` bytes already stored in `dest` and `l` missing: it has
delivered the next bytes until `l` are there or none is left.
-/
def Delivers (source : Source W) (size l place : Nat) (dest : Memory UInt8) (s : Streambuf W)
    (run : Option (Nat × Memory UInt8 × Streambuf W)) : Prop :=
  ∃ got dest' s', run = some ((place + got) / size, dest', s') ∧ Reading source s'
    ∧ got = min l (source.left s).length
    ∧ dest'.slice 0 (place + got) = dest.slice 0 place ++ (source.left s).take got
    ∧ source.left s' = (source.left s).drop got

variable {dest : Memory UInt8}

theorem Delivers.atEnd {size l place : Nat} {s s' : Streambuf W} (ended : source.left s = [])
    (reading : Reading source s') (none : source.left s' = [])
    : Delivers source size l place dest s (some (place / size, dest, s')) := by
  refine ⟨0, dest, s', rfl, reading, ?_, ?_, ?_⟩ <;> simp [ended, none]

theorem Delivers.step {size l place : Nat} {s t : Streambuf W} {bytes : List UInt8}
    {run : Option (Nat × Memory UInt8 × Streambuf W)} (order : source.left s = bytes ++ source.left t)
    (most : bytes.length ≤ l)
    (later : Delivers source size (l - bytes.length) (place + bytes.length)
      (dest.store place bytes) t run)
    : Delivers source size l place dest s run := by
  obtain ⟨got, dest', s', ran, reading, count, stored, rest⟩ := later
  refine ⟨bytes.length + got, dest', s', ?_, reading, ?_, ?_, ?_⟩
  · rw [ran, Nat.add_assoc]
  · rw [order, length_append]
    omega
  · have front : (dest.store (0 + place) bytes).slice 0 (place + bytes.length)
        = dest.slice 0 place ++ bytes := Memory.slice_store_append
    rw [Nat.zero_add] at front
    rw [← Nat.add_assoc, stored, front, order, take_length_add_append, append_assoc]
  · rw [rest, order]
    simp

/-- The direct reads of `fread`. The get area is empty before each of them, as a read that
did not store all that was asked for preloads nothing; by induction on the reads.
-/
theorem freadLoop_delivers (hands : HandsOut source virt) {size nmemb len fuel l place : Nat}
    (items : nmemb = len / size) (missing : place + l = len)
    (small : len < 2 ^ 64) (enough : l < fuel) (reading : Reading source s)
    (empty : l ≠ 0 → s.unread = []) (plain : PlainReads virt fuel l s)
    : Delivers source size l place dest s (freadLoop virt size nmemb len fuel l place dest s) := by
  induction fuel generalizing l place dest s with
  | zero => omega
  | succ fuel ih =>
    cases l with
    | zero =>
      refine ⟨0, dest, s, ?_, reading, by simp, by simp, by simp⟩
      rw [freadLoop, items, ← missing]
    | succ l =>
      have left : source.left s = source.remaining s.memory s.cookie := by
        rw [Source.left, empty (Nat.succ_ne_zero l), nil_append]
      have back : toSizeT ((len : Int) - (l + 1)) = place := by
        rw [show (len : Int) - (l + 1) = (place : Nat) by omega]
        exact toSizeT_natCast (by omega)
      obtain ⟨t, entered, reading', cleared, memory, cookie⟩ := reading.toread virt.write
      cases eof : s.eof with
      | true =>
        have ended := reading.eof eof
        have none : source.left t = [] := by
          rw [Source.left, cleared, memory, cookie, ended, nil_append]
        have stop : freadLoop virt size nmemb len (fuel + 1) (l + 1) place dest s
            = some (place / size, dest, t) := by
          simp only [freadLoop, entered, eof, if_true, back]
          rfl
        rw [stop]
        exact .atEnd (left.trans ended) reading' none
      | false =>
        have outcome := hands t (l + 1) reading' (Nat.succ_pos l)
        rw [eof, if_neg Bool.false_ne_true] at entered
        rcases result : virt.read t (l + 1) with ⟨n, bytes, s'⟩
        rw [result] at outcome
        rw [PlainReads, entered] at plain
        simp only [result] at plain
        obtain ⟨count, most, order, some_, reading''⟩ := outcome
        simp only at count most order some_ reading''
        rw [memory, cookie] at order some_
        have k : toSizeT n = bytes.length := by
          rw [count]
          exact toSizeT_natCast (by omega)
        have step : freadLoop virt size nmemb len (fuel + 1) (l + 1) place dest s
            = if bytes.length = 0 then some (place / size, dest, s')
              else
                freadLoop virt size nmemb len fuel (l + 1 - bytes.length)
                  (place + bytes.length) (dest.store place bytes) s' := by
          have less : toSizeT ((l + 1 : Int) - bytes.length) = l + 1 - bytes.length := by
            rw [show (l + 1 : Int) - bytes.length = (l + 1 - bytes.length : Nat) by omega]
            exact toSizeT_natCast (by omega)
          have next : (place + bytes.length) % 2 ^ 64 = place + bytes.length :=
            Nat.mod_eq_of_lt (by omega)
          simp only [freadLoop, entered, if_false, result, back, k, ne_eq, not_true_eq_false, less,
            next]
        rw [step]
        split
        · rename_i none
          have nil := length_eq_zero_iff.mp none
          have ended : source.remaining s.memory s.cookie = [] := by
            by_contra more
            exact some_ more nil
          rw [nil, ended] at order
          exact .atEnd (left.trans ended) reading'' order
        · rename_i more
          have next := plain trivial (fun none => more (congrArg List.length none))
          refine .step (left.trans order.symm) most (ih ?_ ?_ reading'' ?_ ?_)
          · omega
          · omega
          · exact fun more => (next (by omega)).1
          · by_cases all : bytes.length = l + 1
            · rw [all, Nat.sub_self]
              cases fuel <;> trivial
            · exact (next (by omega)).2

/-- The direct reads of a call of `fread`, behind what the buffer gives, are plain. -/
def PlainFread (virt : Jumptable W) (fuel len : Nat) (s : Streambuf W) : Prop :=
  let k := min (s.egptr - s.gptr) len
  PlainReads virt fuel (len - k) { s with gptr := s.gptr + k }

/-- `fread` hands out the next bytes, from the get area and by its direct reads. -/
theorem freadUnlocked_delivers (hands : HandsOut source virt) {size nmemb fuel : Nat}
    (dest : Memory UInt8) (small : size * nmemb < 2 ^ 64)
    (enough : size * nmemb < fuel) (reading : Reading source s)
    (plain : PlainFread virt fuel (size * nmemb) s)
    : Delivers source size (size * nmemb) 0 dest s (freadUnlocked virt fuel dest size nmemb s) := by
  have get := reading.get
  have len : size * nmemb % 2 ^ 64 = size * nmemb := Nat.mod_eq_of_lt small
  have items : (if size = 0 then 0 else nmemb) = size * nmemb / size := by
    split
    · rename_i none
      simp [none]
    · rename_i some_
      rw [Nat.mul_div_cancel_left _ (Nat.pos_of_ne_zero some_)]
  set k := min (s.egptr - s.gptr) (size * nmemb) with buffered
  let t : Streambuf W := { s with gptr := s.gptr + k }
  have unread : s.unread = s.memory.slice s.gptr k ++ t.unread := by
    simp only [Streambuf.unread, t]
    rw [← Memory.slice_add]
    congr 1
    omega
  have reading' : Reading source t :=
    ⟨reading.noRd, reading.put, by simp only [t]; omega, reading.eof, reading.valid⟩
  have order : source.left s = s.memory.slice s.gptr k ++ source.left t := by
    rw [Source.left, unread, append_assoc]
    rfl
  have empty : size * nmemb - k ≠ 0 → t.unread = [] := by
    intro more
    rw [reading'.unread_nil]
    simp only [t]
    omega
  simp only [freadUnlocked, len]
  refine Delivers.step order (by rw [Memory.length_slice]; omega) ?_
  rw [Memory.length_slice, Nat.zero_add]
  exact freadLoop_delivers hands items (by omega) small (by omega) reading' empty plain

/-- An input call, where `dest` is what the buffer argument of `fread` held before. -/
inductive InputCall where
  | getc
  | fread (dest : Memory UInt8) (size nmemb : Nat)

inductive InputResult where
  | getc (c : Int)
  | fread (n : Nat) (dest : Memory UInt8)

/-- The length of the buffer argument of `fread`. -/
def InputCall.length : InputCall → Nat
  | .getc => 0
  | .fread _ size nmemb => size * nmemb

def InputCall.run (virt : Jumptable W) (fuel : Nat) (s : Streambuf W)
    : InputCall → Option (InputResult × Streambuf W)
  | .getc =>
    let (c, s) := getcUnlocked virt s
    some (.getc c, s)
  | .fread dest size nmemb =>
    (freadUnlocked virt fuel dest size nmemb s).map (fun (n, dest, s) => (.fread n dest, s))

def runInput (virt : Jumptable W) (fuel : Nat)
    : List InputCall → Streambuf W → Option (List InputResult × Streambuf W)
  | [], s => some ([], s)
  | call :: rest, s =>
    (call.run virt fuel s).bind (fun (r, s) =>
      (runInput virt fuel rest s).map (fun (results, s) => (r :: results, s)))

/-- A call has delivered `bytes` and `rest` is left. -/
def InputCall.Delivers : InputCall → InputResult → List UInt8 → List UInt8 → Prop
  | .getc, .getc c, bytes, rest =>
    (∃ b, bytes = [b] ∧ c = b.toNat) ∨ (bytes = [] ∧ c = eofValue ∧ rest = [])
  | .fread _ size nmemb, .fread n dest, bytes, rest =>
    n = bytes.length / size
    ∧ dest.slice 0 bytes.length = bytes
    ∧ bytes.length ≤ size * nmemb
    ∧ (bytes.length < size * nmemb → rest = [])
  | _, _, _, _ => False

/-- The calls have delivered the bytes `before` in order, each byte once, up to `after`. -/
def DeliversAll : List InputCall → List InputResult → List UInt8 → List UInt8 → Prop
  | [], [], before, after => before = after
  | call :: calls, r :: results, before, after =>
    ∃ bytes rest, before = bytes ++ rest ∧ call.Delivers r bytes rest
      ∧ DeliversAll calls results rest after
  | _, _, _, _ => False

/-- Every `getc` of a run that refills the get area reads a byte below 0x80. -/
def PlainRefills (source : Source W) (virt : Jumptable W) (fuel : Nat)
    : List InputCall → Streambuf W → Prop
  | [], _ => True
  | call :: rest, s =>
    (call = .getc → PlainRefill source s)
    ∧ ∀ r s', call.run virt fuel s = some (r, s') → PlainRefills source virt fuel rest s'

def InputCall.Plain (virt : Jumptable W) (fuel : Nat) (s : Streambuf W) : InputCall → Prop
  | .getc => True
  | .fread _ size nmemb => PlainFread virt fuel (size * nmemb) s

/-- The direct reads of every `fread` of a run are plain. -/
def PlainFreads (virt : Jumptable W) (fuel : Nat) : List InputCall → Streambuf W → Prop
  | [], _ => True
  | call :: rest, s =>
    call.Plain virt fuel s
    ∧ ∀ r s', call.run virt fuel s = some (r, s') → PlainFreads virt fuel rest s'

/-- One call hands out a prefix of what is left, and tells how much. -/
theorem InputCall.run_delivers (hands : HandsOut source virt) {fuel : Nat} {call : InputCall}
    (small : call.length < 2 ^ 64) (enough : call.length < fuel) (reading : Reading source s)
    (plain : call = .getc → PlainRefill source s) (reads : call.Plain virt fuel s)
    : ∃ r s' bytes, call.run virt fuel s = some (r, s') ∧ Reading source s'
        ∧ source.left s = bytes ++ source.left s'
        ∧ call.Delivers r bytes (source.left s') := by
  cases call with
  | getc =>
    obtain ⟨reading', next⟩ := getcUnlocked_next hands reading (plain rfl)
    rcases result : getcUnlocked virt s with ⟨c, s'⟩
    rw [result] at reading' next
    simp only [NextByte] at next
    cases left : source.left s with
    | nil =>
      rw [left] at next
      refine ⟨.getc c, s', [], by simp [InputCall.run, result], reading', ?_, ?_⟩
      · rw [next.2]
        rfl
      · exact .inr ⟨rfl, next⟩
    | cons b rest =>
      rw [left] at next
      refine ⟨.getc c, s', [b], by simp [InputCall.run, result], reading', ?_, ?_⟩
      · rw [next.2]
        rfl
      · exact .inl ⟨b, rfl, next.1⟩
  | fread dest size nmemb =>
    obtain ⟨got, dest', s', run, reading', count, stored, rest⟩ :=
      freadUnlocked_delivers hands dest small enough reading reads
    simp only [Nat.zero_add] at run stored
    have size_eq : ((source.left s).take got).length = got := by
      rw [length_take]
      omega
    refine ⟨.fread (got / size) dest', s', (source.left s).take got, ?_, reading', ?_, ?_⟩
    · simp [InputCall.run, run]
    · rw [rest, take_append_drop]
    · refine ⟨by rw [size_eq], ?_, by omega, ?_⟩
      · rw [size_eq, stored]
        simp
      · intro short
        rw [rest]
        exact drop_eq_nil_of_le (by omega)

theorem runInput_delivers (hands : HandsOut source virt) {fuel : Nat} {calls : List InputCall}
    (small : ∀ call ∈ calls, call.length < 2 ^ 64) (enough : ∀ call ∈ calls, call.length < fuel)
    (reading : Reading source s) (plain : PlainRefills source virt fuel calls s)
    (reads : PlainFreads virt fuel calls s)
    : ∃ results s', runInput virt fuel calls s = some (results, s')
        ∧ DeliversAll calls results (source.left s) (source.left s') := by
  induction calls generalizing s with
  | nil => exact ⟨[], s, rfl, rfl⟩
  | cons call rest ih =>
    obtain ⟨r, t, bytes, run, reading', order, delivers⟩ :=
      InputCall.run_delivers hands (small call mem_cons_self)
        (enough call mem_cons_self) reading plain.1 reads.1
    obtain ⟨results, s', run', delivers'⟩ :=
      ih (fun c member => small c (mem_cons_of_mem _ member))
        (fun c member => enough c (mem_cons_of_mem _ member)) reading' (plain.2 r t run)
        (reads.2 r t run)
    refine ⟨r :: results, s', ?_, bytes, source.left t, order, delivers, delivers'⟩
    simp [runInput, run, run']

end Nglibc.Stdio
