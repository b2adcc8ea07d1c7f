import Nglibc.Stdio.Directive
import Nglibc.Stdio.Mb2wc
import Nglibc.Stdio.Output

/-! `printf_core` with its two passes, and the functions of the family that store their text in
memory. What the source does in floating point is a parameter.
-/

namespace Nglibc.Stdio

variable {F W σ : Type}

/-- What the formatting depends on besides its arguments: the pieces that `fmt_fp` writes with
its result, and the text of `strerror(errno)`.
-/
structure Env (F : Type) where
  fmtFp : F → Int → Int → Flags → Char → List (List UInt8) × Int
  strerror : List UInt8

/-- Where the pieces of the text go, and the flag `F_ERR` there. -/
structure Sink (σ : Type) where
  out : List UInt8 → σ → σ
  err : σ → Bool

/-- The stream as a sink: `out` of the source. -/
def streamSink (write : Option (WriteFn W)) : Sink (Streambuf W) where
  out bytes s := if s.err then s else (fwritex write bytes s).2
  err s := s.err

/-- The size of the array `pad`. -/
def padBlock : Nat := 256

/-- The pieces that `pad` writes. -/
def pad (c : Char) (w l : Int) (fl : Flags) : List (List UInt8) :=
  if fl.left ∨ fl.zero ∨ l ≥ w then []
  else
    let n := (w - l).toNat
    List.replicate (n / padBlock) (List.replicate padBlock c.toUInt8)
      ++ [List.replicate (n % padBlock) c.toUInt8]

/-- The digits of a number from the last one on, none for 0. `fuel` bounds their number. -/
def digitsLoop (base : Nat) (digit : Nat → UInt8) : Nat → Nat → List UInt8 → List UInt8
  | 0, _, digits => digits
  | fuel + 1, x, digits =>
    if x = 0 then digits else digitsLoop base digit fuel (x / base) (digit (x % base) :: digits)

/-- The table `xdigits`. -/
def xdigits : List UInt8 :=
  ['0', '1', '2', '3', '4', '5', '6', '7', '8', '9', 'A', 'B', 'C', 'D', 'E', 'F'].map
    Char.toUInt8

/-- `fmt_x`, where `lower` is the bit of the lower case letters or 0. -/
def fmtX (x : BitVec 64) (lower : UInt8) : List UInt8 :=
  digitsLoop 16 (fun d => xdigits.getD d 0 ||| lower) 64 x.toNat []

def fmtO (x : BitVec 64) : List UInt8 :=
  digitsLoop 8 (fun d => '0'.toUInt8 + UInt8.ofNat d) 64 x.toNat []

def fmtU (x : BitVec 64) : List UInt8 :=
  digitsLoop 10 (fun d => '0'.toUInt8 + UInt8.ofNat d) 64 x.toNat []

/-- The end of a directive with the text `a` behind a prefix, at least `p` bytes of it with
leading zeros. `cnt` bytes came before.
-/
def putField (cnt : Int) (fl : Flags) (w p : Int) (pre a : List UInt8)
    : Except Fault (List (List UInt8) × Int) :=
  let p := if p < a.length then (a.length : Int) else p
  if p > intMax - pre.length then .error (.errno .eoverflow)
  else
    let w : Int := if w < pre.length + p then pre.length + p else w
    if w > intMax - cnt then .error (.errno .eoverflow)
    else
      .ok (pad ' ' w (pre.length + p) fl ++ [pre]
        ++ pad '0' w (pre.length + p) { fl with zero := !fl.zero }
        ++ pad '0' p a.length .none ++ [a]
        ++ pad ' ' w (pre.length + p) { fl with left := !fl.left }, w)

/-- The end of an integer conversion with digits `a`. -/
def putInteger (cnt : Int) (fl : Flags) (w p : Int) (xp : Bool) (x : BitVec 64)
    (pre a : List UInt8)
    : Except Fault (List (List UInt8) × Int) :=
  if xp ∧ p < 0 then .error (.errno .eoverflow)
  else
    let fl := if xp then { fl with zero := false } else fl
    if x = 0 ∧ p = 0 then putField cnt fl w p pre []
    else putField cnt fl w (max p (a.length + if x = 0 then 1 else 0)) pre a

def strnlen (bytes : List UInt8) (n : Nat) : Nat := min (bytes.takeWhile (fun b => b ≠ 0)).length n

/-- The string `(null)`. -/
def nullText : List UInt8 := ['(', 'n', 'u', 'l', 'l', ')'].map Char.toUInt8

def putString (cnt : Int) (fl : Flags) (w p : Int) (bytes : List UInt8)
    : Except Fault (List (List UInt8) × Int) :=
  let n := strnlen bytes (if p < 0 then intMax.toNat else p.toNat)
  if p < 0 ∧ bytes.getD n 0 ≠ 0 then .error (.errno .eoverflow)
  else putField cnt { fl with zero := false } w n [] (bytes.take n)

/-- The bytes of the wide characters that fit in `limit` bytes, one piece for each. -/
def wideBytes : Nat → List (BitVec 32) → Except Fault (List (List UInt8))
  | _, [] => .ok []
  | limit, wc :: rest =>
    if limit = 0 ∨ wc = 0 then .ok []
    else
      let (l, bytes) := wc2mb wc
      if l = ilseqValue then .error (.errno .eilseq)
      else if l ≤ limit then (wideBytes (limit - l) rest).map (fun pieces => bytes :: pieces)
      else .ok []

/-- The conversions `S` and `C`. The flag `0` is not cleared here. A negative precision is
converted to `size_t`.
-/
def putWide (fl : Flags) (w p : Int) (ws : List (BitVec 32))
    : Except Fault (List (List UInt8) × Int) := do
  let pieces ← wideBytes (toSizeT p) ws
  let n : Int := pieces.flatten.length
  if n > intMax then .error (.errno .eoverflow)
  else
    .ok (pad ' ' w n fl ++ pieces ++ pad ' ' w n { fl with left := !fl.left }, max w n)

/-- The letter of a conversion, with `ls` and `lc` as `S` and `C`. -/
def Directive.letter (d : Directive) : Char :=
  if d.ps ≠ .bare ∧ d.t = 'c' then 'C'
  else if d.ps ≠ .bare ∧ d.t = 's' then 'S'
  else d.t

/-- The sign of a `d` conversion, as it stands in `prefix`. -/
def signText (fl : Flags) (negative : Bool) : List UInt8 :=
  if negative then ['-'.toUInt8]
  else if fl.markPos then ['+'.toUInt8]
  else if fl.padPos then [' '.toUInt8]
  else []

/-- The `switch` of `printf_core`: the pieces of a directive and the value of `l`. `%n` stores
`cnt` through its argument, which is left out.
-/
def convert (env : Env F) (cnt : Int) (d : Directive) (arg : Option (Arg F))
    : Except Fault (List (List UInt8) × Int) :=
  -- the flags - and 0 exclude each other
  let fl := if d.fl.left then { d.fl with zero := false } else d.fl
  let hex (fl : Flags) (p : Int) (x : BitVec 64) (upper : Bool) :=
    let pre := if x ≠ 0 ∧ fl.alt then ['0'.toUInt8, if upper then 'X'.toUInt8 else 'x'.toUInt8]
      else []
    putInteger cnt fl d.w p d.xp x pre (fmtX x (if upper then 0 else 32))
  match d.letter, arg with
  | 'n', _ => .ok ([], 0)
  | 'p', some (.p p) =>
    -- the comparison is one of unsigned numbers
    hex { fl with alt := true } (if toSizeT d.p > 2 * 8 then d.p else 2 * 8) p.addr false
  | 'x', some (.i x) => hex fl d.p x false
  | 'X', some (.i x) => hex fl d.p x true
  | 'o', some (.i x) =>
    let a := fmtO x
    let p := if fl.alt ∧ d.p < a.length + 1 then (a.length : Int) + 1 else d.p
    putInteger cnt fl d.w p d.xp x [] a
  | 'd', some (.i x) | 'i', some (.i x) =>
    let y := if x.msb then -x else x
    putInteger cnt fl d.w d.p d.xp y (signText fl x.msb) (fmtU y)
  | 'u', some (.i x) => putInteger cnt fl d.w d.p d.xp x [] (fmtU x)
  | 'c', some (.i x) =>
    putField cnt { fl with zero := false } d.w 1 [] [UInt8.ofBitVec (x.setWidth 8)]
  | 'm', _ => putString cnt fl d.w d.p env.strerror
  | 's', some (.p p) =>
    if p.addr = 0 then putString cnt fl d.w d.p nullText
    else
      match p.target with
      | .bytes b => putString cnt fl d.w d.p b
      | _ => .error .undefined
  | 'C', some (.i x) => putWide fl d.w (-1) [x.setWidth 32]
  | 'S', some (.p p) =>
    match p.target with
    | .wide ws => putWide fl d.w d.p ws
    | _ => .error .undefined
  | t, some (.f x) =>
    if d.xp ∧ d.p < 0 then .error (.errno .eoverflow)
    else
      let (pieces, l) := env.fmtFp x d.w d.p fl t
      if l < 0 then .error (.errno .eoverflow) else .ok (pieces, l)
  | _, _ => .error .undefined

/-- The second pass of `printf_core`, with what was read and written so far: its result, and
where the text went.
-/
def printLoop (env : Env F) (sink : Sink σ)
    : Nat → Int → Int → List Nat → Core F → σ → Except Fault Int × σ
  | 0, _, _, _, _, s => (.error .undefined, s)
  | fuel + 1, cnt, l, fmt, c, s =>
    if l > intMax - cnt then (.error (.errno .eoverflow), s)
    else
      let cnt := cnt + l
      if fmt = [] then (.ok cnt, s)
      else
        let (text, fmt) := readLiteral fmt
        if text.length > intMax - cnt then (.error (.errno .eoverflow), s)
        else
          let s := sink.out (text.map UInt8.ofNat) s
          if text ≠ [] then printLoop env sink fuel cnt text.length fmt c s
          else
            match readDirective true (fmt.drop 1) c with
            | .error e => (.error e, s)
            | .ok (d, fmt, c) =>
              match c.fetch d with
              | .error e => (.error e, s)
              | .ok (arg, c) =>
                -- no new directive is processed once in error state
                if sink.err s then (.ok (-1), s)
                else
                  match convert env cnt d arg with
                  | .error e => (.error e, s)
                  | .ok (pieces, l) =>
                    printLoop env sink fuel cnt l fmt c
                      (pieces.foldl (fun s piece => sink.out piece s) s)

/-- A result of the second pass as an `int`, `none` for undefined behaviour. -/
def asResult : Except Fault Int → Option Int
  | .ok n => some n
  | .error (.errno _) => some (-1)
  | .error .undefined => none

def units (fmt : List UInt8) : List Nat := fmt.map UInt8.toNat

def vfprintf (env : Env F) (write : Option (WriteFn W)) (fmt : List UInt8) (ap : List (Va F))
    (s : Streambuf W)
    : Option (Int × Streambuf W) :=
  match scanFormat (units fmt) ap with
  | .error .undefined => none
  | .error (.errno _) => some (-1, s)
  | .ok c =>
    let olderr := s.err
    let (failed, s) := Streambuf.towrite { s with err := false }
    let (ret, s) :=
      if failed = 0 then
        printLoop env (streamSink write) (fmt.length + 1) 0 0 (units fmt)
          { c with l10n := false } s
      else (.ok (-1), s)
    (asResult ret).map (fun ret =>
      (if s.err then -1 else ret, { s with err := s.err || olderr }))

/-- `__vsnprintf`: its result and the memory with the string at `s`. -/
def vsnprintf (env : Env F) (memory : Memory UInt8) (s n : Nat) (fmt : List UInt8)
    (ap : List (Va F))
    : Option (Int × Memory UInt8) :=
  if (n : Int) ≤ intMax then
    let f := Streambuf.finit false false false false memory () s (if n ≠ 0 then n - 1 else 0)
    (vfprintf env none fmt ap f).map (fun (ret, f) =>
      (ret, if ret % 2 ^ 32 < n then f.memory.store (s + ret.toNat) [0] else f.memory))
  else some (-1, memory)

/-- `__vasprintf`: its result, and the memory with the string it has allocated, if `malloc`
gives it.
-/
def vasprintf (env : Env F) (malloc : Nat → Option Nat) (memory : Memory UInt8)
    (fmt : List UInt8) (ap : List (Va F))
    : Option (Int × Option (Nat × Memory UInt8)) := do
  let (l, _) ← vsnprintf env memory 0 0 fmt ap
  if l < 0 then pure (-1, none)
  else
    match malloc (l.toNat + 1) with
    | none => pure (-1, none)
    | some s =>
      let (ret, memory) ← vsnprintf env memory s (l.toNat + 1) fmt ap
      pure (ret, some (s, memory))

inductive ChkOutcome where
  | chkFail
  | returns (ret : Int) (memory : Memory UInt8)

/-- `__vsprintf_internal`, whose test of `maxlen` is one of an unsigned number. -/
def vsprintfInternal (env : Env F) (memory : Memory UInt8) (s maxlen : Nat) (fmt : List UInt8)
    (ap : List (Va F))
    : Option (Int × Memory UInt8) :=
  vsnprintf env memory s maxlen fmt ap

/-- `___vsprintf_chk`, and `___sprintf_chk` with its arguments in a list. The flag of the
caller only reaches `mode`, which `__vsprintf_internal` does not look at.
-/
def vsprintfChk (env : Env F) (memory : Memory UInt8) (s slen : Nat) (fmt : List UInt8)
    (ap : List (Va F))
    : Option ChkOutcome :=
  if slen = 0 then some .chkFail
  else
    (vsprintfInternal env memory s slen fmt ap).map (fun (ret, memory) => .returns ret memory)

end Nglibc.Stdio

/-! Formatted output into a string: `__vsnprintf` and `___vsprintf_chk` store what `printf_core`
writes, as far as there is room for it.
-/

namespace Nglibc.Stdio

open Memory

variable {F σ τ : Type} {env : Env F}

def textSink : Sink (List UInt8) where
  out bytes text := text ++ bytes
  err _ := false

@[simp] theorem textSink_out (bytes text : List UInt8) : textSink.out bytes text = text ++ bytes := rfl

@[simp] theorem textSink_err (text : List UInt8) : textSink.err text = false := rfl

theorem foldl_textSink (pieces : List (List UInt8)) (text : List UInt8)
    : pieces.foldl (fun text piece => textSink.out piece text) text = text ++ pieces.flatten := by
  induction pieces generalizing text with
  | nil => simp
  | cons piece pieces ih =>
    rw [List.foldl_cons, ih, List.flatten_cons, textSink_out, List.append_assoc]

/-- What `printf_core` returns and writes where everything is taken, `none` for undefined
behaviour.
-/
def formatted (env : Env F) (fmt : List UInt8) (ap : List (Va F)) : Option (Int × List UInt8) :=
  match scanFormat (units fmt) ap with
  | .error .undefined => none
  | .error (.errno _) => some (-1, [])
  | .ok c =>
    let (ret, text) :=
      printLoop env textSink (fmt.length + 1) 0 0 (units fmt) { c with l10n := false } []
    (asResult ret).map fun ret => (ret, text)

/-- Two sinks whose states are related and agree about errors get the same pieces. -/
theorem printLoop_related (env : Env F) {sink : Sink σ} {sink' : Sink τ} {Related : σ → τ → Prop}
    (out : ∀ s t bytes, Related s t → Related (sink.out bytes s) (sink'.out bytes t))
    (err : ∀ s t, Related s t → sink.err s = sink'.err t) (fuel : Nat) (cnt l : Int)
    (fmt : List Nat) (core : Core F) {s : σ} {t : τ} (related : Related s t)
    : (printLoop env sink fuel cnt l fmt core s).1 = (printLoop env sink' fuel cnt l fmt core t).1
      ∧ Related (printLoop env sink fuel cnt l fmt core s).2
          (printLoop env sink' fuel cnt l fmt core t).2 := by
  have all : ∀ (pieces : List (List UInt8)) (s : σ) (t : τ), Related s t →
      Related (pieces.foldl (fun s piece => sink.out piece s) s)
        (pieces.foldl (fun t piece => sink'.out piece t) t) := by
    intro pieces
    induction pieces with
    | nil => exact fun s t related => related
    | cons piece pieces ih => exact fun s t related => ih _ _ (out s t piece related)
  induction fuel generalizing cnt l fmt core s t with
  | zero => exact ⟨rfl, related⟩
  | succ fuel ih =>
    simp only [printLoop]
    split
    · exact ⟨rfl, related⟩
    · split
      · exact ⟨rfl, related⟩
      · split
        · exact ⟨rfl, related⟩
        · have literal := out s t ((readLiteral fmt).1.map UInt8.ofNat) related
          split
          · exact ih _ _ _ _ literal
          · cases readDirective true ((readLiteral fmt).2.drop 1) core with
            | error e => exact ⟨rfl, literal⟩
            | ok read =>
              obtain ⟨d, rest, core⟩ := read
              dsimp only
              cases core.fetch d with
              | error e => exact ⟨rfl, literal⟩
              | ok fetched =>
                obtain ⟨arg, core⟩ := fetched
                dsimp only
                rw [err _ _ literal]
                split
                · exact ⟨rfl, literal⟩
                · cases convert env (cnt + l) d arg with
                  | error e => exact ⟨rfl, literal⟩
                  | ok converted => exact ih _ _ _ _ (all _ _ _ literal)

/-- A stream on `size` bytes at `s` to which `text` was written. -/
structure Storing (memory : Memory UInt8) (s size : Nat) (f : Streambuf Unit) (text : List UInt8)
    : Prop where
  curWr : f.curWr = true
  err : f.err = false
  pptr : f.pptr = s + (text.take size).length
  epptr : f.epptr = s + size
  memory : f.memory = memory.store s (text.take size)

variable {memory : Memory UInt8} {s size : Nat} {f : Streambuf Unit} {text : List UInt8}

theorem Storing.out (storing : Storing memory s size f text) (bytes : List UInt8)
    : Storing memory s size ((streamSink none).out bytes f) (textSink.out bytes text) := by
  have open_ : f.towrite = (0, f) := if_pos storing.curWr
  have run : (streamSink none).out bytes f = f.append (bytes.take (f.epptr - f.pptr)) := by
    simp only [streamSink, storing.err, fwritex, open_]
    rfl
  have room : f.epptr - f.pptr = size - text.length := by
    rw [storing.epptr, storing.pptr, List.length_take]
    omega
  have whole : (text ++ bytes).take size
      = text.take size ++ bytes.take (size - text.length) := List.take_append
  rw [run, room]
  refine ⟨storing.curWr, storing.err, ?_, storing.epptr, ?_⟩
  · show f.pptr + _ = _
    rw [storing.pptr, textSink, whole, List.length_append, Nat.add_assoc]
  · show f.memory.store f.pptr _ = _
    rw [storing.memory, storing.pptr, store_store_append, textSink, whole]

/-- The stream of `__vsnprintf` once it is open for writing. -/
def openString (memory : Memory UInt8) (s size : Nat) : Streambuf Unit := Streambuf.fsetwrite
    { Streambuf.finit false false false false memory () s size with curWr := true }

theorem openString_storing (memory : Memory UInt8) (s size : Nat)
    : Storing memory s size (openString memory s size) [] := by
  refine ⟨rfl, rfl, ?_, rfl, ?_⟩
  · rw [List.take_nil]
    rfl
  · rw [List.take_nil, store_nil]
    rfl

theorem towrite_finit (memory : Memory UInt8) (s size : Nat)
    : Streambuf.towrite
        { Streambuf.finit false false false false memory () s size with err := false }
      = (0, openString memory s size) :=
  rfl

/-- `__vfprintf` on such a stream. -/
theorem vfprintf_storing (env : Env F) (fmt : List UInt8) (ap : List (Va F))
    (memory : Memory UInt8) (s size : Nat)
    : (vfprintf env none fmt ap (.finit false false false false memory () s size)).map
        (fun (ret, f) => (ret, f.memory))
      = (formatted env fmt ap).map fun (ret, text) =>
          (ret, memory.store s (text.take size)) := by
  unfold formatted vfprintf
  cases scanFormat (units fmt) ap with
  | error e =>
    cases e with
    | undefined => rfl
    | errno e =>
      simp only [Option.map_some, List.take_nil, store_nil]
      rfl
  | ok core =>
    obtain ⟨same, storing⟩ := printLoop_related env
      (fun f text bytes (storing : Storing memory s size f text) => storing.out bytes)
      (fun f text storing => storing.err) (fmt.length + 1) 0 0 (units fmt)
      { core with l10n := false } (openString_storing memory s size)
    simp only [towrite_finit, if_true, same]
    cases asResult (printLoop env textSink (fmt.length + 1) 0 0 (units fmt)
      { core with l10n := false } []).1 with
    | none => rfl
    | some ret =>
      simp only [Option.map_some, storing.err, storing.memory]
      rfl

/-- `__vsnprintf` stores as much of the text as there is room for, and a terminator where the text
ends if that is inside of the array.
-/
theorem vsnprintf_eq (env : Env F) (fmt : List UInt8) (ap : List (Va F)) (memory : Memory UInt8)
    (s : Nat) {n : Nat} (small : (n : Int) ≤ intMax)
    : vsnprintf env memory s n fmt ap = (formatted env fmt ap).map fun (ret, text) =>
          (ret,
            if ret % 2 ^ 32 < n then
              (memory.store s (text.take (n - 1))).store (s + ret.toNat) [0]
            else memory.store s (text.take (n - 1))) := by
  have size : (if n ≠ 0 then n - 1 else 0) = n - 1 := by
    split
    · rfl
    · omega
  have run := vfprintf_storing env fmt ap memory s (n - 1)
  rw [vsnprintf, if_pos small, size]
  dsimp only
  cases result : formatted env fmt ap with
  | none =>
    rw [result, Option.map_none, Option.map_eq_none_iff] at run
    rw [run]
    rfl
  | some result =>
    rw [result] at run
    obtain ⟨⟨ret, f⟩, called, same⟩ := Option.map_eq_some_iff.mp run
    rw [called]
    simp only [Prod.mk.injEq] at same
    obtain ⟨rfl, stored⟩ := same
    simp only [Option.map_some, stored]

def heyho : List UInt8 := ['h', 'e', 'y', 'h', 'o'].map Char.toUInt8

end Nglibc.Stdio
