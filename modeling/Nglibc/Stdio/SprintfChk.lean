import Nglibc.Stdio.FormatConvert
import Nglibc.Stdio.Positional

/-! The checked functions `___vsprintf_chk` and `___sprintf_chk` only compare the length of the
object with 0, and leave the rest to `__vsnprintf`.
-/

namespace Nglibc.Stdio

open Memory List

variable {F : Type} {env : Env F} {cnt : Int} {pieces : List (List UInt8)} {l : Int}

/-- `fmt_fp` returns the number of bytes that it writes. -/
def Env.Counts (env : Env F) : Prop :=
  ∀ (x : F) (w p : Int) (fl : Flags) (t : Char), (fl.left = true → fl.zero = false) →
    0 ≤ (env.fmtFp x w p fl t).2 →
    ((env.fmtFp x w p fl t).1.flatten.length : Int) = (env.fmtFp x w p fl t).2

theorem putField_counts {fl : Flags} (exclusive : fl.left = true → fl.zero = false) {w p : Int}
    {pre a : List UInt8} (put : putField cnt fl w p pre a = .ok (pieces, l))
    : (pieces.flatten.length : Int) = l := by
  unfold putField at put
  dsimp only at put
  generalize digits : (if p < a.length then (a.length : Int) else p) = d at put
  split at put
  · cases put
  · generalize width : (if w < pre.length + d then pre.length + d else w) = w' at put
    split at put
    · cases put
    · cases put
      simp only [flatten_append, flatten_pad, flatten_singleton, length_append,
        Flags.none]
      rcases left : fl.left with _ | _
      · cases fl.zero <;> simp <;> omega
      · simp [exclusive left]
        omega

private theorem putInteger_counts {fl : Flags} (exclusive : fl.left = true → fl.zero = false) {w p : Int}
    {xp : Bool} {x : BitVec 64} {pre a : List UInt8}
    (put : putInteger cnt fl w p xp x pre a = .ok (pieces, l))
    : (pieces.flatten.length : Int) = l := by
  unfold putInteger at put
  split at put
  · cases put
  · have exclusive' : (if xp then { fl with zero := false } else fl).left = true →
        (if xp then { fl with zero := false } else fl).zero = false := by
      split
      · exact fun _ => rfl
      · exact exclusive
    dsimp only at put
    split at put
    · exact putField_counts exclusive' put
    · exact putField_counts exclusive' put

theorem putString_counts {fl : Flags} {w p : Int} {bytes : List UInt8}
    (put : putString cnt fl w p bytes = .ok (pieces, l))
    : (pieces.flatten.length : Int) = l := by
  unfold putString at put
  dsimp only at put
  generalize strnlen bytes (if p < 0 then intMax.toNat else p.toNat) = n at put
  split at put
  · cases put
  · exact putField_counts (fun _ => rfl) put

/-- The characters of a wide conversion as they are written without padding. -/
def Directive.wideBytes (d : Directive) : Option (Arg F) → Option (List (List UInt8))
  | some (.i x) => if d.letter = 'C' then (Stdio.wideBytes (toSizeT (-1)) [x.setWidth 32]).toOption
      else none
  | some (.p p) =>
    match p.target with
    | .wide ws => if d.letter = 'S' then (Stdio.wideBytes (toSizeT d.p) ws).toOption else none
    | _ => none
  | _ => none

/-- Whether a conversion is a wide one that is to be padded and has the flag `0`. -/
def losesPadding (conversion : Directive × Option (Arg F)) : Bool :=
  conversion.1.flags.zero && match conversion.1.wideBytes conversion.2 with
    | some pieces => decide ((pieces.flatten.length : Int) < conversion.1.w)
    | none => false

private theorem putWide_counts {fl : Flags} (exclusive : fl.left = true → fl.zero = false) {w p : Int}
    {ws : List (BitVec 32)} (put : putWide fl w p ws = .ok (pieces, l))
    : ∃ bytes, wideBytes (toSizeT p) ws = .ok bytes ∧ l = max w bytes.flatten.length
      ∧ (pieces.flatten.length : Int) = if fl.zero then (bytes.flatten.length : Int) else l := by
  unfold putWide at put
  cases found : wideBytes (toSizeT p) ws with
  | error e =>
    rw [found] at put
    cases put
  | ok bytes =>
    rw [found] at put
    simp only [bind, Except.bind] at put
    split at put
    · cases put
    · cases put
      refine ⟨bytes, rfl, rfl, ?_⟩
      simp only [flatten_append, flatten_pad, length_append]
      rcases left : fl.left with _ | _
      · cases fl.zero <;> simp
        omega
      · simp [exclusive left]
        omega

theorem Directive.flags_exclusive (d : Directive) : d.flags.left = true → d.flags.zero = false := by
  unfold Directive.flags
  split
  · exact fun _ => rfl
  · exact fun left => absurd left ‹_›

variable {d : Directive} {arg : Option (Arg F)}

theorem Directive.wideBytes_narrow (notC : d.letter ≠ 'C') (notS : d.letter ≠ 'S') (arg : Option (Arg F))
    : d.wideBytes arg = none := by
  unfold Directive.wideBytes
  split
  · rw [if_neg notC]
  · split
    · rw [if_neg notS]
    · rfl
  · rfl

theorem losesPadding_narrow (narrow : d.wideBytes arg = none)
    (counted : (pieces.flatten.length : Int) = l)
    : (pieces.flatten.length : Int) ≤ l
      ∧ ((pieces.flatten.length : Int) = l ↔ losesPadding (d, arg) = false) := by
  refine ⟨counted.le, iff_of_true counted ?_⟩
  unfold losesPadding
  rw [narrow]
  exact Bool.and_false _

theorem losesPadding_wide {bytes : List (List UInt8)} (wide : d.wideBytes arg = some bytes)
    (whole : l = max d.w bytes.flatten.length)
    (length : (pieces.flatten.length : Int) = if d.flags.zero then (bytes.flatten.length : Int) else l)
    : (pieces.flatten.length : Int) ≤ l
      ∧ ((pieces.flatten.length : Int) = l ↔ losesPadding (d, arg) = false) := by
  unfold losesPadding
  rw [wide, length]
  cases d.flags.zero with
  | false => simp
  | true =>
    simp only [if_true, Bool.true_and, decide_eq_false_iff_not, not_lt]
    omega

/-- A conversion counts what it writes, and the padding that it loses. -/
theorem convert_counts (counts : env.Counts) (converted : convert env cnt d arg = .ok (pieces, l))
    : (pieces.flatten.length : Int) ≤ l
      ∧ ((pieces.flatten.length : Int) = l ↔ losesPadding (d, arg) = false) := by
  have exclusive := d.flags_exclusive
  have flags : (if d.fl.left then { d.fl with zero := false } else d.fl) = d.flags := rfl
  have narrow : ∀ (t : Char) (arg : Option (Arg F)), d.letter = t → t ≠ 'C' → t ≠ 'S' →
      d.wideBytes arg = none := by
    intro t arg letter notC notS
    subst letter
    exact Directive.wideBytes_narrow notC notS arg
  unfold convert at converted
  simp only [flags] at converted
  split at converted
  case h_1 letter =>
    cases converted
    exact losesPadding_narrow (narrow _ _ letter (by decide) (by decide)) rfl
  case h_2 letter =>
    refine losesPadding_narrow (narrow _ _ letter (by decide) (by decide)) ?_
    refine putInteger_counts ?_ converted
    exact exclusive
  case h_9 letter =>
    exact losesPadding_narrow (narrow _ _ letter (by decide) (by decide))
      (putField_counts (fun _ => rfl) converted)
  case h_10 letter =>
    exact losesPadding_narrow (narrow _ _ letter (by decide) (by decide))
      (putString_counts converted)
  case h_11 letter =>
    refine losesPadding_narrow (narrow _ _ letter (by decide) (by decide)) ?_
    split at converted
    · exact putString_counts converted
    · split at converted
      · exact putString_counts converted
      · cases converted
  case h_12 x letter =>
    obtain ⟨bytes, found, whole, length⟩ := putWide_counts exclusive converted
    refine losesPadding_wide ?_ whole length
    simp only [Directive.wideBytes]
    rw [if_pos letter, found]
    rfl
  case h_13 p letter =>
    split at converted
    case h_1 ws target =>
      obtain ⟨bytes, found, whole, length⟩ := putWide_counts exclusive converted
      refine losesPadding_wide ?_ whole length
      simp only [Directive.wideBytes, target]
      rw [if_pos letter, found]
      rfl
    case h_2 => cases converted
  case h_14 x _ _ =>
    refine losesPadding_narrow rfl ?_
    split at converted
    · cases converted
    · split at converted
      · cases converted
      · cases converted
        exact counts x _ _ _ _ exclusive (not_lt.mp ‹_›)
  case h_15 => cases converted
  all_goals
    rename_i letter
    exact losesPadding_narrow (narrow _ _ letter (by decide) (by decide))
      (putInteger_counts exclusive converted)

/-- The conversions of a format with their arguments, as the second pass reads them. -/
def readConversions : Nat → List Nat → Core F → List (Directive × Option (Arg F))
  | 0, _, _ => []
  | fuel + 1, fmt, c =>
    if fmt = [] then []
    else
      let (text, fmt) := readLiteral fmt
      if text ≠ [] then readConversions fuel fmt c
      else
        match readDirective true (fmt.drop 1) c with
        | .error _ => []
        | .ok (d, fmt, c) =>
          match c.fetch d with
          | .error _ => []
          | .ok (arg, c) => (d, arg) :: readConversions fuel fmt c

def conversions (fmt : List UInt8) (ap : List (Va F)) : List (Directive × Option (Arg F)) :=
  match scanFormat (units fmt) ap with
  | .error _ => []
  | .ok c => readConversions (fmt.length + 1) (units fmt) { c with l10n := false }

/-- The second pass returns the length of what it writes, and of the padding that it loses. -/
theorem printLoop_counts (counts : env.Counts) (fuel : Nat) (fmt : List Nat) (core : Core F)
    (cnt l : Int) (text : List UInt8) {ret : Int} {whole : List UInt8}
    (run : printLoop env textSink fuel cnt l fmt core text = (.ok ret, whole))
    : (whole.length : Int) - text.length ≤ ret - (cnt + l)
      ∧ ((whole.length : Int) - text.length = ret - (cnt + l)
        ↔ (readConversions fuel fmt core).any losesPadding = false) := by
  induction fuel generalizing fmt core cnt l text with
  | zero => cases run
  | succ fuel ih =>
    simp only [printLoop] at run
    simp only [readConversions]
    split at run
    · cases run
    · split at run
      case isTrue ends =>
        cases run
        rw [if_pos ends]
        simp
      case isFalse more =>
        rw [if_neg more]
        split at run
        · cases run
        · split at run
          case isTrue nonempty =>
            have rest := ih _ _ _ _ _ run
            rw [if_pos nonempty]
            simp only [textSink_out, length_append, length_map] at rest
            refine ⟨by omega, ?_⟩
            rw [← rest.2]
            constructor <;> (intro same; omega)
          case isFalse empty =>
            have silent : (readLiteral fmt).1 = [] := not_not.mp empty
            rw [if_neg empty]
            simp only [silent, map_nil, textSink_out, append_nil, textSink_err] at run
            cases read : readDirective true ((readLiteral fmt).2.drop 1) core with
            | error e =>
              rw [read] at run
              cases run
            | ok result =>
              obtain ⟨d, left, core⟩ := result
              rw [read] at run
              dsimp only at run ⊢
              cases fetched : core.fetch d with
              | error e =>
                rw [fetched] at run
                cases run
              | ok result =>
                obtain ⟨arg, core⟩ := result
                rw [fetched] at run
                simp only [Bool.false_eq_true, if_false] at run
                cases converted : convert env (cnt + l) d arg with
                | error e =>
                  rw [converted] at run
                  cases run
                | ok result =>
                  rw [converted] at run
                  have rest := ih _ _ _ _ _ run
                  have first := convert_counts counts converted
                  rw [← funext fun text => funext fun piece => textSink_out piece text,
                    foldl_textSink, length_append] at rest
                  rw [any_cons, Bool.or_eq_false_iff, ← first.2, ← rest.2]
                  refine ⟨by omega, ?_⟩
                  constructor
                  · intro same
                    exact ⟨by omega, by omega⟩
                  · rintro ⟨same, more⟩
                    omega

/-- What `printf_core` returns is the length of the text, unless padding is lost. -/
theorem formatted_counts (counts : env.Counts) {fmt : List UInt8} {ap : List (Va F)} {ret : Int}
    {text : List UInt8} (run : formatted env fmt ap = some (ret, text)) (success : 0 ≤ ret)
    : (text.length : Int) ≤ ret
      ∧ ((text.length : Int) = ret ↔ (conversions fmt ap).any losesPadding = false) := by
  unfold formatted at run
  unfold conversions
  cases scanned : scanFormat (units fmt) ap with
  | error e =>
    rw [scanned] at run
    cases e with
    | undefined => cases run
    | errno e =>
      cases run
      omega
  | ok core =>
    rw [scanned] at run
    dsimp only at run ⊢
    obtain ⟨ret', printed, same⟩ := Option.map_eq_some_iff.mp run
    obtain ⟨rfl, rfl⟩ := Prod.mk.inj same
    generalize looped : printLoop env textSink (fmt.length + 1) 0 0 (units fmt)
      { core with l10n := false } [] = result at printed
    obtain ⟨outcome, whole⟩ := result
    cases outcome with
    | error e =>
      cases e with
      | undefined => cases printed
      | errno e =>
        cases printed
        omega
    | ok n =>
      cases printed
      simpa using printLoop_counts counts _ _ _ _ _ _ looped

/-- A call on `slen` bytes at `s` ends with the whole text there, or stops because the text does
not fit.
-/
def ChkOutcome.Fills (memory : Memory UInt8) (s slen : Nat) (text : List UInt8) : ChkOutcome → Prop
  | .chkFail => slen ≤ text.length
  | .returns ret after =>
    text.length < slen ∧ ret = text.length ∧ after.slice s (text.length + 1) = text ++ [0]
    ∧ ∀ a, a < s ∨ s + slen ≤ a → after a = memory a

variable {fmt : List UInt8} {ap : List (Va F)} {memory : Memory UInt8} {s slen : Nat} {ret : Int}
  {text : List UInt8}

/-- An object of more than `INT_MAX` bytes is refused, and another one is never too small. -/
theorem vsprintfChk_eq (positive : 1 ≤ slen) (run : formatted env fmt ap = some (ret, text))
    : vsprintfChk env memory s slen fmt ap = some (if (slen : Int) ≤ intMax then
          .returns ret (if ret % 2 ^ 32 < slen then
            (memory.store s (text.take (slen - 1))).store (s + ret.toNat) [0]
            else memory.store s (text.take (slen - 1)))
        else .returns (-1) memory) := by
  rw [vsprintfChk, if_neg (by omega), vsprintfInternal]
  by_cases small : (slen : Int) ≤ intMax
  · rw [vsnprintf_eq env fmt ap memory s small, run, if_pos small]
    rfl
  · rw [vsnprintf, if_neg small, if_neg small]
    rfl

theorem fills_store (fits : text.length < slen)
    : ChkOutcome.Fills memory s slen text
        (.returns text.length ((memory.store s (text.take (slen - 1))).store (s + text.length) [0])) := by
  rw [take_of_length_le (by omega), store_store_append]
  refine ⟨fits, rfl, ?_, ?_⟩
  · have whole : (text ++ [(0 : UInt8)]).length = text.length + 1 := length_append
    rw [← whole, slice_store_self]
  · intro a outside
    apply store_outside
    rw [length_append, length_singleton]
    omega

/-- The checked functions do what they are for when the text fits, the object is known to have at
most `INT_MAX` bytes, and no padding is lost.
-/
theorem vsprintfChk_fills_iff (counts : env.Counts) (positive : 1 ≤ slen)
    (run : formatted env fmt ap = some (ret, text)) (success : 0 ≤ ret) (memory : Memory UInt8) (s : Nat)
    : (∃ outcome, vsprintfChk env memory s slen fmt ap = some outcome
        ∧ outcome.Fills memory s slen text)
      ↔ text.length < slen ∧ (slen : Int) ≤ intMax
        ∧ (conversions fmt ap).any losesPadding = false := by
  obtain ⟨-, counted⟩ := formatted_counts counts run success
  rw [vsprintfChk_eq positive run, ← counted]
  constructor
  · rintro ⟨outcome, ends, fills⟩
    cases Option.some.inj ends
    by_cases small : (slen : Int) ≤ intMax
    · rw [if_pos small] at fills
      exact ⟨fills.1, small, fills.2.1.symm⟩
    · rw [if_neg small] at fills
      have length : (-1 : Int) = text.length := fills.2.1
      omega
  · rintro ⟨fits, small, rfl⟩
    refine ⟨_, rfl, ?_⟩
    rw [if_pos small, if_pos]
    · exact fills_store fits
    · omega

def zeroed : Memory UInt8 := fun _ => 0

theorem formatted_heyho
    : formatted plainEnv ['%'.toUInt8, 's'.toUInt8] [.ptr ⟨8, .bytes heyho, by decide⟩]
      = some (5, heyho) := by
  decide +kernel

/-- The string `heyho` in eight bytes. -/
theorem vsprintfChk_fills_eight
    : ∃ outcome, vsprintfChk plainEnv zeroed 100 8 ['%'.toUInt8, 's'.toUInt8]
        [.ptr ⟨8, .bytes heyho, by decide⟩] = some outcome
      ∧ outcome.Fills zeroed 100 8 heyho :=
  (vsprintfChk_fills_iff (fun _ _ _ _ _ _ _ => rfl) (by decide) formatted_heyho (by decide)
    _ _).mpr ⟨by decide, by decide, by decide +kernel⟩

/-- In four bytes it is cut off, with 5 as the result, and an object of unknown size is refused. -/
theorem vsprintfChk_cuts
    : (∃ after, vsprintfChk plainEnv zeroed 100 4 ['%'.toUInt8, 's'.toUInt8]
          [.ptr ⟨8, .bytes heyho, by decide⟩] = some (.returns 5 after)
        ∧ after.slice 100 6 = heyho.take 3 ++ [0, 0, 0]
        ∧ ¬ (ChkOutcome.returns 5 after).Fills zeroed 100 4 heyho)
      ∧ vsprintfChk plainEnv zeroed 100 (2 ^ 64 - 1) ['%'.toUInt8, 's'.toUInt8]
          [.ptr ⟨8, .bytes heyho, by decide⟩] = some (.returns (-1) zeroed)
        ∧ ¬ (ChkOutcome.returns (-1) zeroed).Fills zeroed 100 (2 ^ 64 - 1) heyho := by
  refine ⟨⟨zeroed.store 100 (heyho.take 3), ?_, by decide, ?_⟩, ?_, ?_⟩
  · rw [vsprintfChk_eq (by decide) formatted_heyho, if_pos (by decide), if_neg (by decide)]
  · rintro ⟨fits, -⟩
    exact absurd fits (by decide)
  · rw [vsprintfChk_eq (by decide) formatted_heyho, if_neg (by decide)]
  · rintro ⟨-, length, -⟩
    exact absurd length (by decide)

end Nglibc.Stdio
