import Nglibc.Stdio.PutArea
import Nglibc.Stdio.Swprintf

/-! The three encoders of wide characters, `wc2mb`, `wcsr2mbs` and `__fputwc_unlocked`, yield the bytes of
UTF-8.
-/

namespace Nglibc.Stdio

open Utf8

/-- The result of `wcsr2mbs`, the bytes it stores, and the rest of the wide string at `*ws`, `none` for
a null pointer.
-/
structure Wcsr where
  ret : Nat
  bytes : List UInt8
  ws : Option (List (BitVec 32))
  deriving DecidableEq

def Wcsr.behind (bytes : List UInt8) (r : Wcsr) : Wcsr := { r with bytes := bytes ++ r.bytes }

/-- The bytes of a character from 0x80 on, and `sh`. -/
def wcsr2mbsLong (wc : BitVec 32) : Option (List UInt8 × Nat) :=
  let last (sh : Nat) : List UInt8 :=
    [toByte (wc >>> 6 &&& 0x3F#32 ||| 0x80#32 ||| (if sh = 8 then 1#32 else 0#32) <<< 6),
      toByte (wc &&& 0x3F#32 ||| 0x80#32)]
  if wc < 0x800#32 then some (last 8, 8)
  else if wc < 0xD800#32 ∨ wc - 0xE000#32 < 0x2000#32 then
    some (toByte (wc >>> 12 &&& 0x3F#32 ||| (26#32 - 12#32) <<< 4) :: last 12, 12)
  else if wc - 0x10000#32 < 0x100000#32 then
    some (toByte (wc >>> 18 ||| 0xF0#32)
      :: toByte (wc >>> 12 &&& 0x3F#32 ||| (26#32 - 18#32) <<< 4) :: last 18, 18)
  else none

/-- The loop of `wcsr2mbs` on the wide characters before the terminator, with room for `n` bytes of
`total`. A round uses up at least one of them.
-/
def wcsr2mbsLoop (total : Nat) : Nat → List (BitVec 32) → Nat → Wcsr
  | 0, ws, n => ⟨total - n, [], some ws⟩
  | fuel + 1, ws, n =>
    if n ≥ 4 then
      let wc := ws.headD 0
      if wc - 1 < 0x7F#32 then (wcsr2mbsLoop total fuel ws.tail (n - 1)).behind [toByte wc]
      else if wc = 0 then ⟨total - n, [0], none⟩
      else
        match wcsr2mbsLong wc with
        | none => ⟨ilseqValue, [], some ws⟩
        | some (bytes, sh) => (wcsr2mbsLoop total fuel ws.tail (n - sh / 4)).behind bytes
    else ⟨total - n, [], some ws⟩

private theorem wcsr2mbsLong_wc2mb {wc : BitVec 32} {len : Nat} {bytes : List UInt8} (several : 0x80#32 ≤ wc)
    (encodes : wc2mb wc = (len, bytes)) (valid : len ≠ ilseqValue)
    : ∃ sh, wcsr2mbsLong wc = some (bytes, sh) ∧ sh / 4 = len := by
  rw [wc2mb, if_pos several] at encodes
  rw [wcsr2mbsLong]
  split at encodes
  next two =>
    cases encodes
    exact ⟨8, if_pos two, rfl⟩
  next more =>
    rw [if_neg more]
    split at encodes
    next three =>
      cases encodes
      refine ⟨12, ?_, rfl⟩
      rw [if_pos three]
      simp
    next large =>
      rw [if_neg large]
      split at encodes
      next four =>
        cases encodes
        refine ⟨18, ?_, rfl⟩
        rw [if_pos four]
        simp
      next =>
        cases encodes
        exact absurd rfl valid

/-- `wcsr2mbs` encodes the characters before the terminator one by one. -/
theorem wcsr2mbsLoop_encode (c : Char) {total fuel n : Nat} (ws : List (BitVec 32)) (room : 4 ≤ n)
    : wcsr2mbsLoop total (fuel + 1) (c.val.toBitVec :: ws) n
      = if c.val.toBitVec = 0 then ⟨total - n, [0], none⟩
        else
          (wcsr2mbsLoop total fuel ws (n - (String.utf8EncodeChar c).length)).behind
            (String.utf8EncodeChar c) := by
  have encodes := wc2mb_encode c
  rw [wcsr2mbsLoop, if_pos room]
  simp only [List.headD_cons, List.tail_cons]
  by_cases several : 0x80#32 ≤ c.val.toBitVec
  · have short : ¬ c.val.toBitVec - 1 < 0x7F#32 := by
      bv_omega
    have nonzero : c.val.toBitVec ≠ 0 := by
      bv_omega
    have valid : (String.utf8EncodeChar c).length ≠ ilseqValue := by
      have four := String.length_utf8EncodeChar c
      have := c.utf8Size_le_four
      rw [ilseqValue]
      omega
    obtain ⟨sh, long, len⟩ := wcsr2mbsLong_wc2mb several encodes valid
    simp only [short, nonzero, if_false, long, len]
  · rw [wc2mb, if_neg several] at encodes
    obtain ⟨len, bytes⟩ := Prod.mk.inj encodes
    rw [← len, ← bytes]
    by_cases zero : c.val.toBitVec = 0
    · have low : ¬ (0 : BitVec 32) - 1 < 0x7F#32 := by decide
      simp only [zero, low, if_false, if_true]
    · have short : c.val.toBitVec - 1 < 0x7F#32 := by
        bv_omega
      simp only [zero, short, if_false, if_true]

theorem Fails.setErr {writev : Nat → Option Nat} {bytes : List UInt8} {own : Nat}
    {s s' : Streambuf Descriptor} (fails : Fails writev bytes own s s')
    : Fails writev bytes own s { s' with err := true } :=
  ⟨fails.failed, fails.sent, fails.dropped, rfl⟩

/-- `__fputwc_unlocked` sends the bytes of a character behind what is pending, or a `writev` call fails. -/
theorem fputwcUnlocked_pushes (writev : Nat → Option Nat) {s : Streambuf Descriptor}
    (writing : Writing s) (c : Char)
    : ∃ r s', fputwcUnlocked (stdioWrite writev) c.val.toBitVec s = (r, s')
      ∧ (r = c.val.toBitVec ∧ Accepts writev (String.utf8EncodeChar c) s s'
        ∨ ∃ own, Fails writev (String.utf8EncodeChar c) own s s') := by
  by_cases several : 0x80 ≤ c.val.toNat
  · obtain ⟨mbc, word, bytes⟩ := fputwcWord_encode several
    have wide : ¬ c.val.toBitVec < 0x80#32 := Nat.not_lt.mpr several
    have small : (String.utf8EncodeChar c).length < 2 ^ 64 := by
      have := c.utf8Size_le_four
      rw [String.length_utf8EncodeChar]
      omega
    obtain ⟨k, s', run, -, outcome⟩ := @fwritex_pushes writev _ _ writing small
    simp only [fputwcUnlocked, if_neg wide, word, bytes, run]
    rcases outcome with ⟨all, accepts⟩ | ⟨less, fails⟩
    · exact ⟨_, s', if_pos all, .inl ⟨rfl, accepts⟩⟩
    · exact ⟨_, _, if_neg (Nat.ne_of_lt less), .inr ⟨k, fails.setErr⟩⟩
  · have ascii : c.val.toNat < 0x80 := Nat.lt_of_not_le several
    have narrow : c.val.toBitVec < 0x80#32 := ascii
    have byte : (UInt8.ofNat c.val.toNat).toNat = c.val.toNat := toNat_ofNat (Nat.lt_trans ascii (by decide))
    obtain ⟨r, s', run, -, outcome⟩ := overflowx_pushes (b := UInt8.ofNat c.val.toNat) writev writing
      (.inl (byte.trans_lt ascii))
    have value : (c.val.toBitVec.toNat : Int) = (UInt8.ofNat c.val.toNat).toNat := by
      rw [byte]
      rfl
    rw [← utf8EncodeChar_one ascii] at outcome
    simp only [fputwcUnlocked, if_pos narrow, value, run]
    rcases outcome with ⟨all, accepts⟩ | ⟨own, fails⟩
    · have sent : r ≠ eofValue := by
        rw [eofValue]
        omega
      exact ⟨_, s', if_pos sent, .inl ⟨rfl, accepts⟩⟩
    · by_cases sent : r ≠ eofValue
      · exact ⟨_, s', if_pos sent, .inr ⟨own, fails⟩⟩
      · exact ⟨_, _, if_neg sent, .inr ⟨own, fails.setErr⟩⟩

end Nglibc.Stdio
