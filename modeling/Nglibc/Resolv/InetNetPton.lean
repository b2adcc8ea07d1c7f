import Nglibc.Lib.CheckedInt
import Nglibc.Resolv.InetPton
import Nglibc.Resolv.NsName

/-! `inet_net_pton_ipv4` of `resolv/inet_net_pton.c`. Texts are the bytes before the null terminator.

The width behind the slash is summed up in an `int`, of which the model keeps open what a sum that
does not fit is: `int` is `int32` where it is undefined.
-/

namespace Nglibc.Resolv

def slashChar : UInt8 := 47

/-- The variables behind the digits of the address: the text from `ch` on, the bytes that are left of
the array, and those that are written.
-/
structure NetAddress where
  rest : List UInt8
  size : Nat
  out : List UInt8

/-- `if (size-- <= 0) goto emsgsize; *dst++ = (u_char) tmp`. -/
def NetAddress.put (a : NetAddress) (tmp : Nat) : Except Errno NetAddress :=
  if a.size = 0 then .error .emsgsize
  else .ok { a with size := a.size - 1, out := a.out ++ [UInt8.ofNat tmp] }

/-- The loop over the nybbles and what follows it. -/
def hexLoop : List UInt8 → Bool → Nat → Nat → List UInt8 → Except Errno NetAddress
  | [], dirty, tmp, size, out =>
    if dirty then NetAddress.put ⟨[], size, out⟩ (tmp <<< 4) else .ok ⟨[], size, out⟩
  | ch :: src, dirty, tmp, size, out =>
    match hexDigitValue ch with
    | some n =>
      if dirty then
        let tmp := (tmp <<< 4) ||| n
        if size = 0 then .error .emsgsize
        else hexLoop src false tmp (size - 1) (out ++ [UInt8.ofNat tmp])
      else hexLoop src true n size out
    | none =>
      if dirty then NetAddress.put ⟨ch :: src, size, out⟩ (tmp <<< 4)
      else .ok ⟨ch :: src, size, out⟩

/-- Whether `isascii (src[0]) && isdigit (src[0])`. -/
def startsWithDigit : List UInt8 → Bool
  | [] => false
  | ch :: _ => isDigit ch

/-- The sum of the inner loop over the digits of a number. -/
def octetSum (tmp : Nat) (ch : UInt8) : Nat := tmp * 10 + (ch.toNat - '0'.toNat)

/-- The loop over the dotted numbers, from a digit `ch` on. -/
def octetLoop : List UInt8 → Nat → Nat → List UInt8 → Except Errno NetAddress
  | [], _, _, _ => .error .enoent
  | [ch], tmp, size, out =>
    if octetSum tmp ch > 255 then .error .enoent
    else NetAddress.put ⟨[], size, out⟩ (octetSum tmp ch)
  | ch :: stop :: more, tmp, size, out =>
    if octetSum tmp ch > 255 then .error .enoent
    else if isDigit stop then octetLoop (stop :: more) (octetSum tmp ch) size out
    else if size = 0 then .error .emsgsize
    else
      let out := out ++ [UInt8.ofNat (octetSum tmp ch)]
      if stop = slashChar then .ok ⟨stop :: more, size - 1, out⟩
      else if stop ≠ dotChar then .error .enoent
      else if ¬ startsWithDigit more then .error .enoent
      else octetLoop more 0 (size - 1) out

def decimalPart (src : List UInt8) (size : Nat) : Except Errno NetAddress :=
  if startsWithDigit src then octetLoop src 0 size [] else .error .enoent

def addressPart (src : List UInt8) (size : Nat) : Except Errno NetAddress :=
  match src with
  | ch :: x :: digit :: more =>
    if ch.toNat = '0'.toNat ∧ (x.toNat = 'x'.toNat ∨ x.toNat = 'X'.toNat)
        ∧ (hexDigitValue digit).isSome then
      if size = 0 then .error .emsgsize else hexLoop (digit :: more) false 0 size []
    else decimalPart src size
  | _ => decimalPart src size

def bitsLoop (int : Int → Option Int) : Int → List UInt8 → Option (Int × List UInt8)
  | bits, [] => some (bits, [])
  | bits, ch :: src =>
    if isDigit ch then do
      let bits ← int (bits * 10)
      let bits ← int (bits + (ch.toNat - '0'.toNat : Nat))
      bitsLoop int bits src
    else some (bits, ch :: src)

def widthPart (int : Int → Option Int) (a : NetAddress) : Option (Except Errno Int) :=
  match a.rest with
  | [] => some (.ok (-1))
  | ch :: src =>
    if ch = slashChar ∧ startsWithDigit src ∧ a.out ≠ [] then
      match bitsLoop int 0 src with
      | none => none
      | some (bits, rest) =>
        if rest ≠ [] then some (.error .enoent)
        else if bits > 32 then some (.error .emsgsize)
        else some (.ok bits)
    else some (.error .enoent)

def classWidth (out : List UInt8) : Int :=
  let first := (out.headD 0).toNat
  let bits : Int :=
    if first ≥ 240 then 32
    else if first ≥ 224 then 4
    else if first ≥ 192 then 24
    else if first ≥ 128 then 16
    else 8
  if bits ≥ 8 ∧ bits < out.length * 8 then wrap 32 (out.length * 8) else bits

def extendLoop (bits : Int) : Nat → List UInt8 → Except Errno (Int × List UInt8)
  | 0, out => if bits > out.length * 8 then .error .emsgsize else .ok (bits, out)
  | size + 1, out =>
    if bits > out.length * 8 then extendLoop bits size (out ++ [0]) else .ok (bits, out)

/-- `inet_net_pton_ipv4`: the number of bits and the bytes that are written. -/
def inetNetPtonIpv4 (int : Int → Option Int) (src : List UInt8) (size : Nat)
    : Option (Except Errno (Int × List UInt8)) :=
  match addressPart src size with
  | .error e => some (.error e)
  | .ok a =>
    match widthPart int a with
    | none => none
    | some (.error e) => some (.error e)
    | some (.ok bits) =>
      if a.out = [] then some (.error .enoent)
      else some (extendLoop (if bits = -1 then classWidth a.out else bits) a.size a.out)

def returned : Except Errno (Int × List UInt8) → Int
  | .ok (bits, _) => bits
  | .error _ => -1

variable {src digits rest out : List UInt8} {size left : Nat} {a : NetAddress}

theorem NetAddress.put_out {tmp : Nat} {b : NetAddress} (put : a.put tmp = .ok b) : b.out ≠ [] := by
  rw [NetAddress.put] at put
  split at put
  · cases put
  · cases put
    exact List.append_ne_nil_of_right_ne_nil _ (List.cons_ne_nil _ _)

/-- A nybble that is left over, or a byte that was written, makes a nonempty address. -/
theorem hexLoop_out {dirty : Bool} {tmp : Nat} (begun : dirty = true ∨ out ≠ [])
    (parsed : hexLoop src dirty tmp size out = .ok a)
    : a.out ≠ [] := by
  induction src generalizing dirty tmp size out with
  | nil =>
    rw [hexLoop] at parsed
    split at parsed
    · exact NetAddress.put_out parsed
    · cases parsed
      exact begun.resolve_left ‹_›
  | cons ch src ih =>
    rw [hexLoop] at parsed
    split at parsed
    · split at parsed
      · split at parsed
        · cases parsed
        · exact ih (.inr (List.append_ne_nil_of_right_ne_nil _ (List.cons_ne_nil _ _))) parsed
      · exact ih (.inl rfl) parsed
    · split at parsed
      · exact NetAddress.put_out parsed
      · cases parsed
        exact begun.resolve_left ‹_›

theorem append_byte_ne_nil {c : UInt8} : out ++ [c] ≠ [] :=
  List.append_ne_nil_of_right_ne_nil _ (List.cons_ne_nil _ _)

/-- Each number writes a byte. -/
theorem octetLoop_out {tmp : Nat} (parsed : octetLoop src tmp size out = .ok a) : a.out ≠ [] := by
  fun_induction octetLoop src tmp size out with
  | case1 | case2 | case4 | case6 | case8 | case9 => cases parsed
  | case3 => exact NetAddress.put_out parsed
  | case5 tmp size out ch stop more small digit ih => exact ih parsed
  | case7 =>
    cases parsed
    exact append_byte_ne_nil
  | case10 tmp size out ch stop more small noDigit room written noSlash dot digit ih => exact ih parsed

/-- An address that is accepted has at least one byte. -/
theorem addressPart_out (parsed : addressPart src size = .ok a) : a.out ≠ [] := by
  have decimal {src : List UInt8} (parsed : decimalPart src size = .ok a) : a.out ≠ [] := by
    rw [decimalPart] at parsed
    split at parsed
    · exact octetLoop_out parsed
    · cases parsed
  rw [addressPart.eq_def] at parsed
  split at parsed
  · rename_i ch x digit more
    split at parsed
    · rename_i hex
      split at parsed
      · cases parsed
      · obtain ⟨n, value⟩ := Option.isSome_iff_exists.mp hex.2.2
        rw [hexLoop, value] at parsed
        exact hexLoop_out (.inl rfl) parsed
    · exact decimal parsed
  · exact decimal parsed

theorem isDigit_iff {ch : UInt8} : isDigit ch = true ↔ IsDecimal ch := by
  unfold isDigit IsDecimal
  rw [decide_eq_true_eq]
  rfl

section

variable (before : List UInt8)
include before

/-- The two operations at a digit, over the integers. -/
theorem decimalValue_digit (ch : UInt8)
    : (decimalValue before : Int) * 10 + (ch.toNat - '0'.toNat : Nat)
        = (decimalValue (before ++ [ch]) : Nat) := by
  have zero : '0'.toNat = 48 := rfl
  rw [zero, decimalValue_concat, Nat.cast_add, Nat.cast_mul, Nat.cast_ofNat]

theorem bitsLoop_digit {ch : UInt8} (digit : IsDecimal ch)
    (small : decimalValue (before ++ [ch]) ≤ 2147483647)
    : bitsLoop int32 (decimalValue before) (ch :: digits)
        = bitsLoop int32 (decimalValue (before ++ [ch])) digits := by
  have sum := decimalValue_digit before ch
  have product : int32 ((decimalValue before : Int) * 10) = some ((decimalValue before : Int) * 10) :=
    int32_some (by omega) (by omega)
  have whole : int32 ((decimalValue (before ++ [ch]) : Nat) : Int)
      = some ((decimalValue (before ++ [ch]) : Nat) : Int) :=
    int32_some (by omega) (by omega)
  rw [bitsLoop, if_pos (isDigit_iff.mpr digit), product, Option.bind_eq_bind, Option.bind_some, sum,
    whole, Option.bind_some]

/-- A sum that does not fit is noticed. -/
theorem bitsLoop_exceeds {ch : UInt8} (digit : IsDecimal ch)
    (large : 2147483647 < decimalValue (before ++ [ch]))
    : bitsLoop int32 (decimalValue before) (ch :: digits) = none := by
  have sum := decimalValue_digit before ch
  rw [bitsLoop, if_pos (isDigit_iff.mpr digit)]
  by_cases fits : (decimalValue before : Int) * 10 ≤ 2147483647
  · have product : int32 ((decimalValue before : Int) * 10) = some ((decimalValue before : Int) * 10) :=
      int32_some (by omega) fits
    have whole : int32 ((decimalValue (before ++ [ch]) : Nat) : Int) = none := int32_none (by omega)
    rw [product, Option.bind_eq_bind, Option.bind_some, sum, whole, Option.bind_none]
  · have product : int32 ((decimalValue before : Int) * 10) = none := int32_none (by omega)
    rw [product, Option.bind_eq_bind, Option.bind_none]

/-- The loop computes the number if it fits an `int`, and else meets a sum that does not fit. -/
theorem bitsLoop_digits (decimal : ∀ ch ∈ digits, IsDecimal ch) (fits : decimalValue before ≤ 2147483647)
    : bitsLoop int32 (decimalValue before) digits
        = if decimalValue (before ++ digits) ≤ 2147483647 then
            some (((decimalValue (before ++ digits) : Nat) : Int), [])
          else none := by
  induction digits generalizing before with
  | nil => rw [bitsLoop, List.append_nil, if_pos fits]
  | cons ch digits ih =>
    have whole : before ++ ch :: digits = before ++ [ch] ++ digits := by simp
    have digit := decimal ch (List.mem_cons_self ..)
    by_cases small : decimalValue (before ++ [ch]) ≤ 2147483647
    · rw [bitsLoop_digit before digit small, whole]
      exact ih _ (fun ch member => decimal ch (List.mem_cons_of_mem _ member)) small
    · have grows := decimalValue_append_le (before ++ [ch]) digits
      rw [bitsLoop_exceeds before digit (Nat.not_le.mp small), whole, if_neg (by omega)]

end

private theorem returned_extendLoop (bits : Nat)
    : returned (extendLoop bits size out) = if bits ≤ 8 * (size + out.length) then (bits : Int) else -1 := by
  induction size generalizing out with
  | zero =>
    rw [extendLoop]
    by_cases wide : (bits : Int) > out.length * 8
    · rw [if_pos wide, if_neg (by omega)]
      rfl
    · rw [if_neg wide, if_pos (by omega)]
      rfl
  | succ size ih =>
    rw [extendLoop]
    by_cases wide : (bits : Int) > out.length * 8
    · have length : (out ++ [(0 : UInt8)]).length = out.length + 1 := by simp
      have room : 8 * (size + (out.length + 1)) = 8 * (size + 1 + out.length) := by omega
      rw [if_pos wide, ih, length, room]
    · rw [if_neg wide, if_pos (by omega)]
      rfl

/-- What a width of the value `width` calls for: the width, if it is at most 32 and the bytes that are
written and those that are left hold it, else -1.
-/
def widthResult (width : Nat) (left : Nat) (out : List UInt8) : Int :=
  if width ≤ 32 ∧ width ≤ 8 * (left + out.length) then width else -1

theorem widthPart_slash (int : Int → Option Int) (nonempty : digits ≠ [])
    (decimal : ∀ ch ∈ digits, IsDecimal ch) (written : out ≠ [])
    : widthPart int ⟨slashChar :: digits, left, out⟩ = match bitsLoop int 0 digits with
          | none => none
          | some (bits, rest) =>
            if rest ≠ [] then some (.error .enoent)
            else if bits > 32 then some (.error .emsgsize)
            else some (.ok bits) := by
  obtain ⟨ch, more, rfl⟩ := List.exists_cons_of_ne_nil nonempty
  have first : startsWithDigit (ch :: more) = true := isDigit_iff.mpr (decimal ch (List.mem_cons_self ..))
  exact if_pos ⟨rfl, first, written⟩

/-- A width is right, and summed up without a sum that does not fit, exactly if it fits an `int`. -/
theorem inetNetPtonIpv4_width (address : addressPart src size = .ok ⟨slashChar :: digits, left, out⟩)
    (nonempty : digits ≠ []) (decimal : ∀ ch ∈ digits, IsDecimal ch)
    : (inetNetPtonIpv4 int32 src size).map returned = some (widthResult (decimalValue digits) left out)
      ↔ decimalValue digits ≤ 2147483647 := by
  have written : out ≠ [] := addressPart_out address
  rw [inetNetPtonIpv4, address]
  dsimp only
  rw [widthPart_slash int32 nonempty decimal written]
  have summed := bitsLoop_digits [] decimal (Nat.zero_le _)
  have start : ((decimalValue [] : Nat) : Int) = 0 := rfl
  rw [start, List.nil_append] at summed
  rw [summed]
  by_cases small : decimalValue digits ≤ 2147483647
  · refine iff_of_true ?_ small
    rw [if_pos small]
    dsimp only
    rw [if_neg (not_not_intro rfl)]
    by_cases wide : ((decimalValue digits : Nat) : Int) > 32
    · rw [if_pos wide, widthResult, if_neg (by omega)]
      rfl
    · have noImplied : ((decimalValue digits : Nat) : Int) ≠ -1 := by omega
      rw [if_neg wide]
      dsimp only
      rw [if_neg written, if_neg noImplied, Option.map_some, returned_extendLoop]
      apply congrArg some
      exact if_congr ⟨fun room => ⟨by omega, room⟩, fun both => both.2⟩ rfl rfl
  · rw [if_neg small]
    exact iff_of_false (by simp) small

/-- The text "10/24". -/
theorem inetNetPtonIpv4_width_24
    : (inetNetPtonIpv4 int32 [49, 48, 47, 50, 52] 4).map returned = some (widthResult 24 3 [10])
      ↔ decimalValue [50, 52] ≤ 2147483647 :=
  @inetNetPtonIpv4_width [49, 48, 47, 50, 52] [50, 52] [10] 4 3 rfl (by decide) (by simp [IsDecimal])

/-- The text "10/4294967304". A sum does not fit an `int`; where it wraps around, the width is 8. -/
theorem inetNetPtonIpv4_wraps
    : addressPart [49, 48, 47, 52, 50, 57, 52, 57, 54, 55, 51, 48, 52] 4
        = .ok ⟨[47, 52, 50, 57, 52, 57, 54, 55, 51, 48, 52], 3, [10]⟩
      ∧ widthResult (decimalValue [52, 50, 57, 52, 57, 54, 55, 51, 48, 52]) 3 [10] = -1
      ∧ (inetNetPtonIpv4 int32 [49, 48, 47, 52, 50, 57, 52, 57, 54, 55, 51, 48, 52] 4).map returned
          ≠ some (-1)
      ∧ (inetNetPtonIpv4 (fun sum => some (wrap 32 sum))
          [49, 48, 47, 52, 50, 57, 52, 57, 54, 55, 51, 48, 52] 4).map returned
          = some 8 := by
  exact ⟨rfl, by decide, by decide, by decide +kernel⟩

end Nglibc.Resolv
