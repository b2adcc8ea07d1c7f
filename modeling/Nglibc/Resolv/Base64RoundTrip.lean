import Nglibc.Resolv.Base64

/-! `b64_ntop` writes the encoding of RFC 4648, and `b64_pton` accepts exactly these encodings,
with white space in between.
-/

namespace Nglibc.Resolv

open Memory List

def sextet (n : Nat) : UInt8 := base64.getD n 0

/-- The encoding of RFC 4648: 24 bits give four digits, and zero bits and padding fill up the
last group.
-/
def base64Encoding : List UInt8 → List UInt8
  | a :: b :: c :: rest =>
    let v := a.toNat * 2 ^ 16 + b.toNat * 2 ^ 8 + c.toNat
    sextet (v / 2 ^ 18) :: sextet (v / 2 ^ 12 % 64) :: sextet (v / 2 ^ 6 % 64) :: sextet (v % 64)
      :: base64Encoding rest
  | [a, b] =>
    let v := (a.toNat * 2 ^ 8 + b.toNat) * 2 ^ 2
    [sextet (v / 2 ^ 12), sextet (v / 2 ^ 6 % 64), sextet (v % 64), pad64]
  | [a] =>
    let v := a.toNat * 2 ^ 4
    [sextet (v / 2 ^ 6), sextet (v % 64), pad64, pad64]
  | [] => []

theorem length_base64Encoding (x : List UInt8)
    : (base64Encoding x).length = 4 * ((x.length + 2) / 3) := by
  fun_induction base64Encoding x with
  | case1 a b c rest v ih =>
    simp only [length_cons, ih]
    omega
  | case2 a b v => simp only [length_cons, length_nil]
  | case3 a v => simp only [length_cons, length_nil]
  | case4 => rfl

/-! b64_ntop -/

theorem base64Digit_eq {n : Nat} (small : n < 64) : base64Digit n = some (sextet n) := by
  have length : base64.length = 64 := rfl
  rw [base64Digit, sextet, getElem?_eq_getElem (by omega), getD_eq_getElem _ _ (by omega)]

theorem and_three (n : Nat) : n &&& 0x03 = n % 4 := Nat.and_two_pow_sub_one_eq_mod n 2

theorem and_fifteen (n : Nat) : n &&& 0x0f = n % 16 := Nat.and_two_pow_sub_one_eq_mod n 4

theorem and_sixtyThree (n : Nat) : n &&& 0x3f = n % 64 := Nat.and_two_pow_sub_one_eq_mod n 6

/-- The loop writes the encoding if there is room for it and the terminator. -/
theorem b64NtopLoop_eq (targsize : Nat) (src target : List UInt8)
    : b64NtopLoop targsize src target
      = some (if target.length + (base64Encoding src).length < targsize
          then .ok (target ++ base64Encoding src) else .error ()) := by
  fun_induction base64Encoding src generalizing target with
  | case1 a b c rest v ih =>
    have smallA : a.toNat < 256 := a.toNat_lt
    have smallB : b.toNat < 256 := b.toNat_lt
    have smallC : c.toNat < 256 := c.toNat_lt
    have digit0 : a.toNat / 2 ^ 2 = v / 2 ^ 18 := by omega
    have digit1 : a.toNat % 4 * 2 ^ 4 + b.toNat / 2 ^ 4 = v / 2 ^ 12 % 64 := by omega
    have digit2 : b.toNat % 16 * 2 ^ 2 + c.toNat / 2 ^ 6 = v / 2 ^ 6 % 64 := by omega
    have digit3 : c.toNat % 64 = v % 64 := by omega
    rw [b64NtopLoop]
    simp only [Nat.shiftRight_eq_div_pow, Nat.shiftLeft_eq, and_three, and_fifteen,
      and_sixtyThree, digit0, digit1, digit2, digit3, bind, Option.bind,
      base64Digit_eq (show v / 2 ^ 18 < 64 by omega),
      base64Digit_eq (show v / 2 ^ 12 % 64 < 64 by omega),
      base64Digit_eq (show v / 2 ^ 6 % 64 < 64 by omega),
      base64Digit_eq (show v % 64 < 64 by omega)]
    rw [ih]
    simp only [length_cons, length_append, length_nil, append_assoc,
      cons_append, nil_append]
    split
    · rw [if_neg (by omega)]
    · congr 2
      rw [eq_iff_iff]
      omega
  | case2 a b v =>
    have smallA : a.toNat < 256 := a.toNat_lt
    have smallB : b.toNat < 256 := b.toNat_lt
    have digit0 : a.toNat / 2 ^ 2 = v / 2 ^ 12 := by omega
    have digit1 : a.toNat % 4 * 2 ^ 4 + b.toNat / 2 ^ 4 = v / 2 ^ 6 % 64 := by omega
    have digit2 : b.toNat % 16 * 2 ^ 2 + 0 / 2 ^ 6 = v % 64 := by omega
    rw [b64NtopLoop]
    simp only [Nat.shiftRight_eq_div_pow, Nat.shiftLeft_eq, and_three, and_fifteen, digit0, digit1,
      digit2, bind, Option.bind, base64Digit_eq (show v / 2 ^ 12 < 64 by omega),
      base64Digit_eq (show v / 2 ^ 6 % 64 < 64 by omega),
      base64Digit_eq (show v % 64 < 64 by omega), length_cons, length_nil]
    split
    · rw [if_neg (by omega)]
    · split
      · rw [if_neg (by omega)]
      · rw [if_pos (by omega)]
  | case3 a v =>
    have smallA : a.toNat < 256 := a.toNat_lt
    have digit0 : a.toNat / 2 ^ 2 = v / 2 ^ 6 := by omega
    have digit1 : a.toNat % 4 * 2 ^ 4 + 0 / 2 ^ 4 = v % 64 := by omega
    rw [b64NtopLoop]
    simp only [Nat.shiftRight_eq_div_pow, Nat.shiftLeft_eq, and_three, and_fifteen, digit0, digit1,
      bind, Option.bind, base64Digit_eq (show v / 2 ^ 6 < 64 by omega),
      base64Digit_eq (show v % 64 < 64 by omega),
      base64Digit_eq (show 0 % 16 * 2 ^ 2 + 0 / 2 ^ 6 < 64 by omega), length_cons,
      length_nil]
    split
    · rw [if_neg (by omega)]
    · split
      · rw [if_neg (by omega)]
      · rw [if_pos (by omega)]
  | case4 =>
    rw [b64NtopLoop, length_nil, append_nil]
    split
    · rw [if_neg (by omega)]
    · rw [if_pos (by omega)]

/-! White space -/

def strip (text : List UInt8) : List UInt8 := text.filter fun c => !isspace c

theorem strip_cons_space {c : UInt8} {text : List UInt8} (space : isspace c = true)
    : strip (c :: text) = strip text := by
  rw [strip, filter_cons_of_neg (by simp [space]), strip]

theorem strip_cons_other {c : UInt8} {text : List UInt8} (other : isspace c = false)
    : strip (c :: text) = c :: strip text := by
  rw [strip, filter_cons_of_pos (by simp [other]), strip]

theorem close_strip (d : Decoding) (text : List UInt8) : d.close (strip text) = d.close text := by
  have any : (strip text).any (fun ch => !isspace ch) = text.any fun ch => !isspace ch := by
    rw [strip, any_filter]
    simp only [Bool.and_self]
  rw [Decoding.close, any, Decoding.close]

/-- White space in front of a padding character is skipped. -/
theorem dropWhile_strip (text : List UInt8)
    : (strip text).dropWhile isspace = match text.dropWhile isspace with
      | [] => []
      | ch :: rest => ch :: strip rest := by
  induction text with
  | nil => rfl
  | cons c text ih =>
    cases space : isspace c with
    | true => rw [strip_cons_space space, ih, dropWhile_cons_of_pos space]
    | false =>
      rw [strip_cons_other space, dropWhile_cons_of_neg (by simp [space]),
        dropWhile_cons_of_neg (by simp [space])]

theorem pad_strip (d : Decoding) (text : List UInt8) : d.pad (strip text) = d.pad text := by
  unfold Decoding.pad
  cases d.state with
  | zero => rfl
  | one => rfl
  | two =>
    rw [dropWhile_strip]
    cases text.dropWhile isspace with
    | nil => rfl
    | cons ch rest => simp only [close_strip]
  | three => exact close_strip d text

/-- White space does not count anywhere in a text. -/
theorem b64PtonLoop_strip (targsize : Nat) (text : List UInt8) (d : Decoding)
    : b64PtonLoop targsize (strip text) d = b64PtonLoop targsize text d := by
  induction text generalizing d with
  | nil => rfl
  | cons ch text ih =>
    cases space : isspace ch with
    | true => rw [strip_cons_space space, ih, b64PtonLoop, if_pos space]
    | false =>
      rw [strip_cons_other space]
      simp only [b64PtonLoop, space, pad_strip, ih]

/-! b64_pton -/

theorem idxOf_sextet : ∀ n < 64, base64.idxOf? (sextet n) = some n := by decide +kernel

theorem sextet_plain : ∀ n < 64, isspace (sextet n) = false ∧ sextet n ≠ pad64 := by
  decide +kernel

theorem sextet_of_idxOf {ch : UInt8} {pos : Nat} (found : base64.idxOf? ch = some pos)
    : pos < 64 ∧ ch = sextet pos := by
  have length : base64.length = 64 := rfl
  obtain ⟨inside, value, _⟩ := idxOf?_eq_some_iff.mp found
  refine ⟨by omega, ?_⟩
  rw [sextet, getD_eq_getElem _ _ inside, value]

theorem or_four : ∀ p < 64, ∀ q < 4,
    UInt8.ofNat (p <<< 2) ||| UInt8.ofNat q = UInt8.ofNat (p * 4 + q) := by
  decide +kernel

theorem or_sixteen : ∀ p < 16, ∀ q < 16,
    UInt8.ofNat (p * 16) ||| UInt8.ofNat q = UInt8.ofNat (p * 16 + q) := by
  decide +kernel

theorem or_sixtyFour : ∀ p < 4, ∀ q < 64,
    UInt8.ofNat (p * 64) ||| UInt8.ofNat q = UInt8.ofNat (p * 64 + q) := by
  decide +kernel

variable {targsize k p q : Nat} {t : Memory UInt8} {text : List UInt8}

theorem store_same {x y : UInt8} : (t.store k [x]).store k [y] = t.store k [y] := by
  funext a
  rw [store_singleton, store_singleton, store_singleton]
  split <;> rfl

theorem store_at {x : UInt8} : (t.store k [x]) k = x := by
  rw [store_singleton, if_pos rfl]

theorem b64PtonLoop_digit (d : Decoding) (small : p < 64)
    : b64PtonLoop targsize (sextet p :: text) d = match d.put targsize p with
      | none => none
      | some (.error e) => some (.error e)
      | some (.ok d) => b64PtonLoop targsize text d := by
  obtain ⟨plain, noPad⟩ := sextet_plain p small
  rw [b64PtonLoop, if_neg (by simp [plain]), if_neg noPad]
  cases put : d.put targsize p with
  | none => simp only [idxOf_sextet p small, put]
  | some result =>
    cases result with
    | error e => simp only [idxOf_sextet p small, put]
    | ok d => simp only [idxOf_sextet p small, put]

/-- The first digit of a group. -/
theorem b64PtonLoop_zero (small : p < 64)
    : b64PtonLoop targsize (sextet p :: text) ⟨some t, k, .zero⟩
      = if k ≥ targsize then some (.error ())
        else b64PtonLoop targsize text ⟨some (t.store k [UInt8.ofNat (p <<< 2)]), k, .one⟩ := by
  rw [b64PtonLoop_digit _ small]
  simp only [Decoding.put, Decoding.write]
  by_cases full : k ≥ targsize
  · rw [if_pos full, if_pos full]
  · rw [if_neg full, if_neg full]

/-- The second digit of a group. -/
theorem b64PtonLoop_one (smallP : p < 64) (smallQ : q < 64)
    : b64PtonLoop targsize (sextet q :: text)
        ⟨some (t.store k [UInt8.ofNat (p <<< 2)]), k, .one⟩
      = if k + 1 ≥ targsize then some (.error ())
        else if k < intMax then
          b64PtonLoop targsize text
            ⟨some ((t.store k [UInt8.ofNat (p * 4 + q / 16)]).store (k + 1)
              [UInt8.ofNat (q % 16 * 16)]), k + 1, .two⟩
        else none := by
  rw [b64PtonLoop_digit _ smallQ]
  simp only [Decoding.put, Decoding.write, store_at, store_same]
  by_cases full : k + 1 ≥ targsize
  · rw [if_pos full, if_pos full]
  · rw [if_neg full, if_neg full]
    simp only [Decoding.advance, and_fifteen, Nat.shiftLeft_eq (q % 16),
      Nat.shiftRight_eq_div_pow, or_four p smallP (q / 2 ^ 4) (by omega)]
    by_cases room : k < intMax
    · rw [if_pos room, if_pos room]
      rfl
    · rw [if_neg room, if_neg room]

/-- The third digit of a group, with the four bits `p` of the second one. -/
theorem b64PtonLoop_two (smallP : p < 16) (smallQ : q < 64)
    : b64PtonLoop targsize (sextet q :: text)
        ⟨some (t.store k [UInt8.ofNat (p * 16)]), k, .two⟩
      = if k + 1 ≥ targsize then some (.error ())
        else if k < intMax then
          b64PtonLoop targsize text
            ⟨some ((t.store k [UInt8.ofNat (p * 16 + q / 4)]).store (k + 1)
              [UInt8.ofNat (q % 4 * 64)]), k + 1, .three⟩
        else none := by
  rw [b64PtonLoop_digit _ smallQ]
  simp only [Decoding.put, Decoding.write, store_at, store_same]
  by_cases full : k + 1 ≥ targsize
  · rw [if_pos full, if_pos full]
  · rw [if_neg full, if_neg full]
    simp only [Decoding.advance, and_three, Nat.shiftLeft_eq (q % 4), Nat.shiftRight_eq_div_pow,
      or_sixteen p smallP (q / 2 ^ 2) (by omega)]
    by_cases room : k < intMax
    · rw [if_pos room, if_pos room]
      rfl
    · rw [if_neg room, if_neg room]

/-- The last digit of a group, with the two bits `p` of the third one. -/
theorem b64PtonLoop_three (smallP : p < 4) (smallQ : q < 64)
    : b64PtonLoop targsize (sextet q :: text)
        ⟨some (t.store k [UInt8.ofNat (p * 64)]), k, .three⟩
      = if k ≥ targsize then some (.error ())
        else if k < intMax then
          b64PtonLoop targsize text
            ⟨some (t.store k [UInt8.ofNat (p * 64 + q)]), k + 1, .zero⟩
        else none := by
  rw [b64PtonLoop_digit _ smallQ]
  simp only [Decoding.put, Decoding.write, store_at, store_same]
  by_cases full : k ≥ targsize
  · rw [if_pos full, if_pos full]
  · rw [if_neg full, if_neg full]
    simp only [Decoding.advance, or_sixtyFour p smallP q smallQ]
    by_cases room : k < intMax
    · rw [if_pos room, if_pos room]
    · rw [if_neg room, if_neg room]

/-- What a decoder that started with the target `t` and the index `k` has stored. -/
structure Decoded (t : Memory UInt8) (k : Nat) (x : List UInt8) (d : Decoding) : Prop where
  count : d.tarindex = k + x.length
  bounded : d.tarindex ≤ intMax
  target : ∃ t', d.target = some t' ∧ t'.slice k x.length = x ∧ ∀ a < k, t' a = t a

theorem Decoded.append {x bytes : List UInt8} {d : Decoding}
    (decoded : Decoded (t.store k bytes) (k + bytes.length) x d) : Decoded t k (bytes ++ x) d := by
  obtain ⟨count, bounded, t', target, rest, frame⟩ := decoded
  refine ⟨by rw [count, length_append, Nat.add_assoc], bounded, t', target, ?_, ?_⟩
  · have first : t'.slice k bytes.length = bytes := by
      rw [slice_congr fun a _ below => frame a below, slice_store_self]
    rw [length_append, slice_add, first, rest]
  · intro a below
    rw [frame a (by omega), store_outside (.inl below)]

/-- Bytes that were decoded, with some bits of a next one behind them. -/
theorem Decoded.of_store {x more : List UInt8} {state : Quantum} (bounded : k + x.length ≤ intMax)
    : Decoded t k x ⟨some ((t.store k x).store (k + x.length) more), k + x.length, state⟩ := by
  refine ⟨rfl, bounded, _, rfl, ?_, ?_⟩
  · rw [slice_store_disjoint (.inl le_rfl), slice_store_self]
  · intro a below
    rw [store_outside (.inl (by omega)), store_outside (.inl below)]

theorem store_two {a b : UInt8} : (t.store k [a]).store (k + 1) [b] = t.store k [a, b] :=
  store_store_append

theorem store_three {a b c : UInt8}
    : ((t.store k [a]).store (k + 1) [b]).store (k + 1 + 1) [c] = t.store k [a, b, c] := by
  rw [store_two]
  exact store_store_append

/-- The end of the text behind a padding character. -/
theorem close_eq (t : Memory UInt8) (k : Nat) (state : Quantum)
    : Decoding.close ⟨some t, k, state⟩ text
      = if strip text = [] ∧ t k = 0 then .ok ⟨some t, k, state⟩ else .error () := by
  have blank : text.any (fun ch => !isspace ch) = false ↔ strip text = [] := by
    rw [strip, filter_eq_nil_iff, any_eq_false]
  rw [Decoding.close]
  by_cases spaces : strip text = []
  · rw [blank.mpr spaces, if_neg Bool.false_ne_true]
    by_cases zero : t k = 0
    · rw [if_neg (by simp [zero]), if_pos ⟨spaces, zero⟩]
    · rw [if_pos (by simp [zero]), if_neg fun both => zero both.2]
  · rw [if_pos (by rwa [← Bool.not_eq_false, blank]), if_neg fun both => spaces both.1]

theorem b64PtonLoop_pad (d : Decoding)
    : b64PtonLoop targsize (pad64 :: text) d = some (d.pad text) := by
  rw [b64PtonLoop, if_neg (by decide), if_pos rfl]

/-- One padding character ends a group of three digits. -/
theorem pad_three (t : Memory UInt8) (k : Nat)
    : Decoding.pad ⟨some t, k, .three⟩ text
      = if strip text = [] ∧ t k = 0 then .ok ⟨some t, k, .three⟩ else .error () :=
  close_eq t k .three

/-- Two padding characters end a group of two digits. -/
theorem pad_two (t : Memory UInt8) (k : Nat)
    : Decoding.pad ⟨some t, k, .two⟩ text
      = if strip text = [pad64] ∧ t k = 0 then .ok ⟨some t, k, .two⟩ else .error () := by
  rw [← pad_strip]
  have plain : (strip text).dropWhile isspace = strip text := by
    cases stripped : strip text with
    | nil => rfl
    | cons c rest =>
      have member : c ∈ strip text := by
        rw [stripped]
        exact mem_cons_self
      have other := (mem_filter.mp member).2
      exact dropWhile_cons_of_neg (by simpa using other)
  simp only [Decoding.pad, plain]
  cases stripped : strip text with
  | nil => rw [if_neg fun both => cons_ne_nil _ _ both.1.symm]
  | cons c rest =>
    have inside : strip rest = rest := by
      have twice : strip (strip text) = strip text := by
        rw [strip, strip, filter_filter]
        simp only [Bool.and_self]
      rw [stripped] at twice
      cases space : isspace c with
      | true =>
        rw [strip_cons_space space] at twice
        have shorter := congrArg List.length twice
        have le : (strip rest).length ≤ rest.length := length_filter_le _ _
        rw [length_cons] at shorter
        omega
      | false =>
        rw [strip_cons_other space] at twice
        exact (List.cons.inj twice).2
    simp only [close_eq, inside]
    by_cases pad : c = pad64
    · rw [if_neg (not_not.mpr pad), pad]
      simp only [List.cons.injEq, true_and]
    · rw [if_pos pad, if_neg fun both => pad (List.cons.inj both.1).1]

/-- The encoding of a byte string is decoded to it. By induction on its groups. -/
theorem b64PtonLoop_encoding {x : List UInt8} (room : k + x.length < targsize)
    (bounded : k + x.length ≤ intMax)
    : ∃ d, b64PtonLoop targsize (base64Encoding x) ⟨some t, k, .zero⟩ = some (.ok d)
      ∧ Decoded t k x d := by
  fun_induction base64Encoding x generalizing t k with
  | case1 a b c rest v =>
    rename_i ih
    have smallA : a.toNat < 256 := a.toNat_lt
    have smallB : b.toNat < 256 := b.toNat_lt
    have smallC : c.toNat < 256 := c.toNat_lt
    simp only [length_cons] at room bounded
    have first : UInt8.ofNat (v / 2 ^ 18 * 4 + v / 2 ^ 12 % 64 / 16) = a := by
      rw [← UInt8.toNat_inj, UInt8.toNat_ofNat']
      omega
    have second : UInt8.ofNat (v / 2 ^ 12 % 64 % 16 * 16 + v / 2 ^ 6 % 64 / 4) = b := by
      rw [← UInt8.toNat_inj, UInt8.toNat_ofNat']
      omega
    have third : UInt8.ofNat (v / 2 ^ 6 % 64 % 4 * 64 + v % 64) = c := by
      rw [← UInt8.toNat_inj, UInt8.toNat_ofNat']
      omega
    rw [b64PtonLoop_zero (by omega), if_neg (by omega),
      b64PtonLoop_one (by omega) (by omega), if_neg (by omega), if_pos (by omega),
      b64PtonLoop_two (by omega) (by omega), if_neg (by omega), if_pos (by omega),
      b64PtonLoop_three (by omega) (by omega), if_neg (by omega), if_pos (by omega),
      first, second, third, store_three]
    obtain ⟨d, run, decoded⟩ := @ih (k + 1 + 1 + 1) (t.store k [a, b, c]) (by omega) (by omega)
    exact ⟨d, run, decoded.append⟩
  | case2 a b =>
    rename_i v
    have smallA : a.toNat < 256 := a.toNat_lt
    have smallB : b.toNat < 256 := b.toNat_lt
    simp only [length_cons, length_nil] at room bounded
    have first : UInt8.ofNat (v / 2 ^ 12 * 4 + v / 2 ^ 6 % 64 / 16) = a := by
      rw [← UInt8.toNat_inj, UInt8.toNat_ofNat']
      omega
    have second : UInt8.ofNat (v / 2 ^ 6 % 64 % 16 * 16 + v % 64 / 4) = b := by
      rw [← UInt8.toNat_inj, UInt8.toNat_ofNat']
      omega
    have slack : v % 64 % 4 * 64 = 0 := by omega
    rw [b64PtonLoop_zero (by omega), if_neg (by omega),
      b64PtonLoop_one (by omega) (by omega), if_neg (by omega), if_pos (by omega),
      b64PtonLoop_two (by omega) (by omega), if_neg (by omega), if_pos (by omega), first, second,
      slack, @store_two k t a b, b64PtonLoop_pad, pad_three, if_pos ⟨rfl, store_at⟩]
    exact ⟨_, rfl, .of_store (x := [a, b]) (by simpa using bounded)⟩
  | case3 a =>
    rename_i v
    have smallA : a.toNat < 256 := a.toNat_lt
    simp only [length_cons, length_nil] at room bounded
    have first : UInt8.ofNat (v / 2 ^ 6 * 4 + v % 64 / 16) = a := by
      rw [← UInt8.toNat_inj, UInt8.toNat_ofNat']
      omega
    have slack : v % 64 % 16 * 16 = 0 := by omega
    rw [b64PtonLoop_zero (by omega), if_neg (by omega),
      b64PtonLoop_one (by omega) (by omega), if_neg (by omega), if_pos (by omega), first, slack,
      b64PtonLoop_pad, pad_two, if_pos ⟨rfl, store_at⟩]
    exact ⟨_, rfl, .of_store (x := [a]) (by simpa using bounded)⟩
  | case4 => exact ⟨_, rfl, rfl, bounded, t, rfl, rfl, fun _ _ => rfl⟩

/-- How an accepted text without white space goes on. -/
theorem accepted_cases {d d' : Decoding} (plain : strip text = text)
    (run : b64PtonLoop targsize text d = some (.ok d'))
    : text = [] ∨ (∃ rest, text = pad64 :: rest ∧ strip rest = rest)
      ∨ ∃ p rest, p < 64 ∧ text = sextet p :: rest ∧ strip rest = rest := by
  cases text with
  | nil => exact .inl rfl
  | cons c rest =>
    cases space : isspace c with
    | true =>
      rw [strip_cons_space space] at plain
      have shorter := congrArg List.length plain
      have le : (strip rest).length ≤ rest.length := length_filter_le _ _
      rw [length_cons] at shorter
      omega
    | false =>
      rw [strip_cons_other space] at plain
      have rest_ := (List.cons.inj plain).2
      by_cases pad : c = pad64
      · exact .inr (.inl ⟨rest, by rw [pad], rest_⟩)
      · rw [b64PtonLoop, if_neg (by simp [space]), if_neg pad] at run
        cases found : base64.idxOf? c with
        | none =>
          rw [found] at run
          cases run
        | some p =>
          obtain ⟨small, digit⟩ := sextet_of_idxOf found
          exact .inr (.inr ⟨p, rest, small, by rw [digit], rest_⟩)

theorem ofNat_eq_zero {n : Nat} (small : n < 256) (zero : UInt8.ofNat n = 0) : n = 0 := by
  have value := congrArg UInt8.toNat zero
  rw [UInt8.toNat_ofNat', UInt8.toNat_zero] at value
  omega

theorem encoding_one (smallP : p < 64) (smallQ : q < 64) (slack : q % 16 = 0)
    : base64Encoding [UInt8.ofNat (p * 4 + q / 16)] = [sextet p, sextet q, pad64, pad64] := by
  have high : (p * 4 + q / 16) * 2 ^ 4 / 2 ^ 6 = p := by omega
  have low : (p * 4 + q / 16) * 2 ^ 4 % 64 = q := by omega
  simp only [base64Encoding, UInt8.toNat_ofNat_of_lt' (show p * 4 + q / 16 < 256 by omega), high, low]

theorem encoding_two {r : Nat} (smallP : p < 64) (smallQ : q < 64) (smallR : r < 64)
    (slack : r % 4 = 0)
    : base64Encoding [UInt8.ofNat (p * 4 + q / 16), UInt8.ofNat (q % 16 * 16 + r / 4)]
      = [sextet p, sextet q, sextet r, pad64] := by
  have high : ((p * 4 + q / 16) * 2 ^ 8 + (q % 16 * 16 + r / 4)) * 2 ^ 2 / 2 ^ 12 = p := by omega
  have middle : ((p * 4 + q / 16) * 2 ^ 8 + (q % 16 * 16 + r / 4)) * 2 ^ 2 / 2 ^ 6 % 64 = q := by
    omega
  have low : ((p * 4 + q / 16) * 2 ^ 8 + (q % 16 * 16 + r / 4)) * 2 ^ 2 % 64 = r := by omega
  simp only [base64Encoding, UInt8.toNat_ofNat_of_lt' (show p * 4 + q / 16 < 256 by omega),
    UInt8.toNat_ofNat_of_lt' (show q % 16 * 16 + r / 4 < 256 by omega), high, middle, low]

private theorem encoding_three {r s : Nat} (smallP : p < 64) (smallQ : q < 64) (smallR : r < 64)
    (smallS : s < 64) (x : List UInt8)
    : base64Encoding (UInt8.ofNat (p * 4 + q / 16) :: UInt8.ofNat (q % 16 * 16 + r / 4)
          :: UInt8.ofNat (r % 4 * 64 + s) :: x)
      = sextet p :: sextet q :: sextet r :: sextet s :: base64Encoding x := by
  have first : ((p * 4 + q / 16) * 2 ^ 16 + (q % 16 * 16 + r / 4) * 2 ^ 8 + (r % 4 * 64 + s)) / 2 ^ 18
      = p := by omega
  have second : ((p * 4 + q / 16) * 2 ^ 16 + (q % 16 * 16 + r / 4) * 2 ^ 8 + (r % 4 * 64 + s))
      / 2 ^ 12 % 64 = q := by omega
  have third : ((p * 4 + q / 16) * 2 ^ 16 + (q % 16 * 16 + r / 4) * 2 ^ 8 + (r % 4 * 64 + s))
      / 2 ^ 6 % 64 = r := by omega
  have fourth : ((p * 4 + q / 16) * 2 ^ 16 + (q % 16 * 16 + r / 4) * 2 ^ 8 + (r % 4 * 64 + s)) % 64
      = s := by omega
  simp only [base64Encoding, UInt8.toNat_ofNat_of_lt' (show p * 4 + q / 16 < 256 by omega),
    UInt8.toNat_ofNat_of_lt' (show q % 16 * 16 + r / 4 < 256 by omega),
    UInt8.toNat_ofNat_of_lt' (show r % 4 * 64 + s < 256 by omega), first, second, third, fourth]

/-- A text without white space that is accepted is an encoding. By induction on its length. -/
theorem b64PtonLoop_accepted {d : Decoding} (plain : strip text = text)
    (run : b64PtonLoop targsize text ⟨some t, k, .zero⟩ = some (.ok d)) (bounded : k ≤ intMax)
    : ∃ x, text = base64Encoding x ∧ Decoded t k x d := by
  induction length : text.length using Nat.strong_induction_on generalizing text t k with
  | _ n ih =>
    rcases accepted_cases plain run with rfl | ⟨rest, rfl, _⟩ | ⟨p, rest, smallP, rfl, plainP⟩
    · cases run
      exact ⟨[], rfl, rfl, bounded, t, rfl, rfl, fun _ _ => rfl⟩
    · cases run
    · rw [b64PtonLoop_zero smallP] at run
      split at run
      · cases run
      · rcases accepted_cases plainP run with rfl | ⟨rest, rfl, _⟩ | ⟨q, rest, smallQ, rfl, plainQ⟩
        · cases run
        · cases run
        · rw [b64PtonLoop_one smallP smallQ] at run
          split at run
          · cases run
          · split at run
            · rename_i boundP
              rcases accepted_cases plainQ run
                with rfl | ⟨rest, rfl, plainR⟩ | ⟨r, rest, smallR, rfl, plainR⟩
              · cases run
              · rw [b64PtonLoop_pad, pad_two] at run
                split at run
                · rename_i closed
                  cases run
                  rw [plainR, store_at] at closed
                  refine ⟨[UInt8.ofNat (p * 4 + q / 16)], ?_, ?_⟩
                  · have slack := ofNat_eq_zero (by omega) closed.2
                    rw [encoding_one smallP smallQ (by omega), closed.1]
                  · exact .of_store boundP
                · cases run
              · rw [b64PtonLoop_two (by omega) smallR] at run
                split at run
                · cases run
                · split at run
                  · rename_i boundQ
                    rcases accepted_cases plainR run
                      with rfl | ⟨rest, rfl, plainS⟩ | ⟨s, rest, smallS, rfl, plainS⟩
                    · cases run
                    · rw [b64PtonLoop_pad, pad_three] at run
                      split at run
                      · rename_i closed
                        cases run
                        rw [plainS, store_at] at closed
                        refine ⟨[UInt8.ofNat (p * 4 + q / 16), UInt8.ofNat (q % 16 * 16 + r / 4)],
                          ?_, ?_⟩
                        · have slack := ofNat_eq_zero (by omega) closed.2
                          rw [encoding_two smallP smallQ smallR (by omega), closed.1]
                        · rw [@store_two k t]
                          exact .of_store boundQ
                      · cases run
                    · rw [b64PtonLoop_three (by omega) smallS] at run
                      split at run
                      · cases run
                      · split at run
                        · rename_i boundR
                          rw [store_three] at run
                          simp only [length_cons] at length
                          obtain ⟨x, encoded, decoded⟩ :=
                            ih rest.length (by omega) plainS run boundR rfl
                          refine ⟨_, ?_, decoded.append⟩
                          simp only [cons_append, nil_append]
                          rw [encoding_three smallP smallQ smallR smallS, encoded]
                        · cases run
                  · cases run
            · cases run

theorem b64Pton_accepted {d : Decoding} (run : b64Pton text (some t) targsize = some (.ok d))
    : ∃ x, strip text = base64Encoding x ∧ Decoded t 0 x d := by
  have twice : strip (strip text) = strip text := by
    rw [strip, strip, filter_filter]
    simp only [Bool.and_self]
  rw [b64Pton, ← b64PtonLoop_strip] at run
  exact b64PtonLoop_accepted twice run (Nat.zero_le _)

/-- `b64_ntop` succeeds when there is room for the encoding and a terminator. `b64_pton` returns
the bytes of an encoding, up to `INT_MAX` of them, whatever white space is in it, and accepts
nothing else.
-/
theorem b64_roundTrip (x : List UInt8) (targsize : Nat)
    : ((∃ text, b64Ntop x targsize = some (.ok text)) ↔ 4 * ((x.length + 2) / 3) < targsize)
      ∧ (∀ text, b64Ntop x targsize = some (.ok text) → text = base64Encoding x)
      ∧ (x.length ≤ intMax → ∀ text, strip text = base64Encoding x
        → ∀ (t : Memory UInt8) (room : Nat), x.length < room
        → ∃ d t', b64Pton text (some t) room = some (.ok d) ∧ d.tarindex = x.length
          ∧ d.target = some t' ∧ t'.slice 0 x.length = x)
      ∧ ∀ text (t : Memory UInt8) (room : Nat) (d : Decoding),
        b64Pton text (some t) room = some (.ok d)
        → ∃ y t', d.tarindex = y.length ∧ d.target = some t' ∧ t'.slice 0 y.length = y
          ∧ strip text = base64Encoding y := by
  have written := b64NtopLoop_eq targsize x []
  rw [length_nil, Nat.zero_add, nil_append, length_base64Encoding] at written
  refine ⟨⟨?_, ?_⟩, ?_, ?_, ?_⟩
  · rintro ⟨text, run⟩
    rw [b64Ntop, written] at run
    by_contra full
    rw [if_neg full] at run
    cases run
  · intro room
    exact ⟨base64Encoding x, by rw [b64Ntop, written, if_pos room]⟩
  · intro text run
    rw [b64Ntop, written] at run
    split at run
    · cases run
      rfl
    · cases run
  · intro bounded text encoded t room fits
    obtain ⟨d, run, decoded⟩ := @b64PtonLoop_encoding room 0 t x (by omega) (by omega)
    obtain ⟨count, _, t', target, bytes, _⟩ := decoded
    refine ⟨d, t', ?_, by rw [count, Nat.zero_add], target, bytes⟩
    rw [b64Pton, ← b64PtonLoop_strip, encoded, run]
  · intro text t room d run
    obtain ⟨y, encoded, count, _, t', target, bytes, _⟩ := b64Pton_accepted run
    exact ⟨y, t', by rw [count, Nat.zero_add], target, bytes, encoded⟩

/-- "TWFu", with a blank in it, is decoded to "Man". -/
theorem b64_roundTrip_man
    : ∃ d t', b64Pton [84, 87, 32, 70, 117] (some fun _ => 0) 4 = some (.ok d) ∧ d.tarindex = 3
      ∧ d.target = some t' ∧ t'.slice 0 3 = [77, 97, 110] :=
  (b64_roundTrip [77, 97, 110] 5).2.2.1 (by decide) [84, 87, 32, 70, 117] (by decide +kernel)
    (fun _ => 0) 4 (by decide)

/-- A string of 2 ^ 31 bytes is encoded, but its length is no value of an `int`. -/
theorem b64Pton_not_returns_length
    : ¬ ∃ d, b64Pton (base64Encoding (List.replicate (2 ^ 31) 0)) (some fun _ => 0) (2 ^ 31 + 1)
          = some (.ok d)
        ∧ d.tarindex = (List.replicate (2 ^ 31) (0 : UInt8)).length := by
  rintro ⟨d, run, length⟩
  obtain ⟨_, _, decoded⟩ := b64Pton_accepted run
  have bounded := decoded.bounded
  rw [length, length_replicate, intMax] at bounded
  omega

end Nglibc.Resolv
