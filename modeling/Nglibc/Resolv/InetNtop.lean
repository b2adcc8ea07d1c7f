import Nglibc.Resolv.InetAddress

/-! `inet_ntop6` writes the text of its address, so that `inet_pton` reads the address back. -/

namespace Nglibc.Resolv

open List hiding Vector

variable {n : Nat}

theorem toNat_decimalDigit (small : n < 10)
    : (UInt8.ofNat (48 + n)).toNat = 48 + n :=
  UInt8.toNat_ofNat_of_lt' (by change 48 + n < 256; omega)

theorem isDecimal_digit {n : Nat} (small : n < 10) : IsDecimal (UInt8.ofNat (48 + n)) := by
  have value := toNat_decimalDigit small
  exact ⟨
    UInt8.le_iff_toNat_le.mpr (by rw [value]; exact Nat.le_add_right 48 n),
    UInt8.le_iff_toNat_le.mpr (by rw [value]; change 48 + n ≤ 57; omega)
  ⟩

theorem decimalText_ne_nil (n : Nat) : decimalText n ≠ [] := by
  rw [decimalText]
  split
  · simp
  · simp

theorem decimalText_decimal (n : Nat) : ∀ ch ∈ decimalText n, IsDecimal ch := by
  induction n using decimalText.induct with
  | case1 n small =>
    rw [decimalText, if_pos small]
    intro ch member
    rw [mem_singleton.mp member]
    exact isDecimal_digit small
  | case2 n large ih =>
    rw [decimalText, if_neg large]
    intro ch member
    rcases mem_append.mp member with member | member
    · exact ih ch member
    · rw [mem_singleton.mp member]
      exact isDecimal_digit (Nat.mod_lt n (by decide))

theorem decimalValue_decimalText (n : Nat) : decimalValue (decimalText n) = n := by
  induction n using decimalText.induct with
  | case1 n small =>
    have value := toNat_decimalDigit small
    have digit : decimalValue [UInt8.ofNat (48 + n)] = 0 * 10 + _ := decimalValue_concat [] _
    rw [decimalText, if_pos small, digit]
    omega
  | case2 n large ih =>
    have value := toNat_decimalDigit (Nat.mod_lt n (by decide))
    rw [decimalText, if_neg large, decimalValue_concat]
    omega

/-- Only 0 is written with a leading zero. -/
theorem decimalText_head {n : Nat} (head : (decimalText n).head? = some 48) : n = 0 := by
  induction n using decimalText.induct with
  | case1 n small =>
    rw [decimalText, if_pos small, head?_cons, Option.some.injEq] at head
    have value := toNat_decimalDigit small
    rw [head] at value
    change 48 = 48 + n at value
    omega
  | case2 n large ih =>
    rw [decimalText, if_neg large, head?_append_of_ne_nil _ (decimalText_ne_nil _)] at head
    have zero := ih head
    omega

theorem isOctet_decimalText (byte : UInt8) : IsOctet (decimalText byte.toNat) := by
  refine ⟨decimalText_ne_nil _, decimalText_decimal _, ?_, ?_⟩
  · intro head
    rw [decimalText_head head, decimalText]
    rfl
  · rw [decimalValue_decimalText]
    exact Nat.le_of_lt_succ byte.toNat_lt

/-- A number without a leading zero is written as it was read; by induction on its digits. -/
theorem decimalText_decimalValue {digits : List UInt8} (nonempty : digits ≠ [])
    (decimal : ∀ ch ∈ digits, IsDecimal ch) (head : digits.head? = some 48 → digits.length = 1)
    : decimalText (decimalValue digits) = digits := by
  induction digits using List.reverseRecOn with
  | nil => exact absurd rfl nonempty
  | append_singleton digits ch ih =>
    have low : 48 ≤ ch.toNat := (decimal ch (by simp)).1
    have high : ch.toNat ≤ 57 := (decimal ch (by simp)).2
    have digit : UInt8.ofNat (48 + (ch.toNat - 48)) = ch := by
      rw [Nat.add_sub_cancel' low, UInt8.ofNat_toNat]
    have front : (decimalValue digits * 10 + (ch.toNat - 48)) / 10 = decimalValue digits := by omega
    have last : (decimalValue digits * 10 + (ch.toNat - 48)) % 10 = ch.toNat - 48 := by omega
    rw [decimalValue_concat, decimalText, front, last, digit]
    by_cases first : digits = []
    · subst first
      rw [decimalValue, digitsValue, foldl_nil, if_pos (by omega), Nat.zero_mul, Nat.zero_add, digit,
        nil_append]
    · have before : ∀ ch ∈ digits, IsDecimal ch := fun other member => decimal other (by simp [member])
      have positive := length_pos_of_ne_nil first
      rw [head?_append_of_ne_nil _ first, length_append, length_singleton] at head
      have noZero : digits.head? ≠ some 48 := fun zero => by
        have length := head zero
        omega
      have value : decimalValue digits ≠ 0 := fun zero =>
        noZero (head_of_decimalValue_zero first before zero)
      rw [if_neg (by omega), ih first before fun zero => absurd zero noZero]

theorem hexDigitValue_hexChar (small : n < 16)
    : hexDigitValue (hexChar n) = some n := by
  have all : ∀ m < 16, hexDigitValue (hexChar m) = some m := by decide
  exact all n small

theorem hexText_hex (n : Nat) : ∀ ch ∈ hexText n, (hexDigitValue ch).isSome := by
  induction n using hexText.induct with
  | case1 n small =>
    rw [hexText, if_pos small]
    intro ch member
    rw [mem_singleton.mp member, hexDigitValue_hexChar small]
    rfl
  | case2 n large ih =>
    rw [hexText, if_neg large]
    intro ch member
    rcases mem_append.mp member with member | member
    · exact ih ch member
    · rw [mem_singleton.mp member, hexDigitValue_hexChar (Nat.mod_lt n (by decide))]
      rfl

theorem hexValue_hexText (n : Nat) : hexValue (hexText n) = n := by
  induction n using hexText.induct with
  | case1 n small =>
    have digit := hexValue_concat [] (hexDigitValue_hexChar small)
    rw [nil_append] at digit
    rw [hexText, if_pos small, digit]
    exact Nat.zero_add n
  | case2 n large ih =>
    rw [hexText, if_neg large, hexValue_concat _ (hexDigitValue_hexChar (Nat.mod_lt n (by decide)))]
    omega

theorem hexText_length_le (digits : Nat) (small : n < 16 ^ (digits + 1))
    : (hexText n).length ≤ digits + 1 := by
  induction digits generalizing n with
  | zero =>
    rw [hexText, if_pos (by simpa using small)]
    exact Nat.le_refl 1
  | succ digits ih =>
    rw [hexText]
    split
    · exact Nat.le_add_left 1 _
    · have shorter := ih (show n / 16 < 16 ^ (digits + 1) by omega)
      rw [length_append, length_singleton]
      omega

theorem isGroup_hexText {n : Nat} (small : n < 65536) : IsGroup (hexText n) := by
  refine ⟨?_, hexText_length_le 3 small, hexText_hex n⟩
  rw [hexText]
  split
  · simp
  · simp

/-- The run is one of zeros in `words`. -/
def RunIn (words : List Nat) (run : ZeroRun) : Prop := ∀ base, run.base = some base →
    ∃ left right, words = left ++ List.replicate run.len 0 ++ right ∧ left.length = base

/-- The run is one of zeros at the end of `words`. -/
def RunAtEnd (words : List Nat) (run : ZeroRun) : Prop := ∀ base, run.base = some base →
    ∃ left, words = left ++ List.replicate run.len 0 ∧ left.length = base

variable {words : List Nat}

theorem RunIn.append {run : ZeroRun} (inside : RunIn words run) (more : List Nat)
    : RunIn (words ++ more) run := by
  intro base found
  obtain ⟨left, right, rfl, length⟩ := inside base found
  exact ⟨left, right ++ more, by rw [append_assoc _ right], length⟩

theorem RunAtEnd.runIn {run : ZeroRun} (last : RunAtEnd words run)
    : RunIn words run := by
  intro base found
  obtain ⟨left, rfl, length⟩ := last base found
  exact ⟨left, [], by rw [append_nil], length⟩

theorem RunIn.better {best cur : ZeroRun} (bestIn : RunIn words best) (curIn : RunIn words cur)
    : RunIn words (betterRun best cur) := by
  unfold betterRun
  split
  · split
    · exact curIn
    · exact bestIn
  · exact bestIn

/-- By induction on the words left: the best run lies in those passed. -/
theorem findRun_runIn {done words : List Nat} {best cur : ZeroRun} (bestIn : RunIn done best)
    (curLast : RunAtEnd done cur)
    : RunIn (done ++ words) (findRun best cur done.length words) := by
  induction words generalizing done best cur with
  | nil =>
    rw [append_nil]
    exact bestIn.better curLast.runIn
  | cons word words ih =>
    have next : done ++ word :: words = (done ++ [word]) ++ words := by simp
    have place : done.length + 1 = (done ++ [word]).length := by simp
    have none : ∀ run : ZeroRun, RunAtEnd (done ++ [word]) { run with base := none } :=
      fun run base found => by cases found
    rw [findRun, next, place]
    split
    · rename_i zero
      subst zero
      split
      · apply ih (bestIn.append _)
        intro base found
        exact ⟨done, rfl, Option.some.inj found⟩
      · apply ih (bestIn.append _)
        intro base found
        obtain ⟨left, rfl, length⟩ := curLast base found
        exact ⟨left, by rw [append_assoc, replicate_succ'], length⟩
    · split
      · exact ih ((bestIn.better curLast.runIn).append _) (none cur)
      · rename_i notStarted
        apply ih (bestIn.append _)
        intro base found
        rw [found] at notStarted
        exact absurd rfl notStarted

private theorem bestRun_spec {base : Nat} (found : (bestRun words).base = some base)
    : ∃ left right, words = left ++ List.replicate (bestRun words).len 0 ++ right
        ∧ left.length = base ∧ 2 ≤ (bestRun words).len := by
  have noRun : RunAtEnd [] { base := none, len := 0 } := fun base found => by cases found
  have run : RunIn ([] ++ words) _ := findRun_runIn noRun.runIn noRun
  unfold bestRun at found ⊢
  dsimp only at found ⊢
  split at found
  · cases found
  · rename_i long
    rw [if_neg long]
    obtain ⟨left, right, split, length⟩ := run base found
    refine ⟨left, right, split, length, ?_⟩
    by_contra short
    exact long ⟨by rw [show _ = some base from found]; rfl, by omega⟩

theorem word_eq (high low : UInt8)
    : (high.toNat <<< 8) ||| low.toNat = high.toNat * 256 + low.toNat := by
  rw [← Nat.shiftLeft_add_eq_or_of_lt (show low.toNat < 2 ^ 8 from low.toNat_lt), Nat.shiftLeft_eq]

theorem groupBytes_word (high low : UInt8)
    : groupBytes ((high.toNat <<< 8) ||| low.toNat) = [high, low] := by
  have highLt := high.toNat_lt
  have lowLt := low.toNat_lt
  have first : UInt8.ofNat ((high.toNat * 256 + low.toNat) >>> 8) = high := by
    apply UInt8.toNat_inj.mp
    rw [UInt8.toNat_ofNat']
    omega
  have second : UInt8.ofNat (high.toNat * 256 + low.toNat) = low := by
    apply UInt8.toNat_inj.mp
    rw [UInt8.toNat_ofNat']
    omega
  rw [word_eq, groupBytes, first, second]

/-- The words hold the bytes of the address. -/
theorem wordsOf_bytes {src : List UInt8} {count : Nat} (length : src.length = 2 * count)
    : (wordsOf src).length = count ∧ (wordsOf src).flatMap groupBytes = src
      ∧ ∀ word ∈ wordsOf src, word < 65536 := by
  induction count generalizing src with
  | zero =>
    rw [eq_nil_of_length_eq_zero length]
    exact ⟨rfl, rfl, by simp [wordsOf]⟩
  | succ count ih =>
    match src with
    | [] => cases length
    | [one] =>
      rw [length_singleton] at length
      omega
    | high :: low :: src =>
      obtain ⟨number, bytes, small⟩ := ih (show src.length = 2 * count by
        rw [length_cons, length_cons] at length
        omega)
      refine ⟨by rw [wordsOf, length_cons, number], ?_, ?_⟩
      · rw [wordsOf, flatMap_cons, groupBytes_word, bytes]
        rfl
      · refine forall_mem_cons.mpr ⟨?_, small⟩
        have highLt := high.toNat_lt
        have lowLt := low.toNat_lt
        rw [word_eq]
        omega

def followingText (pieces : List (List UInt8)) : List UInt8 :=
  pieces.flatMap fun piece => colonChar :: piece

theorem followingText_eq {pieces : List (List UInt8)} (nonempty : pieces ≠ [])
    : followingText pieces = colonChar :: [colonChar].intercalate pieces := by
  induction pieces with
  | nil => exact absurd rfl nonempty
  | cons piece pieces ih =>
    rw [followingText, flatMap_cons]
    by_cases last : pieces = []
    · subst last
      rw [flatMap_nil, append_nil, intercalate_singleton]
    · rw [intercalate_cons_of_ne_nil last, append_assoc]
      exact congrArg (fun rest => colonChar :: (piece ++ rest)) (ih last)

section

variable {best : ZeroRun} {words : List Nat} {quad : UInt8 × UInt8 × UInt8 × UInt8}

def Encapsulated (best : ZeroRun) (words : List Nat) : Prop :=
  best.base = some 0 ∧ (best.len = 6 ∨ best.len = 5 ∧ words[5]? = some 0xffff)

theorem formatLoop_word {i : Nat} (outside : best.inside i = false)
    (noQuad : ¬ (i = 6 ∧ Encapsulated best words)) (tmp : List UInt8) (word : Nat)
    (rest : List Nat)
    : formatLoop best words quad i tmp (word :: rest) = formatLoop best words quad (i + 1)
          ((if i ≠ 0 then tmp ++ [colonChar] else tmp) ++ hexText word) rest := by
  rw [formatLoop, if_neg (by rw [outside]; exact Bool.false_ne_true)]
  rw [if_neg (show ¬ (i = 6 ∧ best.base = some 0
    ∧ (best.len = 6 ∨ best.len = 5 ∧ words[5]? = some 0xffff)) from noQuad)]

theorem formatLoop_words {i : Nat} {more : List Nat}
    (outside : ∀ j, i ≤ j → j < i + more.length → best.inside j = false)
    (noQuad : ∀ j, i ≤ j → j < i + more.length → ¬ (j = 6 ∧ Encapsulated best words))
    (positive : i ≠ 0) (tmp : List UInt8) (rest : List Nat)
    : formatLoop best words quad i tmp (more ++ rest)
      = formatLoop best words quad (i + more.length) (tmp ++ followingText (more.map hexText))
          rest := by
  induction more generalizing i tmp with
  | nil =>
    have same : tmp ++ followingText ([].map hexText) = tmp := append_nil tmp
    rw [same]
    rfl
  | cons word more ih =>
    rw [length_cons] at outside noQuad
    rw [cons_append,
      formatLoop_word (outside i le_rfl (by omega)) (noQuad i le_rfl (by omega)),
      if_pos positive,
      ih (fun j low high => outside j (by omega) (by omega))
        (fun j low high => noQuad j (by omega) (by omega)) (Nat.succ_ne_zero i),
      length_cons, Nat.succ_add_eq_add_succ, map_cons, followingText,
      followingText, flatMap_cons]
    simp only [append_assoc, cons_append, nil_append]

theorem formatLoop_left {left : List Nat}
    (outside : ∀ j, j < left.length → best.inside j = false)
    (noQuad : ∀ j, j < left.length → ¬ (j = 6 ∧ Encapsulated best words)) (rest : List Nat)
    : formatLoop best words quad 0 [] (left ++ rest)
      = formatLoop best words quad left.length ([colonChar].intercalate (left.map hexText))
          rest := by
  cases left with
  | nil => rfl
  | cons word left =>
    rw [length_cons] at outside noQuad
    rw [cons_append, formatLoop_word (outside 0 (by omega)) (noQuad 0 (by omega)),
      if_neg (by decide), nil_append,
      formatLoop_words (fun j low high => outside j (by omega))
        (fun j low high => noQuad j (by omega)) (by decide), Nat.add_comm 1]
    by_cases last : left = []
    · subst last
      simp [followingText]
    · rw [followingText_eq (by simpa using last), map_cons,
        intercalate_cons_of_ne_nil (by simpa using last), append_assoc]
      rfl

theorem inside_eq {base : Nat} (found : best.base = some base) (i : Nat)
    : best.inside i = (decide (base ≤ i) && decide (i < base + best.len)) := by
  rw [ZeroRun.inside, found]

/-- Words of the run behind its first one leave no text. -/
theorem formatLoop_zeros {base i : Nat} {zeros : List Nat} (found : best.base = some base)
    (low : base < i) (high : i + zeros.length ≤ base + best.len) (tmp : List UInt8)
    (rest : List Nat)
    : formatLoop best words quad i tmp (zeros ++ rest)
      = formatLoop best words quad (i + zeros.length) tmp rest := by
  induction zeros generalizing i with
  | nil => rfl
  | cons word zeros ih =>
    rw [length_cons] at high
    have inside : best.inside i = true := by
      rw [inside_eq found, Bool.and_eq_true, decide_eq_true_eq, decide_eq_true_eq]
      omega
    have notFirst : ¬ best.base = some i := by
      rw [found, Option.some.injEq]
      omega
    rw [cons_append, formatLoop, if_pos inside, if_neg notFirst,
      ih (by omega) (by omega), length_cons, Nat.add_assoc, Nat.add_comm 1]

theorem formatLoop_run {base : Nat} (found : best.base = some base) (long : 2 ≤ best.len)
    (tmp : List UInt8) (rest : List Nat)
    : formatLoop best words quad base tmp (List.replicate best.len 0 ++ rest)
      = formatLoop best words quad (base + best.len) (tmp ++ [colonChar]) rest := by
  obtain ⟨len, succ⟩ := Nat.exists_eq_succ_of_ne_zero (show best.len ≠ 0 by omega)
  have inside : best.inside base = true := by
    rw [inside_eq found, Bool.and_eq_true, decide_eq_true_eq, decide_eq_true_eq]
    omega
  have zeros : List.replicate best.len 0 ++ rest = 0 :: (List.replicate len 0 ++ rest) := by
    rw [succ]
    rfl
  rw [zeros, formatLoop, if_pos inside, if_pos found,
    formatLoop_zeros found (Nat.lt_succ_self base) (by rw [length_replicate]; omega),
    length_replicate, succ, Nat.succ_eq_add_one, Nat.add_assoc, Nat.add_comm 1]

theorem formatLoop_full (noRun : best.base = none)
    : formatLoop best words quad 0 [] words
      = some ([colonChar].intercalate (words.map hexText)) := by
  have outside : ∀ j, j < words.length → best.inside j = false := by
    intro j _
    rw [ZeroRun.inside, noRun]
  have noQuad : ∀ j, j < words.length → ¬ (j = 6 ∧ Encapsulated best words) := by
    rintro j _ ⟨-, found, -⟩
    rw [noRun] at found
    cases found
  have text : formatLoop best words quad 0 [] (words ++ []) = _ := formatLoop_left outside noQuad []
  rwa [append_nil] at text

private theorem formatLoop_shortened {left right : List Nat} (found : best.base = some left.length)
    (long : 2 ≤ best.len) (split : words = left ++ List.replicate best.len 0 ++ right)
    (noQuad : ¬ Encapsulated best words)
    : formatLoop best words quad 0 [] words
      = some ([colonChar].intercalate (left.map hexText) ++ [colonChar]
          ++ followingText (right.map hexText)) := by
  have before : ∀ j, j < left.length → best.inside j = false := by
    intro j less
    rw [inside_eq found, decide_eq_false (by omega), Bool.false_and]
  have behind : ∀ j, left.length + best.len ≤ j → j < left.length + best.len + right.length
      → best.inside j = false := by
    intro j low _
    rw [inside_eq found, decide_eq_false (show ¬ j < left.length + best.len by omega),
      Bool.and_false]
  have all : formatLoop best words quad 0 [] words
      = formatLoop best words quad 0 [] (left ++ (List.replicate best.len 0 ++ (right ++ []))) := by
    rw [append_nil, ← append_assoc, ← split]
  rw [all, formatLoop_left before (fun j _ both => noQuad both.2), formatLoop_run found long,
    formatLoop_words behind (fun j _ _ both => noQuad both.2) (by omega), formatLoop]

private theorem formatLoop_quad {mid last : List Nat} (found : Encapsulated best words)
    (long : 2 ≤ best.len) (split : words = List.replicate best.len 0 ++ mid ++ last)
    (six : best.len + mid.length = 6) (nonempty : last ≠ [])
    {text : List UInt8}
    (room : inetNtop4 quad.1 quad.2.1 quad.2.2.1 quad.2.2.2
        (46 - ([colonChar] ++ followingText (mid.map hexText) ++ [colonChar]).length) = some text)
    : formatLoop best words quad 0 [] words
      = some ([colonChar] ++ followingText (mid.map hexText ++ [text])) := by
  have outside : ∀ j, best.len ≤ j → best.inside j = false := by
    intro j low
    rw [inside_eq found.1, decide_eq_false (show ¬ j < 0 + best.len by omega), Bool.and_false]
  have all : formatLoop best words quad 0 [] words
      = formatLoop best words quad 0 [] (List.replicate best.len 0 ++ (mid ++ last)) := by
    rw [← append_assoc, ← split]
  have final : formatLoop best words quad 6 ([colonChar] ++ followingText (mid.map hexText)) last
      = some ([colonChar] ++ followingText (mid.map hexText) ++ [colonChar] ++ text) := by
    obtain ⟨word, rest, rfl⟩ := exists_cons_of_ne_nil nonempty
    rw [formatLoop, if_neg (by rw [outside 6 (by omega)]; exact Bool.false_ne_true)]
    rw [if_pos ⟨rfl, found⟩, if_pos (by decide), room]
    rfl
  rw [all, formatLoop_run found.1 long, Nat.zero_add, nil_append,
    formatLoop_words (fun j low _ => outside j low) (fun j low high both => by omega) (by omega),
    six, final]
  simp [followingText]

end

theorem intercalate_length_le (sep : UInt8) {pieces : List (List UInt8)} {bound : Nat}
    (short : ∀ piece ∈ pieces, piece.length ≤ bound)
    : ([sep].intercalate pieces).length ≤ (bound + 1) * pieces.length := by
  induction pieces with
  | nil => exact Nat.zero_le _
  | cons piece pieces ih =>
    obtain ⟨first, rest⟩ := forall_mem_cons.mp short
    rw [length_cons, Nat.mul_succ]
    by_cases last : pieces = []
    · subst last
      rw [intercalate_singleton]
      omega
    · have more := ih rest
      rw [intercalate_cons_of_ne_nil last, length_append, length_append,
        length_singleton]
      omega

theorem isGroup_map_hexText (small : ∀ word ∈ words, word < 65536)
    : ∀ digits ∈ words.map hexText, IsGroup digits := by
  intro digits member
  obtain ⟨word, inside, rfl⟩ := mem_map.mp member
  exact isGroup_hexText (small word inside)

theorem leftBytes_map_hexText (words : List Nat)
    : leftBytes (words.map hexText) = words.flatMap groupBytes := by
  rw [leftBytes, flatMap_map]
  simp only [hexValue_hexText]

theorem flatMap_replicate_zero (count : Nat)
    : (List.replicate count 0).flatMap groupBytes = List.replicate (2 * count) 0 := by
  induction count with
  | zero => rfl
  | succ count ih =>
    rw [replicate_succ, flatMap_cons, ih, Nat.mul_succ, Nat.add_comm, replicate_add]
    rfl

theorem groupsText_length_le (small : ∀ word ∈ words, word < 65536)
    : ([colonChar].intercalate (words.map hexText)).length ≤ 5 * words.length := by
  have bound := intercalate_length_le colonChar
    fun piece member => (isGroup_map_hexText small piece member).short
  rwa [length_map] at bound

def quadOf (a b c d : UInt8) : List (List UInt8) :=
  [decimalText a.toNat, decimalText b.toNat, decimalText c.toNat, decimalText d.toNat]

section

variable (a b c d : UInt8)
include a

theorem isQuad_quadOf : IsQuad (quadOf a b c d) := by
  refine ⟨rfl, ?_⟩
  simp only [quadOf, forall_mem_cons]
  exact ⟨isOctet_decimalText a, isOctet_decimalText b, isOctet_decimalText c,
    isOctet_decimalText d, by simp⟩

theorem octetBytes_quadOf : octetBytes (quadOf a b c d) = [a, b, c, d] := by
  simp only [octetBytes, quadOf, map_cons, map_nil, decimalValue_decimalText,
    UInt8.ofNat_toNat]

theorem quadText_quadOf_length : (quadText (quadOf a b c d)).length ≤ 16 :=
  intercalate_length_le dotChar fun piece member => ((isQuad_quadOf a b c d).octet piece member).length_le

theorem inetNtop4_quad (size : Nat)
    : inetNtop4 a b c d size
      = if (quadText (quadOf a b c d)).length ≥ size then none else some (quadText (quadOf a b c d)) := by
  simp [inetNtop4, quadText, quadOf, intercalate_cons_cons]

theorem inetNtop4_eq {size : Nat} (room : 16 < size)
    : inetNtop4 a b c d size = some (quadText (quadOf a b c d)) := by
  have length := quadText_quadOf_length a b c d
  rw [inetNtop4_quad, if_neg (by omega)]

end

theorem IsQuad.eq_quadOf {octets : List (List UInt8)} (quad : IsQuad octets) {a b c d : UInt8}
    (bytes : octetBytes octets = [a, b, c, d])
    : octets = quadOf a b c d := by
  have written : ∀ digits ∈ octets, decimalText (UInt8.ofNat (decimalValue digits)).toNat = digits := by
    intro digits member
    obtain ⟨nonempty, decimal, head, small⟩ := quad.octet digits member
    rw [UInt8.toNat_ofNat_of_lt' (Nat.lt_succ_of_le small), decimalText_decimalValue nonempty decimal head]
  calc octets = octets.map fun digits => decimalText (UInt8.ofNat (decimalValue digits)).toNat :=
        ((map_congr_left written).trans (map_id' _)).symm
    _ = (octetBytes octets).map fun byte => decimalText byte.toNat := by
        rw [octetBytes, map_map]
        rfl
    _ = quadOf a b c d := congrArg (List.map fun byte => decimalText byte.toNat) bytes

/-- `inet_ntop4` writes the only text that `inet_pton4` reads as the address, if it has room for it. -/
theorem inetNtop4_iff (a b c d : UInt8) (size : Nat) (text : List UInt8)
    : inetNtop4 a b c d size = some text
      ↔ inetPton4 text = some [a, b, c, d] ∧ text.length < size := by
  rw [inetNtop4_quad, inetPton4_iff]
  constructor
  · intro written
    split at written
    · cases written
    · cases written
      exact ⟨⟨_, isQuad_quadOf a b c d, rfl, octetBytes_quadOf a b c d⟩, by omega⟩
  · rintro ⟨⟨octets, quad, rfl, bytes⟩, room⟩
    rw [← quad.eq_quadOf bytes, if_neg (by omega)]

/-- `quad` of an address whose last bytes are known. -/
theorem getD_quad {front : List UInt8} (length : front.length = 12) (a b c d : UInt8)
    : ((front ++ [a, b, c, d]).getD 12 0, (front ++ [a, b, c, d]).getD 13 0,
        (front ++ [a, b, c, d]).getD 14 0, (front ++ [a, b, c, d]).getD 15 0) = (a, b, c, d) := by
  simp [getD_eq_getElem?_getD, length]

theorem inetNtop6_eq {src tmp text : List UInt8}
    (formatted
      : formatLoop (bestRun (wordsOf src)) (wordsOf src)
          (src.getD 12 0, src.getD 13 0, src.getD 14 0, src.getD 15 0) 0 [] (wordsOf src)
        = some tmp)
    (ended
      : (if (bestRun (wordsOf src)).base.map (· + (bestRun (wordsOf src)).len) = some 8 then
          tmp ++ [colonChar] else tmp) = text)
    (room : text.length ≤ 45)
    : inetNtop6 src 46 = some text := by
  rw [inetNtop6, formatted]
  simp only [Option.bind_eq_bind, Option.bind_some, ended]
  rw [if_neg (by omega)]

variable {src : List UInt8}

private theorem inetNtop6_full (length : src.length = 16) (noRun : (bestRun (wordsOf src)).base = none)
    : ∃ text, inetNtop6 src 46 = some text ∧ IsAddress text src := by
  obtain ⟨count, bytes, small⟩ := wordsOf_bytes (show src.length = 2 * 8 from length)
  have size := groupsText_length_le small
  refine ⟨[colonChar].intercalate ((wordsOf src).map hexText),
    inetNtop6_eq (formatLoop_full noRun) ?_ (by omega), ?_⟩
  · rw [noRun]
    rfl
  let part : Part := ⟨(wordsOf src).map hexText, none⟩
  have text : part.text = [colonChar].intercalate ((wordsOf src).map hexText) := by
    exact congrArg _ (append_nil _)
  have value : part.bytes = src := by
    exact (append_nil _).trans ((leftBytes_map_hexText _).trans bytes)
  have address : IsAddress part.text part.bytes :=
    .full part ⟨isGroup_map_hexText small, by simp [part]⟩ (by simp [part, Part.width, count])
  rwa [text, value] at address

/-- With the longest run of zeros left out, the text still reads as the address. -/
theorem inetNtop6_shortened (length : src.length = 16) {left right : List Nat}
    (found : (bestRun (wordsOf src)).base = some left.length)
    (split : wordsOf src = left ++ List.replicate (bestRun (wordsOf src)).len 0 ++ right)
    (long : 2 ≤ (bestRun (wordsOf src)).len)
    (noQuad : ¬ Encapsulated (bestRun (wordsOf src)) (wordsOf src))
    : ∃ text, inetNtop6 src 46 = some text ∧ IsAddress text src := by
  obtain ⟨count, bytes, small⟩ := wordsOf_bytes (show src.length = 2 * 8 from length)
  have parts : left.length + (bestRun (wordsOf src)).len + right.length = 8 := by
    rw [← count]
    conv_rhs => rw [split]
    rw [length_append, length_append, length_replicate]
  have smallLeft : ∀ word ∈ left, word < 65536 := fun word member =>
    small word (by rw [split]; simp [member])
  have smallRight : ∀ word ∈ right, word < 65536 := fun word member =>
    small word (by rw [split]; simp [member])
  have sizeLeft := groupsText_length_le smallLeft
  have sizeRight := groupsText_length_le smallRight
  let part : Part := ⟨right.map hexText, none⟩
  have text : part.text = [colonChar].intercalate (right.map hexText) := by
    exact congrArg _ (append_nil _)
  refine ⟨[colonChar].intercalate (left.map hexText) ++ [colonChar, colonChar] ++ part.text,
    inetNtop6_eq (formatLoop_shortened found long split noQuad) ?_ ?_, ?_⟩
  · rw [found, text]
    by_cases last : right = []
    · subst last
      rw [if_pos (by exact congrArg some parts)]
      simp [followingText]
    · have positive := length_pos_of_ne_nil last
      have inner : ¬ left.length + (bestRun (wordsOf src)).len = 8 := by omega
      rw [if_neg (by exact fun all => inner (Option.some.inj all)),
        followingText_eq (by simpa using last)]
      simp
  · rw [text]
    simp only [length_append, length_cons, length_nil]
    omega
  · have valid : part.Valid := ⟨isGroup_map_hexText smallRight, by simp [part]⟩
    have width : part.width = right.length := by simp [part, Part.width]
    have address := IsAddress.shortened (left.map hexText) part (isGroup_map_hexText smallLeft)
      valid (by rw [length_map]; omega)
    have value : (Part.mk (left.map hexText) none).bytes
        ++ List.replicate (16 - 2 * ((left.map hexText).length + part.width)) 0 ++ part.bytes
        = src := by
      have before : (Part.mk (left.map hexText) none).bytes = left.flatMap groupBytes :=
        (append_nil _).trans (leftBytes_map_hexText left)
      have behind : part.bytes = right.flatMap groupBytes :=
        (append_nil _).trans (leftBytes_map_hexText right)
      have zeros : 16 - 2 * ((left.map hexText).length + part.width)
          = 2 * (bestRun (wordsOf src)).len := by
        rw [length_map]
        omega
      rw [before, behind, zeros, ← flatMap_replicate_zero, ← flatMap_append,
        ← flatMap_append, ← split, bytes]
    rwa [value] at address

theorem exists_last_two {count : Nat} (length : words.length = count + 2)
    : ∃ mid x y, words = mid ++ [x, y] ∧ mid.length = count := by
  obtain ⟨x, y, last⟩ := length_eq_two.mp
    (show (words.drop count).length = 2 by rw [length_drop]; omega)
  refine ⟨words.take count, x, y, ?_, by rw [length_take]; omega⟩
  rw [← last, take_append_drop]

/-- The form with a dotted quad. -/
theorem inetNtop6_quad (length : src.length = 16)
    (found : Encapsulated (bestRun (wordsOf src)) (wordsOf src)) {right : List Nat}
    (split : wordsOf src = List.replicate (bestRun (wordsOf src)).len 0 ++ right)
    : ∃ text, inetNtop6 src 46 = some text ∧ IsAddress text src := by
  obtain ⟨count, bytes, small⟩ := wordsOf_bytes (show src.length = 2 * 8 from length)
  have parts : (bestRun (wordsOf src)).len + right.length = 8 := by
    rw [← count]
    conv_rhs => rw [split]
    rw [length_append, length_replicate]
  have enough : 5 ≤ (bestRun (wordsOf src)).len ∧ (bestRun (wordsOf src)).len ≤ 6 := by
    rcases found.2 with six | ⟨five, -⟩
    · omega
    · omega
  -- the words between the run and the quad, and the two words of the quad
  obtain ⟨mid, x, y, rfl, midLength⟩ := exists_last_two
    (show right.length = (6 - (bestRun (wordsOf src)).len) + 2 by omega)
  have smallMid : ∀ word ∈ mid, word < 65536 := fun word member =>
    small word (by rw [split]; simp [member])
  have sizeMid := groupsText_length_le smallMid
  let front := (List.replicate (bestRun (wordsOf src)).len 0 ++ mid).flatMap groupBytes
  let octets :=
    quadOf (UInt8.ofNat (x >>> 8)) (UInt8.ofNat x) (UInt8.ofNat (y >>> 8)) (UInt8.ofNat y)
  let part : Part := ⟨mid.map hexText, some octets⟩
  have bytesOf : src = front ++ (groupBytes x ++ groupBytes y) := by
    conv_lhs => rw [← bytes, split]
    simp [front]
  have frontLength : front.length = 12 := by
    rw [show front = leftBytes _ from (leftBytes_map_hexText _).symm, leftBytes_length, length_map, length_append,
      length_replicate]
    omega
  have quad : (src.getD 12 0, src.getD 13 0, src.getD 14 0, src.getD 15 0)
      = (UInt8.ofNat (x >>> 8), UInt8.ofNat x, UInt8.ofNat (y >>> 8), UInt8.ofNat y) := by
    conv_lhs => rw [bytesOf]
    exact getD_quad frontLength _ _ _ _
  have following : followingText (mid.map hexText ++ [quadText octets]) = colonChar :: part.text :=
    followingText_eq (by simp)
  have midText : (followingText (mid.map hexText)).length ≤ 1 + 5 * mid.length := by
    by_cases empty : mid = []
    · subst empty
      exact Nat.zero_le _
    · rw [followingText_eq (by simpa using empty), length_cons]
      omega
  have quadLength : (quadText octets).length ≤ 16 := quadText_quadOf_length _ _ _ _
  have textLength : part.text.length ≤ 40 := by
    have both : (followingText (mid.map hexText ++ [quadText octets])).length
        = (followingText (mid.map hexText)).length + (1 + (quadText octets).length) := by
      simp [followingText]
      omega
    rw [following, length_cons] at both
    omega
  have formatted : formatLoop (bestRun (wordsOf src)) (wordsOf src)
      (src.getD 12 0, src.getD 13 0, src.getD 14 0, src.getD 15 0) 0 [] (wordsOf src)
      = some ([colonChar, colonChar] ++ part.text) := by
    rw [quad, formatLoop_quad found (by omega) (by rw [append_assoc]; exact split) (by omega)
      (by simp) (inetNtop4_eq _ _ _ _ ?_)]
    · exact congrArg (fun rest => some ([colonChar] ++ rest)) following
    · simp only [length_append, length_singleton]
      omega
  refine ⟨[colonChar, colonChar] ++ part.text, inetNtop6_eq formatted ?_ ?_, ?_⟩
  · rw [found.1]
    have inner : ¬ 0 + (bestRun (wordsOf src)).len = 8 := by omega
    rw [if_neg (by exact fun all => inner (Option.some.inj all))]
  · rw [length_append, length_cons, length_singleton]
    omega
  · have valid : part.Valid := ⟨isGroup_map_hexText smallMid, by
      simpa [part] using isQuad_quadOf _ _ _ _⟩
    have width : part.width = mid.length + 2 := by simp [part, Part.width]
    have address := IsAddress.shortened [] part (by simp) valid (by
      rw [length_nil]
      omega)
    have value : (Part.mk [] none).bytes
        ++ List.replicate (16 - 2 * (([] : List (List UInt8)).length + part.width)) 0
        ++ part.bytes = src := by
      have behind : part.bytes = mid.flatMap groupBytes ++ (groupBytes x ++ groupBytes y) := by
        rw [← leftBytes_map_hexText]
        exact congrArg _ (octetBytes_quadOf _ _ _ _)
      have zeros : 16 - 2 * (([] : List (List UInt8)).length + part.width)
          = 2 * (bestRun (wordsOf src)).len := by
        rw [length_nil]
        omega
      rw [behind, zeros, ← flatMap_replicate_zero]
      refine Eq.trans ?_ bytesOf.symm
      simp [front, Part.bytes]
    rw [value] at address
    exact address

theorem inetNtop6_isAddress (length : src.length = 16)
    : ∃ text, inetNtop6 src 46 = some text ∧ IsAddress text src := by
  cases run : (bestRun (wordsOf src)).base with
  | none => exact inetNtop6_full length run
  | some base =>
    obtain ⟨left, right, split, rfl, long⟩ := bestRun_spec run
    by_cases quad : Encapsulated (bestRun (wordsOf src)) (wordsOf src)
    · have front : left.length = 0 := Option.some.inj (run.symm.trans quad.1)
      rw [eq_nil_of_length_eq_zero front] at split
      exact inetNtop6_quad length quad split
    · exact inetNtop6_shortened length run split long quad

theorem inetPton6_of_isAddress {text bytes : List UInt8} (address : IsAddress text bytes)
    (dst : List UInt8)
    : inetPton6 text dst = (1, bytes) := by
  rw [inetPton6, (pton6_iff text bytes).mpr address]

/-- Every address is written in 46 bytes and read back, the accepted texts are those of addresses,
and a rejected text leaves the destination alone.
-/
theorem inet6_text (address : Vector UInt8 in6addrsz) (src dst : List UInt8)
    : (∃ text, inetNtop6 address.toList 46 = some text ∧ inetPton6 text dst = (1, address.toList))
      ∧ ((inetPton6 src dst).1 = 1 ↔ ∃ bytes, IsAddress src bytes)
      ∧ (∀ bytes, IsAddress src bytes → inetPton6 src dst = (1, bytes))
      ∧ ((inetPton6 src dst).1 ≠ 1 → inetPton6 src dst = (0, dst)) := by
  refine ⟨?_, ?_, fun bytes text => inetPton6_of_isAddress text dst, ?_⟩
  · obtain ⟨text, written, isAddress⟩ := inetNtop6_isAddress address.length_toList
    exact ⟨text, written, inetPton6_of_isAddress isAddress dst⟩
  · constructor
    · intro accepted
      rw [inetPton6] at accepted
      cases read : pton6 src with
      | none =>
        rw [read] at accepted
        cases accepted
      | some bytes => exact ⟨bytes, (pton6_iff src bytes).mp read⟩
    · rintro ⟨bytes, text⟩
      rw [inetPton6_of_isAddress text dst]
  · intro rejected
    rw [inetPton6] at rejected ⊢
    cases read : pton6 src with
    | none => rfl
    | some bytes =>
      rw [read] at rejected
      exact absurd rfl rejected

end Nglibc.Resolv
