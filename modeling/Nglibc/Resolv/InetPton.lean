import Mathlib.Tactic

/-! `inet_pton` of `resolv/inet_pton.c` and `inet_ntop` of `resolv/inet_ntop.c` for IPv6
addresses, with the IPv4 functions that they use. Texts are the bytes before the null terminator.
-/

namespace Nglibc.Resolv

open List

def colonChar : UInt8 := 58

def dotChar : UInt8 := 46

/-- `NS_IN6ADDRSZ`. -/
def in6addrsz : Nat := 16

/-- `NS_INADDRSZ`. -/
def inaddrsz : Nat := 4

/-- The loop of `inet_pton4` with what follows it: `octets` are the numbers before the current
one, whose value so far is `current`; `count` is the variable `octets`.
-/
def pton4Loop (sawDigit : Bool) (count : Nat) (octets : List UInt8) (current : Nat)
    : List UInt8 → Option (List UInt8)
  | [] => if count < 4 then none else some (octets ++ [UInt8.ofNat current])
  | ch :: src =>
    if 48 ≤ ch ∧ ch ≤ 57 then
      let new := current * 10 + (ch.toNat - 48)
      if sawDigit ∧ current = 0 then none
      else if new > 255 then none
      else if sawDigit then pton4Loop true count octets new src
      else if count + 1 > 4 then none
      else pton4Loop true (count + 1) octets new src
    else if ch = dotChar ∧ sawDigit then
      if count = 4 then none
      else pton4Loop false count (octets ++ [UInt8.ofNat current]) 0 src
    else none

/-- `inet_pton4`; `none` is the return value 0. -/
def inetPton4 (src : List UInt8) : Option (List UInt8) := pton4Loop false 0 [] 0 src

/-- `hex_digit_value`; `none` is -1. -/
def hexDigitValue (ch : UInt8) : Option Nat :=
  if 48 ≤ ch ∧ ch ≤ 57 then some (ch.toNat - 48)
  else if 97 ≤ ch ∧ ch ≤ 102 then some (ch.toNat - 97 + 10)
  else if 65 ≤ ch ∧ ch ≤ 70 then some (ch.toNat - 65 + 10)
  else none

/-- The variables of `inet_pton6`: the bytes of `tmp` before `tp`, the offset of `colonp`, the text
from `curtok` on, and the current group.
-/
structure Pton6 where
  tmp : List UInt8
  colonp : Option Nat
  curtok : List UInt8
  xdigitsSeen : Nat
  val : Nat

def groupBytes (val : Nat) : List UInt8 := [UInt8.ofNat (val >>> 8), UInt8.ofNat val]

/-- The loop of `inet_pton6`; `none` is the return value 0. -/
def pton6Loop (s : Pton6) : List UInt8 → Option Pton6
  | [] => some s
  | ch :: src =>
    match hexDigitValue ch with
    | some digit =>
      if s.xdigitsSeen = 4 then none
      else
        let val := (s.val <<< 4) ||| digit
        if val > 0xffff then none
        else pton6Loop { s with val, xdigitsSeen := s.xdigitsSeen + 1 } src
    | none =>
      if ch = colonChar then
        if s.xdigitsSeen = 0 then
          if s.colonp.isSome then none
          else pton6Loop { s with curtok := src, colonp := some s.tmp.length } src
        else if src = [] then none
        else if s.tmp.length + 2 > in6addrsz then none
        else
          pton6Loop
            { s with
              curtok := src,
              tmp := s.tmp ++ groupBytes s.val,
              xdigitsSeen := 0,
              val := 0 } src
      else if ch = dotChar ∧ s.tmp.length + inaddrsz ≤ in6addrsz then
        match inetPton4 s.curtok with
        | none => none
        | some octets => some { s with tmp := s.tmp ++ octets, xdigitsSeen := 0 }
      else none

/-- What `inet_pton6` does after its loop: the last group, and the zeros for `::`. -/
def pton6End (s : Pton6) : Option (List UInt8) := do
  let tmp ←
    if s.xdigitsSeen > 0 then
      if s.tmp.length + 2 > in6addrsz then none else some (s.tmp ++ groupBytes s.val)
    else some s.tmp
  match s.colonp with
  | some colonp =>
    if tmp.length = in6addrsz then none
    else
      -- the bytes behind `colonp` move to the end of `tmp`
      some (tmp.take colonp ++ List.replicate (in6addrsz - tmp.length) 0 ++ tmp.drop colonp)
  | none => if tmp.length ≠ in6addrsz then none else some tmp

/-- `inet_pton6` up to its copy to `dst`. -/
def pton6 (src : List UInt8) : Option (List UInt8) :=
  match src with
  | [] => none
  | ch :: rest =>
    let start (src : List UInt8) : Pton6 :=
      { tmp := [], colonp := none, curtok := src, xdigitsSeen := 0, val := 0 }
    if ch = colonChar then
      if rest.head? = some colonChar then (pton6Loop (start rest) rest).bind pton6End else none
    else (pton6Loop (start src) src).bind pton6End

/-- `inet_pton (AF_INET6, src, dst)`: the return value and the bytes at `dst` afterwards. -/
def inetPton6 (src dst : List UInt8) : Nat × List UInt8 :=
  match pton6 src with
  | none => (0, dst)
  | some bytes => (1, bytes)

/-- `sprintf` of `%u`. -/
def decimalText (n : Nat) : List UInt8 :=
  if n < 10 then [UInt8.ofNat (48 + n)]
  else decimalText (n / 10) ++ [UInt8.ofNat (48 + n % 10)]

/-- A digit of `%x`. -/
def hexChar (n : Nat) : UInt8 := if n < 10 then UInt8.ofNat (48 + n) else UInt8.ofNat (87 + n)

/-- `sprintf` of `%x`. -/
def hexText (n : Nat) : List UInt8 :=
  if n < 16 then [hexChar n] else hexText (n / 16) ++ [hexChar (n % 16)]

/-- `inet_ntop4`; `none` is `NULL`. -/
def inetNtop4 (a b c d : UInt8) (size : Nat) : Option (List UInt8) :=
  let tmp := decimalText a.toNat ++ [dotChar] ++ decimalText b.toNat ++ [dotChar]
    ++ decimalText c.toNat ++ [dotChar] ++ decimalText d.toNat
  if tmp.length ≥ size then none else some tmp

/-- A run of zero words; the base -1 is `none`. -/
structure ZeroRun where
  base : Option Nat
  len : Nat
deriving DecidableEq

/-- `best` after the run `cur` has ended. -/
def betterRun (best cur : ZeroRun) : ZeroRun :=
  if cur.base.isSome then
    if best.base.isNone ∨ cur.len > best.len then cur else best
  else best

/-- The search for the longest run of zero words, from word `i` on. -/
def findRun (best cur : ZeroRun) (i : Nat) : List Nat → ZeroRun
  | [] => betterRun best cur
  | word :: words =>
    if word = 0 then
      if cur.base.isNone then findRun best { base := some i, len := 1 } (i + 1) words
      else findRun best { cur with len := cur.len + 1 } (i + 1) words
    else if cur.base.isSome then
      findRun (betterRun best cur) { cur with base := none } (i + 1) words
    else findRun best cur (i + 1) words

/-- `best` as it is used for the text: runs of one word are not shortened. -/
def bestRun (words : List Nat) : ZeroRun :=
  let best := findRun { base := none, len := 0 } { base := none, len := 0 } 0 words
  if best.base.isSome ∧ best.len < 2 then { best with base := none } else best

/-- Word `i` is inside the run. -/
def ZeroRun.inside (best : ZeroRun) (i : Nat) : Bool :=
  match best.base with
  | none => false
  | some base => base ≤ i && i < base + best.len

/-- The loop that formats the words from word `i` on behind the text `tmp`; `quad` are the last
four bytes of the address.
-/
def formatLoop (best : ZeroRun) (words : List Nat) (quad : UInt8 × UInt8 × UInt8 × UInt8)
    (i : Nat) (tmp : List UInt8) : List Nat → Option (List UInt8)
  | [] => some tmp
  | word :: rest =>
    if best.inside i then
      formatLoop best words quad (i + 1) (if best.base = some i then tmp ++ [colonChar] else tmp)
        rest
    else
      let tmp := if i ≠ 0 then tmp ++ [colonChar] else tmp
      if i = 6 ∧ best.base = some 0 ∧ (best.len = 6 ∨ best.len = 5 ∧ words[5]? = some 0xffff) then
        (inetNtop4 quad.1 quad.2.1 quad.2.2.1 quad.2.2.2 (46 - tmp.length)).map (tmp ++ ·)
      else formatLoop best words quad (i + 1) (tmp ++ hexText word) rest

/-- `words` of an address. -/
def wordsOf : List UInt8 → List Nat
  | high :: low :: src => ((high.toNat <<< 8) ||| low.toNat) :: wordsOf src
  | _ => []

/-- `inet_ntop6`; the text without its null terminator, `none` for `NULL`. -/
def inetNtop6 (src : List UInt8) (size : Nat) : Option (List UInt8) := do
  let words := wordsOf src
  let best := bestRun words
  let quad := (src.getD 12 0, src.getD 13 0, src.getD 14 0, src.getD 15 0)
  let tmp ← formatLoop best words quad 0 [] words
  let tmp := if best.base.map (· + best.len) = some 8 then tmp ++ [colonChar] else tmp
  if tmp.length + 1 > size then none else some tmp

/-! Dotted quads: `inet_pton4` accepts exactly the four decimal octets without leading zeros. -/

def digitsValue (base : Nat) (value : UInt8 → Nat) (digits : List UInt8) : Nat :=
  digits.foldl (fun sum ch => sum * base + value ch) 0

theorem digitsValue_concat (base : Nat) (value : UInt8 → Nat) (digits : List UInt8) (ch : UInt8)
    : digitsValue base value (digits ++ [ch])
      = digitsValue base value digits * base + value ch := by
  rw [digitsValue, foldl_concat]
  rfl

def IsDecimal (ch : UInt8) : Prop := 48 ≤ ch ∧ ch ≤ 57

def decimalValue : List UInt8 → Nat := digitsValue 10 fun ch => ch.toNat - 48

/-- The text of a number of at most 255, without leading zeros. -/
structure IsOctet (digits : List UInt8) : Prop where
  nonempty : digits ≠ []
  decimal : ∀ ch ∈ digits, IsDecimal ch
  noLeadingZero : digits.head? = some 48 → digits.length = 1
  small : decimalValue digits ≤ 255

/-- The text of a strict dotted quad and its four bytes. -/
structure IsQuad (octets : List (List UInt8)) : Prop where
  length : octets.length = 4
  octet : ∀ digits ∈ octets, IsOctet digits

def quadText (octets : List (List UInt8)) : List UInt8 := [dotChar].intercalate octets

def octetBytes (octets : List (List UInt8)) : List UInt8 :=
  octets.map fun digits => UInt8.ofNat (decimalValue digits)

theorem decimalValue_concat (digits : List UInt8) (ch : UInt8)
    : decimalValue (digits ++ [ch]) = decimalValue digits * 10 + (ch.toNat - 48) :=
  digitsValue_concat 10 _ digits ch

theorem decimalValue_append_le (digits more : List UInt8)
    : decimalValue digits ≤ decimalValue (digits ++ more) := by
  induction more using List.reverseRecOn with
  | nil => rw [append_nil]
  | append_singleton more ch ih =>
    rw [← append_assoc, decimalValue_concat]
    omega

theorem not_isDecimal_dotChar : ¬ IsDecimal dotChar := by
  unfold IsDecimal
  decide

variable {digits : List UInt8}

theorem head_of_decimalValue_zero (nonempty : digits ≠ []) (decimal : ∀ ch ∈ digits, IsDecimal ch)
    (zero : decimalValue digits = 0)
    : digits.head? = some 48 := by
  obtain ⟨ch, rest, rfl⟩ := exists_cons_of_ne_nil nonempty
  have head : decimalValue [ch] = 0 := Nat.le_zero.mp (zero ▸ decimalValue_append_le [ch] rest)
  have value : ch.toNat - 48 = 0 := by simpa [decimalValue, digitsValue] using head
  have bound : 48 ≤ ch.toNat := (decimal ch (mem_cons_self ..)).1
  rw [head?_cons, ← UInt8.toNat_inj.mp (show ch.toNat = (48 : UInt8).toNat by
    change ch.toNat = 48
    omega)]

/-- Digits without a leading zero stand for a number that grows with their count. -/
theorem pow_length_le_decimalValue (nonempty : digits ≠ []) (decimal : ∀ ch ∈ digits, IsDecimal ch)
    (head : digits.head? ≠ some 48)
    : 10 ^ digits.length ≤ 10 * decimalValue digits := by
  induction digits using List.reverseRecOn with
  | nil => exact absurd rfl nonempty
  | append_singleton digits ch ih =>
    rw [decimalValue_concat, length_append, length_singleton]
    by_cases first : digits = []
    · subst first
      have low : 48 ≤ ch.toNat := (decimal ch (by simp)).1
      have other : ch.toNat ≠ 48 := fun same =>
        head (congrArg some (UInt8.toNat_inj.mp (show ch.toNat = (48 : UInt8).toNat from same)))
      rw [length_nil]
      omega
    · have before := ih first (fun other member => decimal other (by simp [member])) (by
        rwa [head?_append_of_ne_nil _ first] at head)
      omega

theorem IsOctet.length_le {digits : List UInt8} (octet : IsOctet digits) : digits.length ≤ 3 := by
  by_cases head : digits.head? = some 48
  · rw [octet.noLeadingZero head]
    decide
  · have grows := pow_length_le_decimalValue octet.nonempty octet.decimal head
    have small := octet.small
    by_contra long
    have power : 10 ^ 4 ≤ 10 ^ digits.length := Nat.pow_le_pow_right (by decide) (by omega)
    omega

/-- The state of the loop behind the octets `octets` and the digits `tok` of the next one. -/
def pton4At (octets : List UInt8) (tok : List UInt8) (src : List UInt8) : Option (List UInt8) :=
  pton4Loop (tok ≠ []) (octets.length + if tok = [] then 0 else 1) octets (decimalValue tok) src

def Begun (octets : List UInt8) (tok : List UInt8) : Prop :=
  octets.length ≤ 3 ∧ (tok = [] ∨ IsOctet tok)

theorem isOctet_singleton {ch : UInt8} (decimal : IsDecimal ch) : IsOctet [ch] := by
  have bound : ch.toNat ≤ 57 := decimal.2
  refine ⟨by simp, ?_, fun _ => rfl, ?_⟩
  · intro other member
    rw [mem_singleton.mp member]
    exact decimal
  · have value : decimalValue [ch] = ch.toNat - 48 := by simp [decimalValue, digitsValue]
    omega

variable {ch : UInt8}

theorem isOctet_concat {tok : List UInt8} (octet : IsOctet tok) (decimal : IsDecimal ch)
    (nonzero : decimalValue tok ≠ 0) (small : decimalValue (tok ++ [ch]) ≤ 255)
    : IsOctet (tok ++ [ch]) := by
  refine ⟨by simp, ?_, ?_, small⟩
  · intro other member
    rcases mem_append.mp member with member | member
    · exact octet.decimal other member
    · rw [mem_singleton.mp member]
      exact decimal
  · intro head
    rw [head?_append_of_ne_nil _ octet.nonempty] at head
    obtain ⟨digit, rfl⟩ := length_eq_one_iff.mp (octet.noLeadingZero head)
    rw [head?_cons, Option.some.injEq] at head
    subst head
    exact absurd rfl nonzero

variable {octets tok : List UInt8}

theorem pton4At_digit (begun : Begun octets tok) (decimal : IsDecimal ch) (src : List UInt8)
    : pton4At octets tok (ch :: src)
      = if (tok ≠ [] ∧ decimalValue tok = 0) ∨ decimalValue (tok ++ [ch]) > 255 then none
        else pton4At octets (tok ++ [ch]) src := by
  have few := begun.1
  have more : tok ++ [ch] ≠ [] := by simp
  unfold pton4At
  rw [pton4Loop, if_pos (show 48 ≤ ch ∧ ch ≤ 57 from decimal)]
  rw [← decimalValue_concat, if_neg more]
  by_cases leading : tok ≠ [] ∧ decimalValue tok = 0
  · rw [if_pos (by simpa using leading), if_pos (.inl leading)]
  · rw [if_neg (by simpa using leading)]
    by_cases large : decimalValue (tok ++ [ch]) > 255
    · rw [if_pos large, if_pos (.inr large)]
    · rw [if_neg large, if_neg (not_or.mpr ⟨leading, large⟩)]
      by_cases empty : tok = []
      · rw [if_neg (by simpa using empty), if_pos empty, if_neg (by omega)]
        simp only [more, decide_true, ne_eq, not_false_eq_true, Nat.add_zero]
      · rw [if_pos (by simpa using empty), if_neg empty]
        simp only [more, decide_true, ne_eq, not_false_eq_true]

theorem pton4At_dot (octets tok src : List UInt8)
    : pton4At octets tok (dotChar :: src) = if tok = [] ∨ octets.length = 3 then none
        else pton4At (octets ++ [UInt8.ofNat (decimalValue tok)]) [] src := by
  unfold pton4At
  rw [pton4Loop, if_neg (show ¬ (48 ≤ dotChar ∧ dotChar ≤ 57) from not_isDecimal_dotChar)]
  by_cases empty : tok = []
  · rw [if_neg (by simpa using empty), if_pos (.inl empty)]
  · rw [if_pos (by simpa using empty), if_neg empty]
    by_cases last : octets.length = 3
    · rw [if_pos (by omega), if_pos (.inr last)]
    · rw [if_neg (by omega), if_neg (by tauto), length_append]
      rfl

theorem pton4At_other (decimal : ¬ IsDecimal ch) (dot : ch ≠ dotChar) (src : List UInt8)
    : pton4At octets tok (ch :: src) = none := by
  unfold pton4At
  rw [pton4Loop, if_neg (show ¬ (48 ≤ ch ∧ ch ≤ 57) from decimal), if_neg (by tauto)]

/-- What the end of the text does. -/
theorem pton4At_nil (begun : Begun octets tok)
    : pton4At octets tok [] = if tok = [] ∨ octets.length < 3 then none
        else some (octets ++ [UInt8.ofNat (decimalValue tok)]) := by
  unfold pton4At
  rw [pton4Loop]
  by_cases empty : tok = []
  · have few := begun.1
    rw [if_pos empty, if_pos (by omega), if_pos (.inl empty)]
  · rw [if_neg empty]
    by_cases few : octets.length < 3
    · rw [if_pos (by omega), if_pos (.inr few)]
    · rw [if_neg (by omega), if_neg (by tauto)]

/-- The loop accepts octets separated by single dots. The digits of the current octet stand before
the rest of the text in the statement, so that the induction is on the rest.
-/
theorem pton4At_sound {octets tok src out : List UInt8} (begun : Begun octets tok)
    (accepted : pton4At octets tok src = some out)
    : ∃ more : List (List UInt8),
        octets.length + more.length = 4 ∧ (∀ digits ∈ more, IsOctet digits)
        ∧ quadText more = tok ++ src ∧ out = octets ++ octetBytes more := by
  induction src generalizing octets tok with
  | nil =>
    rw [pton4At_nil begun] at accepted
    split at accepted
    · cases accepted
    · rename_i unfinished
      have few := begun.1
      have octet : IsOctet tok := begun.2.resolve_left fun empty => unfinished (.inl empty)
      refine ⟨[tok], by simp; omega, ?_, ?_, (Option.some.inj accepted).symm⟩
      · intro digits member
        rw [mem_singleton.mp member]
        exact octet
      · rw [quadText, intercalate_singleton, append_nil]
  | cons ch src ih =>
    by_cases decimal : IsDecimal ch
    · rw [pton4At_digit begun decimal] at accepted
      split at accepted
      · cases accepted
      · rename_i fine
        obtain ⟨leading, small⟩ := not_or.mp fine
        have octet : IsOctet (tok ++ [ch]) := by
          rcases begun.2 with rfl | octet
          · exact isOctet_singleton decimal
          · exact isOctet_concat octet decimal (fun zero => leading ⟨octet.nonempty, zero⟩)
              (Nat.not_lt.mp small)
        obtain ⟨more, length, octetsOf, text, result⟩ := ih ⟨begun.1, .inr octet⟩ accepted
        exact ⟨more, length, octetsOf, by rw [text, append_assoc]; rfl, result⟩
    · by_cases dot : ch = dotChar
      · subst dot
        rw [pton4At_dot] at accepted
        split at accepted
        · cases accepted
        · rename_i fine
          obtain ⟨nonempty, short⟩ := not_or.mp fine
          have few := begun.1
          obtain ⟨more, length, octetsOf, text, result⟩ :=
            ih ⟨by rw [length_append, length_singleton]; omega, .inl rfl⟩ accepted
          rw [length_append, length_singleton] at length
          have others : more ≠ [] := fun empty => by
            rw [empty, length_nil] at length
            omega
          refine ⟨tok :: more, by rw [length_cons]; omega, ?_, ?_, ?_⟩
          · exact forall_mem_cons.mpr ⟨begun.2.resolve_left nonempty, octetsOf⟩
          · rw [quadText, intercalate_cons_of_ne_nil others, append_assoc]
            exact congrArg (fun rest => tok ++ dotChar :: rest) text
          · rw [result, append_assoc]
            rfl
      · rw [pton4At_other decimal dot] at accepted
        cases accepted

/-- The loop reads the digits of an octet. -/
theorem pton4At_octet {octets tok digits : List UInt8} (few : octets.length ≤ 3)
    (begun : tok = [] ∨ IsOctet tok) (octet : IsOctet (tok ++ digits)) (src : List UInt8)
    : pton4At octets tok (digits ++ src) = pton4At octets (tok ++ digits) src := by
  induction digits generalizing tok with
  | nil => rw [nil_append, append_nil]
  | cons ch digits ih =>
    have decimal : IsDecimal ch := octet.decimal ch (by simp)
    have all : tok ++ ch :: digits = tok ++ [ch] ++ digits := by simp
    rw [all] at octet ⊢
    have small : decimalValue (tok ++ [ch]) ≤ 255 :=
      (decimalValue_append_le _ digits).trans octet.small
    have leading : ¬ (tok ≠ [] ∧ decimalValue tok = 0) := by
      rintro ⟨nonempty, zero⟩
      have head := head_of_decimalValue_zero nonempty
        (fun other member => octet.decimal other (by simp [member])) zero
      have length := octet.noLeadingZero (by
        rw [append_assoc, head?_append_of_ne_nil _ nonempty]
        exact head)
      have positive := length_pos_of_ne_nil nonempty
      simp only [length_append, length_singleton] at length
      omega
    have longer : IsOctet (tok ++ [ch]) := by
      rcases begun with rfl | begun
      · exact isOctet_singleton decimal
      · exact isOctet_concat begun decimal (fun zero => leading ⟨begun.nonempty, zero⟩) small
    rw [cons_append, pton4At_digit ⟨few, begun⟩ decimal,
      if_neg (not_or.mpr ⟨leading, Nat.not_lt.mpr small⟩)]
    exact ih (.inr longer) octet

private theorem pton4At_complete {octets : List UInt8} {more : List (List UInt8)} (nonempty : more ≠ [])
    (length : octets.length + more.length = 4) (octetsOf : ∀ digits ∈ more, IsOctet digits)
    : pton4At octets [] (quadText more) = some (octets ++ octetBytes more) := by
  induction more generalizing octets with
  | nil => exact absurd rfl nonempty
  | cons digits more ih =>
    rw [length_cons] at length
    have octet : IsOctet digits := octetsOf digits (mem_cons_self ..)
    have few : octets.length ≤ 3 := by omega
    by_cases last : more = []
    · subst last
      rw [length_nil] at length
      have read := pton4At_octet few (.inl rfl) octet []
      rw [append_nil, nil_append] at read
      rw [quadText, intercalate_singleton, read, pton4At_nil ⟨few, .inr octet⟩,
        if_neg (not_or.mpr ⟨octet.nonempty, by omega⟩)]
      rfl
    · have positive := length_pos_of_ne_nil last
      have read := pton4At_octet few (.inl rfl) octet (dotChar :: quadText more)
      rw [nil_append] at read
      have text : quadText (digits :: more) = digits ++ dotChar :: quadText more := by
        rw [quadText, intercalate_cons_of_ne_nil last, append_assoc]
        rfl
      rw [text, read, pton4At_dot, if_neg (not_or.mpr ⟨octet.nonempty, by omega⟩),
        ih last (by rw [length_append, length_singleton]; omega)
          fun other member => octetsOf other (mem_cons_of_mem _ member),
        append_assoc]
      rfl

theorem inetPton4_iff (src out : List UInt8)
    : inetPton4 src = some out
      ↔ ∃ octets, IsQuad octets ∧ quadText octets = src ∧ octetBytes octets = out := by
  constructor
  · intro accepted
    have begun : Begun [] [] := ⟨Nat.zero_le 3, .inl rfl⟩
    obtain ⟨octets, length, octetsOf, text, result⟩ := pton4At_sound begun accepted
    rw [length_nil, Nat.zero_add] at length
    exact ⟨octets, ⟨length, octetsOf⟩, text, result.symm⟩
  · rintro ⟨octets, quad, rfl, rfl⟩
    have nonempty : octets ≠ [] := fun empty => by
      have length := quad.length
      rw [empty] at length
      cases length
    have length := quad.length
    exact pton4At_complete nonempty (by rw [length_nil]; omega) quad.octet

end Nglibc.Resolv
