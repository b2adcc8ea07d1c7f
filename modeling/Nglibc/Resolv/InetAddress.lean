import Nglibc.Resolv.InetPton

/-! The texts of IPv6 addresses: `inet_pton6` accepts eight groups of hexadecimal digits, or fewer
with one `::`, where a strict dotted quad may stand for the last two groups.
-/

namespace Nglibc.Resolv

open List

/-! Groups and parts -/

structure IsGroup (digits : List UInt8) : Prop where
  nonempty : digits ≠ []
  short : digits.length ≤ 4
  hex : ∀ ch ∈ digits, (hexDigitValue ch).isSome

def hexValue : List UInt8 → Nat := digitsValue 16 fun ch => (hexDigitValue ch).getD 0

/-- Groups, and the dotted quad behind them if there is one. -/
structure Part where
  groups : List (List UInt8)
  quad : Option (List (List UInt8))

namespace Part

def pieces (part : Part) : List (List UInt8) := part.groups ++ (part.quad.map quadText).toList

def text (part : Part) : List UInt8 := [colonChar].intercalate part.pieces

def width (part : Part) : Nat := part.groups.length + if part.quad.isSome then 2 else 0

def bytes (part : Part) : List UInt8 :=
  part.groups.flatMap (fun digits => groupBytes (hexValue digits))
  ++ (part.quad.map octetBytes).getD []

structure Valid (part : Part) : Prop where
  group : ∀ digits ∈ part.groups, IsGroup digits
  quad : ∀ octets ∈ part.quad, IsQuad octets

end Part

/-- The texts of IPv6 addresses with the bytes that they denote. -/
inductive IsAddress : List UInt8 → List UInt8 → Prop where
  | full (part : Part)
    : part.Valid → part.width = 8 → IsAddress part.text part.bytes
  | shortened (left : List (List UInt8)) (right : Part)
    : (∀ digits ∈ left, IsGroup digits) → right.Valid → left.length + right.width ≤ 7 → IsAddress
          ([colonChar].intercalate left ++ [colonChar, colonChar] ++ right.text)
          ((Part.mk left none).bytes ++ List.replicate (16 - 2 * (left.length + right.width)) 0
            ++ right.bytes)

/-! One token of inet_pton6 -/

variable {ch : UInt8} {digits : List UInt8} {octets : List (List UInt8)} {left : List (List UInt8)}
  {part : Part}

theorem hexValue_concat (digits : List UInt8) {digit : Nat} (hex : hexDigitValue ch = some digit)
    : hexValue (digits ++ [ch]) = hexValue digits * 16 + digit := by
  rw [hexValue, digitsValue_concat, hex]
  rfl

theorem hexDigitValue_lt {digit : Nat} (hex : hexDigitValue ch = some digit)
    : digit < 16 := by
  unfold hexDigitValue at hex
  split at hex
  · rename_i range
    have bound : ch.toNat ≤ 57 := range.2
    cases hex
    omega
  · split at hex
    · rename_i range
      have bound : ch.toNat ≤ 102 := range.2
      cases hex
      omega
    · split at hex
      · rename_i range
        have bound : ch.toNat ≤ 70 := range.2
        cases hex
        omega
      · cases hex

theorem hexValue_lt (hex : ∀ ch ∈ digits, (hexDigitValue ch).isSome)
    : hexValue digits < 16 ^ digits.length := by
  induction digits using List.reverseRecOn with
  | nil => exact Nat.one_pos
  | append_singleton digits ch ih =>
    obtain ⟨digit, value⟩ := Option.isSome_iff_exists.mp (hex ch (by simp))
    have before := ih fun other member => hex other (by simp [member])
    have small := hexDigitValue_lt value
    rw [hexValue_concat _ value, length_append, length_singleton]
    omega

/-- The loop with what follows it, in the state behind the digits `tok` of a group. -/
def pton6At (tmp : List UInt8) (colonp : Option Nat) (tok src : List UInt8)
    : Option (List UInt8) :=
  (pton6Loop
    { tmp, colonp, curtok := tok ++ src, xdigitsSeen := tok.length, val := hexValue tok }
    src).bind pton6End

theorem hexDigitValue_colonChar : hexDigitValue colonChar = none := by decide

theorem shift_or_digit {val digit : Nat} (small : digit < 16)
    : (val <<< 4) ||| digit = val * 16 + digit := by
  rw [← Nat.shiftLeft_add_eq_or_of_lt (show digit < 2 ^ 4 from small), Nat.shiftLeft_eq]

theorem pton6At_digit (tmp : List UInt8) (colonp : Option Nat) {tok : List UInt8} (src : List UInt8)
    (hex : (hexDigitValue ch).isSome) (before : ∀ other ∈ tok, (hexDigitValue other).isSome)
    (short : tok.length ≤ 4)
    : pton6At tmp colonp tok (ch :: src)
      = if tok.length = 4 then none else pton6At tmp colonp (tok ++ [ch]) src := by
  obtain ⟨digit, value⟩ := Option.isSome_iff_exists.mp hex
  have small := hexDigitValue_lt value
  unfold pton6At
  rw [pton6Loop, value]
  dsimp only
  by_cases full : tok.length = 4
  · rw [if_pos full, if_pos full]
    rfl
  · have all : ∀ other ∈ tok ++ [ch], (hexDigitValue other).isSome := by
      intro other member
      rcases mem_append.mp member with member | member
      · exact before other member
      · rw [mem_singleton.mp member]
        exact hex
    have bound : hexValue (tok ++ [ch]) < 16 ^ 4 :=
      (hexValue_lt all).trans_le (Nat.pow_le_pow_right (by decide) (by simp; omega))
    rw [if_neg full, if_neg full, shift_or_digit small, ← hexValue_concat _ value,
      if_neg (by omega), length_append, append_assoc]
    rfl

/-- What a colon does. -/
theorem pton6At_colon (tmp : List UInt8) (colonp : Option Nat) (tok src : List UInt8)
    : pton6At tmp colonp tok (colonChar :: src) = if tok = [] then
          if colonp.isSome then none else pton6At tmp (some tmp.length) [] src
        else if src = [] ∨ tmp.length + 2 > 16 then none
        else pton6At (tmp ++ groupBytes (hexValue tok)) colonp [] src := by
  unfold pton6At
  rw [pton6Loop, hexDigitValue_colonChar]
  dsimp only
  rw [if_pos rfl]
  by_cases empty : tok = []
  · subst empty
    rw [if_pos length_nil]
    split
    · rfl
    · rfl
  · rw [if_neg (by simpa using empty), if_neg empty]
    by_cases last : src = []
    · rw [if_pos last, if_pos (.inl last)]
      rfl
    · rw [if_neg last]
      by_cases full : tmp.length + 2 > 16
      · rw [if_pos (show tmp.length + 2 > in6addrsz from full), if_pos (.inr full)]
        rfl
      · rw [if_neg (show ¬ tmp.length + 2 > in6addrsz from full), if_neg (not_or.mpr ⟨last, full⟩)]
        rfl

/-- The bytes of an address when those of its text are known. -/
def expanded (tmp : List UInt8) : Option Nat → Option (List UInt8)
  | none => if tmp.length ≠ 16 then none else some tmp
  | some colonp =>
    if tmp.length = 16 then none
    else some (tmp.take colonp ++ List.replicate (16 - tmp.length) 0 ++ tmp.drop colonp)

theorem pton6At_dot (tmp : List UInt8) (colonp : Option Nat) (tok src : List UInt8)
    : pton6At tmp colonp tok (dotChar :: src) = if tmp.length + 4 ≤ 16 then
          (inetPton4 (tok ++ dotChar :: src)).bind fun octets => expanded (tmp ++ octets) colonp
        else none := by
  unfold pton6At
  rw [pton6Loop]
  rw [if_neg (by decide)]
  by_cases room : tmp.length + 4 ≤ 16
  · rw [if_pos ⟨rfl, room⟩, if_pos room]
    cases inetPton4 (tok ++ dotChar :: src) with
    | none => rfl
    | some octets =>
      cases colonp with
      | none => rfl
      | some colonp => rfl
  · rw [if_neg fun both => room both.2, if_neg room]
    rfl

theorem pton6At_other (tmp : List UInt8) (colonp : Option Nat) (tok : List UInt8) (src : List UInt8)
    (hex : hexDigitValue ch = none) (colon : ch ≠ colonChar) (dot : ch ≠ dotChar)
    : pton6At tmp colonp tok (ch :: src) = none := by
  unfold pton6At
  rw [pton6Loop, hex]
  rw [if_neg colon, if_neg fun both => dot both.1]
  rfl

/-- What the end of the text does. -/
theorem pton6At_nil (tmp : List UInt8) (colonp : Option Nat) (tok : List UInt8)
    : pton6At tmp colonp tok [] = if tok = [] then expanded tmp colonp
        else if tmp.length + 2 > 16 then none
        else expanded (tmp ++ groupBytes (hexValue tok)) colonp := by
  unfold pton6At
  rw [pton6Loop, Option.bind_some, pton6End]
  by_cases empty : tok = []
  · subst empty
    cases colonp with
    | none => rfl
    | some colonp => rfl
  · rw [if_pos (length_pos_of_ne_nil empty), if_neg empty]
    by_cases full : tmp.length + 2 > 16
    · rw [if_pos (show tmp.length + 2 > in6addrsz from full), if_pos full]
      rfl
    · cases colonp with
      | none => rfl
      | some colonp => rfl

/-! The texts that inet_pton6 accepts -/

def leftText (left : List (List UInt8)) : List UInt8 :=
  left.flatMap fun digits => digits ++ [colonChar]

def leftBytes (left : List (List UInt8)) : List UInt8 :=
  left.flatMap fun digits => groupBytes (hexValue digits)

theorem leftBytes_length (left : List (List UInt8)) : (leftBytes left).length = 2 * left.length := by
  induction left with
  | nil => rfl
  | cons digits left ih =>
    have pair : (groupBytes (hexValue digits)).length = 2 := rfl
    rw [leftBytes, flatMap_cons, length_append, length_cons]
    rw [leftBytes] at ih
    omega

namespace Part

def cons (digits : List UInt8) (part : Part) : Part := ⟨digits :: part.groups, part.quad⟩

theorem cons_width (digits : List UInt8) (part : Part)
    : (part.cons digits).width = part.width + 1 :=
  Nat.add_right_comm part.groups.length 1 _

theorem cons_bytes (digits : List UInt8) (part : Part)
    : (part.cons digits).bytes = groupBytes (hexValue digits) ++ part.bytes := by
  simp only [cons, bytes, flatMap_cons, append_assoc]

theorem pieces_ne_nil (part : Part) (nonempty : part.text ≠ []) : part.pieces ≠ [] := by
  intro empty
  rw [text, empty] at nonempty
  exact nonempty rfl

theorem cons_text (digits : List UInt8) (nonempty : part.pieces ≠ [])
    : (part.cons digits).text = digits ++ colonChar :: part.text := by
  have pieces : (part.cons digits).pieces = digits :: part.pieces := rfl
  rw [text, pieces, intercalate_cons_of_ne_nil nonempty, append_assoc]
  rfl

theorem Valid.cons (valid : part.Valid) (group : IsGroup digits)
    : (part.cons digits).Valid :=
  ⟨forall_mem_cons.mpr ⟨group, valid.group⟩, valid.quad⟩

end Part

/-- What the rest of an accepted text is: a part, or the groups before `::` and a part behind it. -/
inductive Accepted (tmp : List UInt8) (colonp : Option Nat) (src out : List UInt8) : Prop where
  | part (part : Part)
    : part.Valid → part.text = src → tmp.length + 2 * part.width ≤ 16
      → expanded (tmp ++ part.bytes) colonp = some out
      → Accepted tmp colonp src out
  | both (left : List (List UInt8)) (right : Part)
    : colonp = none → (∀ digits ∈ left, IsGroup digits) → right.Valid
      → leftText left ++ colonChar :: right.text = src
      → tmp.length + 2 * (left.length + right.width) ≤ 16
      → expanded (tmp ++ leftBytes left ++ right.bytes) (some (tmp.length + 2 * left.length))
        = some out
      → Accepted tmp colonp src out

/-- One more group in front of an accepted rest. -/
theorem Accepted.cons {tmp tok src out : List UInt8} {colonp : Option Nat} (group : IsGroup tok)
    (nonempty : src ≠ [])
    (rest : Accepted (tmp ++ groupBytes (hexValue tok)) colonp src out)
    : Accepted tmp colonp (tok ++ colonChar :: src) out := by
  have pair : (groupBytes (hexValue tok)).length = 2 := rfl
  cases rest with
  | part part valid text room result =>
    subst text
    rw [length_append] at room
    refine .part (part.cons tok) (valid.cons group)
      (Part.cons_text tok (part.pieces_ne_nil nonempty)) ?_ ?_
    · rw [Part.cons_width]
      omega
    · rw [Part.cons_bytes, ← append_assoc]
      exact result
  | both left right first groups valid text room result =>
    subst text
    rw [length_append] at room result
    refine .both (tok :: left) right first (forall_mem_cons.mpr ⟨group, groups⟩) valid
      ?_ ?_ ?_
    · rw [leftText, flatMap_cons, append_assoc, append_assoc]
      rfl
    · rw [length_cons]
      omega
    · have bytes : tmp ++ leftBytes (tok :: left)
          = tmp ++ groupBytes (hexValue tok) ++ leftBytes left := by
        rw [leftBytes, flatMap_cons, ← append_assoc]
        rfl
      have place : tmp.length + 2 * (tok :: left).length = tmp.length + 2 + 2 * left.length := by
        rw [length_cons]
        omega
      rw [bytes, place]
      exact result

/-- The loop accepts only such texts. The induction is on the rest of the text behind the digits
of the current group.
-/
theorem pton6At_sound {tmp tok src out : List UInt8} {colonp : Option Nat}
    (room : tmp.length ≤ 16) (short : tok.length ≤ 4)
    (hex : ∀ ch ∈ tok, (hexDigitValue ch).isSome)
    (accepted : pton6At tmp colonp tok src = some out)
    : Accepted tmp colonp (tok ++ src) out := by
  induction src generalizing tmp colonp tok with
  | nil =>
    rw [pton6At_nil] at accepted
    rw [append_nil]
    split at accepted
    · rename_i empty
      subst empty
      refine .part ⟨[], none⟩ ⟨by simp, by simp⟩ rfl room ?_
      rw [Part.bytes]
      simpa using accepted
    · rename_i nonempty
      split at accepted
      · cases accepted
      · rename_i fits
        have group : IsGroup tok := ⟨nonempty, short, hex⟩
        refine .part ⟨[tok], none⟩ ⟨by simpa using group, by simp⟩ ?_ ?_ ?_
        · exact intercalate_singleton
        · rw [Part.width]
          simp only [length_singleton, Option.isSome_none, Bool.false_eq_true, if_false]
          omega
        · rw [Part.bytes]
          simpa using accepted
  | cons ch src ih =>
    have start : ([] : List UInt8).length ≤ 4 := Nat.zero_le 4
    by_cases digit : (hexDigitValue ch).isSome
    · rw [pton6At_digit _ _ _ digit hex short] at accepted
      split at accepted
      · cases accepted
      · rename_i notFull
        have all : ∀ other ∈ tok ++ [ch], (hexDigitValue other).isSome := by
          intro other member
          rcases mem_append.mp member with member | member
          · exact hex other member
          · rw [mem_singleton.mp member]
            exact digit
        have rest := ih room (by rw [length_append, length_singleton]; omega) all
          accepted
        rwa [append_assoc] at rest
    · by_cases colon : ch = colonChar
      · subst colon
        rw [pton6At_colon] at accepted
        split at accepted
        · rename_i empty
          subst empty
          split at accepted
          · cases accepted
          · rename_i notSeen
            have none : colonp = none := by simpa using notSeen
            cases ih room start (by simp) accepted with
            | part part valid text fits result =>
              refine .both [] part none (by simp) valid ?_ ?_ ?_
              · rw [text]
                rfl
              · simpa using fits
              · simpa [leftBytes] using result
            | both left right first => cases first
        · rename_i nonempty
          split at accepted
          · cases accepted
          · rename_i fine
            obtain ⟨notLast, fits⟩ := not_or.mp fine
            have rest := ih (by
                have pair : (groupBytes (hexValue tok)).length = 2 := rfl
                rw [length_append]
                omega)
              start (by simp) accepted
            exact rest.cons ⟨nonempty, short, hex⟩ notLast
      · by_cases dot : ch = dotChar
        · subst dot
          rw [pton6At_dot] at accepted
          split at accepted
          · rename_i fits
            obtain ⟨octets, read, result⟩ := Option.bind_eq_some_iff.mp accepted
            obtain ⟨texts, quad, text, bytes⟩ := (inetPton4_iff _ _).mp read
            refine .part ⟨[], some texts⟩ ⟨by simp, by simpa using quad⟩ ?_ ?_ ?_
            · rw [← text]
              exact intercalate_singleton
            · rw [Part.width]
              simpa using fits
            · rw [← bytes] at result
              exact result
          · cases accepted
        · rw [pton6At_other _ _ _ _ (by simpa using digit) colon dot] at accepted
          cases accepted

private theorem pton6At_digits (tmp : List UInt8) (colonp : Option Nat) {tok digits : List UInt8}
    (src : List UInt8) (hex : ∀ ch ∈ tok ++ digits, (hexDigitValue ch).isSome)
    (short : (tok ++ digits).length ≤ 4)
    : pton6At tmp colonp tok (digits ++ src) = pton6At tmp colonp (tok ++ digits) src := by
  induction digits generalizing tok with
  | nil => rw [nil_append, append_nil]
  | cons ch digits ih =>
    have all : tok ++ ch :: digits = tok ++ [ch] ++ digits := by simp
    rw [all] at hex short ⊢
    rw [length_append, length_append, length_singleton] at short
    rw [cons_append,
      pton6At_digit _ _ _ (hex ch (by simp)) (fun other member => hex other (by simp [member]))
        (by omega),
      if_neg (by omega)]
    exact ih hex (by simp only [length_append, length_singleton]; omega)

theorem IsGroup.read (group : IsGroup digits) (tmp : List UInt8) (colonp : Option Nat) (src : List UInt8)
    : pton6At tmp colonp [] (digits ++ src) = pton6At tmp colonp digits src :=
  pton6At_digits tmp colonp src group.hex group.short

theorem IsOctet.isGroup {digits : List UInt8} (octet : IsOctet digits) : IsGroup digits := by
  refine ⟨octet.nonempty, octet.length_le.trans (by decide), ?_⟩
  intro ch member
  rw [hexDigitValue, if_pos (show 48 ≤ ch ∧ ch ≤ 57 from octet.decimal ch member)]
  rfl

theorem IsQuad.text_eq (quad : IsQuad octets)
    : ∃ digits rest, IsOctet digits ∧ quadText octets = digits ++ dotChar :: rest := by
  match octets, quad with
  | [a, b, c, d], quad =>
    exact ⟨a, _, quad.octet a (by simp), by
      rfl⟩

variable {tmp : List UInt8}

theorem IsQuad.read (quad : IsQuad octets) (colonp : Option Nat) (room : tmp.length + 4 ≤ 16)
    : pton6At tmp colonp [] (quadText octets) = expanded (tmp ++ octetBytes octets) colonp := by
  obtain ⟨digits, rest, octet, text⟩ := quad.text_eq
  have read : inetPton4 (quadText octets) = some (octetBytes octets) :=
    (inetPton4_iff _ _).mpr ⟨octets, quad, rfl, rfl⟩
  rw [text] at read ⊢
  rw [octet.isGroup.read, pton6At_dot, if_pos room, read]
  rfl

theorem IsGroup.read_colon (group : IsGroup digits) (colonp : Option Nat) {src : List UInt8}
    (room : tmp.length + 2 ≤ 16) (nonempty : src ≠ [])
    : pton6At tmp colonp [] (digits ++ colonChar :: src)
      = pton6At (tmp ++ groupBytes (hexValue digits)) colonp [] src := by
  rw [group.read, pton6At_colon, if_neg group.nonempty,
    if_neg (not_or.mpr ⟨nonempty, Nat.not_lt.mpr room⟩)]

def StartsHex (text : List UInt8) : Prop := ∃ ch rest, text = ch :: rest ∧ (hexDigitValue ch).isSome

theorem StartsHex.append {text : List UInt8} (starts : StartsHex text) (more : List UInt8)
    : StartsHex (text ++ more) := by
  obtain ⟨ch, rest, rfl, hex⟩ := starts
  exact ⟨ch, rest ++ more, rfl, hex⟩

theorem StartsHex.ne_nil {text : List UInt8} (starts : StartsHex text) : text ≠ [] := by
  obtain ⟨ch, rest, rfl, -⟩ := starts
  exact cons_ne_nil ch rest

theorem not_startsHex_colon (text : List UInt8) : ¬ StartsHex (colonChar :: text) := by
  rintro ⟨ch, rest, same, hex⟩
  rw [← (List.cons.inj same).1] at hex
  cases hex

theorem IsGroup.startsHex {digits : List UInt8} (group : IsGroup digits) : StartsHex digits := by
  obtain ⟨ch, rest, rfl⟩ := exists_cons_of_ne_nil group.nonempty
  exact ⟨ch, rest, rfl, group.hex ch (mem_cons_self ..)⟩

theorem IsQuad.startsHex (quad : IsQuad octets)
    : StartsHex (quadText octets) := by
  obtain ⟨digits, rest, octet, text⟩ := quad.text_eq
  rw [text]
  exact octet.isGroup.startsHex.append _

theorem startsHex_intercalate {piece : List UInt8} (starts : StartsHex piece)
    (pieces : List (List UInt8))
    : StartsHex ([colonChar].intercalate (piece :: pieces)) := by
  cases pieces with
  | nil =>
    rw [intercalate_singleton]
    exact starts
  | cons next pieces =>
    exact starts.append _

theorem Part.Valid.startsHex (valid : part.Valid) (nonempty : part.pieces ≠ [])
    : StartsHex part.text := by
  obtain ⟨groups, quad⟩ := part
  cases groups with
  | cons digits groups =>
    exact startsHex_intercalate (valid.group digits (mem_cons_self ..)).startsHex _
  | nil =>
    cases quad with
    | none => exact absurd rfl nonempty
    | some octets => exact startsHex_intercalate (valid.quad octets rfl).startsHex _

/-- A part is read when there is room for its bytes. -/
theorem Part.Valid.read (valid : part.Valid) (colonp : Option Nat)
    (room : tmp.length + 2 * part.width ≤ 16)
    : pton6At tmp colonp [] part.text = expanded (tmp ++ part.bytes) colonp := by
  obtain ⟨groups, quad⟩ := part
  induction groups generalizing tmp with
  | nil =>
    cases quad with
    | none =>
      have text : (Part.mk [] none).text = [] := rfl
      have bytes : (Part.mk [] none).bytes = [] := rfl
      rw [text, bytes, pton6At_nil, if_pos rfl, append_nil]
    | some octets =>
      have text : (Part.mk [] (some octets)).text = quadText octets := intercalate_singleton
      rw [text]
      exact (valid.quad octets rfl).read colonp room
  | cons digits groups ih =>
    have split : Part.mk (digits :: groups) quad = (Part.mk groups quad).cons digits := rfl
    have group : IsGroup digits := valid.group digits (mem_cons_self ..)
    have rest : (Part.mk groups quad).Valid :=
      ⟨fun other member => valid.group other (mem_cons_of_mem _ member), valid.quad⟩
    have pair : (groupBytes (hexValue digits)).length = 2 := rfl
    rw [split, Part.cons_width] at room
    by_cases last : (Part.mk groups quad).pieces = []
    · obtain ⟨rfl, noQuad⟩ := append_eq_nil_iff.mp last
      have none : quad = none := by simpa using noQuad
      subst none
      have text : (Part.mk [digits] none).text = digits ++ [] := by
        rw [append_nil]
        exact intercalate_singleton
      have bytes : (Part.mk [digits] none).bytes = groupBytes (hexValue digits) := rfl
      rw [text, bytes, group.read, pton6At_nil, if_neg group.nonempty, if_neg (by omega)]
    · rw [split, Part.cons_text digits last,
        group.read_colon colonp (by omega) (rest.startsHex last).ne_nil,
        ih rest (by rw [length_append]; omega), Part.cons_bytes, append_assoc]

/-- The groups before `::` and the part behind it. -/
theorem leftText_read {right : Part} (tmp : List UInt8) (groups : ∀ digits ∈ left, IsGroup digits)
    (valid : right.Valid) (room : tmp.length + 2 * (left.length + right.width) ≤ 16)
    : pton6At tmp none [] (leftText left ++ colonChar :: right.text)
      = expanded (tmp ++ leftBytes left ++ right.bytes) (some (tmp.length + 2 * left.length)) := by
  induction left generalizing tmp with
  | nil =>
    have bytes : tmp ++ leftBytes [] = tmp := append_nil tmp
    have text : leftText [] ++ colonChar :: right.text = colonChar :: right.text := rfl
    rw [length_nil, Nat.zero_add] at room
    rw [text, pton6At_colon, if_pos rfl, valid.read _ room, bytes]
    rfl
  | cons digits left ih =>
    have group : IsGroup digits := groups digits (mem_cons_self ..)
    have pair : (groupBytes (hexValue digits)).length = 2 := rfl
    have text : leftText (digits :: left) ++ colonChar :: right.text
        = digits ++ colonChar :: (leftText left ++ colonChar :: right.text) := by
      rw [leftText, flatMap_cons, append_assoc, append_assoc]
      rfl
    have bytes : tmp ++ leftBytes (digits :: left)
        = tmp ++ groupBytes (hexValue digits) ++ leftBytes left := by
      rw [leftBytes, flatMap_cons, ← append_assoc]
      rfl
    rw [length_cons] at room
    rw [text, group.read_colon none (by omega) (by simp), ih (tmp ++ groupBytes (hexValue digits))
        (fun other member => groups other (mem_cons_of_mem _ member))
        (by rw [length_append]; omega),
      bytes, length_append, length_cons]
    congr 2
    omega

theorem leftText_concat (nonempty : left ≠ [])
    : leftText left = [colonChar].intercalate left ++ [colonChar] := by
  induction left with
  | nil => exact absurd rfl nonempty
  | cons digits left ih =>
    rw [leftText, flatMap_cons]
    by_cases last : left = []
    · subst last
      rw [flatMap_nil, append_nil, intercalate_singleton]
    · rw [intercalate_cons_of_ne_nil last, append_assoc, append_assoc,
        append_assoc]
      exact congrArg (fun rest => digits ++ ([colonChar] ++ rest)) (ih last)

theorem Part.Valid.bytes_length (valid : part.Valid)
    : part.bytes.length = 2 * part.width := by
  have groups := leftBytes_length part.groups
  rw [leftBytes] at groups
  rw [Part.bytes, Part.width, length_append, groups]
  cases quad : part.quad with
  | none => rfl
  | some octets =>
    have four : (octetBytes octets).length = 4 := by
      rw [octetBytes, length_map]
      exact (valid.quad octets quad).length
    simp only [Option.map_some, Option.getD_some, Option.isSome_some, if_true, four]
    omega

theorem expanded_shortened {right : Part} (valid : right.Valid) (out : List UInt8)
    (room : left.length + right.width ≤ 8)
    : expanded (leftBytes left ++ right.bytes) (some (2 * left.length)) = some out
      ↔ left.length + right.width ≤ 7 ∧ out
          = (Part.mk left none).bytes ++ List.replicate (16 - 2 * (left.length + right.width)) 0
            ++ right.bytes := by
  have size : (leftBytes left ++ right.bytes).length = 2 * (left.length + right.width) := by
    rw [length_append, leftBytes_length, valid.bytes_length]
    omega
  have before : (Part.mk left none).bytes = leftBytes left := append_nil _
  have left' : (leftBytes left ++ right.bytes).take (2 * left.length) = leftBytes left := by
    rw [← leftBytes_length, take_left]
  have right' : (leftBytes left ++ right.bytes).drop (2 * left.length) = right.bytes := by
    rw [← leftBytes_length, drop_left]
  rw [expanded, size, left', right', before]
  by_cases full : left.length + right.width ≤ 7
  · rw [if_neg (by omega), Option.some.injEq]
    exact ⟨fun same => ⟨full, same.symm⟩, fun both => both.2.symm⟩
  · rw [if_pos (by omega)]
    constructor
    · intro impossible
      cases impossible
    · intro both
      exact absurd both.1 full

/-- A text that does not begin with a colon. -/
theorem pton6_cons (colon : ch ≠ colonChar) (rest : List UInt8)
    : pton6 (ch :: rest) = pton6At [] none [] (ch :: rest) := by
  rw [pton6]
  rw [if_neg colon]
  rfl

theorem pton6_of_startsHex {src : List UInt8} (starts : StartsHex src)
    : pton6 src = pton6At [] none [] src := by
  obtain ⟨ch, rest, rfl, hex⟩ := starts
  apply pton6_cons
  rintro rfl
  exact not_startsHex_colon rest ⟨_, rest, rfl, hex⟩

/-- A text that begins with a colon begins with two. -/
theorem pton6_colon (rest : List UInt8)
    : pton6 (colonChar :: rest)
      = if rest.head? = some colonChar then pton6At [] none [] rest else none := by
  rfl

theorem Accepted.isAddress {src out : List UInt8} (accepted : Accepted [] none src out)
    (nonempty : src ≠ []) (colon : src.head? ≠ some colonChar)
    : IsAddress src out := by
  cases accepted with
  | part part valid text room result =>
    subst text
    rw [nil_append, expanded] at result
    split at result
    · cases result
    · rename_i full
      rw [valid.bytes_length] at full
      rw [← Option.some.inj result]
      exact .full part valid (by omega)
  | both left right first groups valid text room result =>
    subst text
    have some : left ≠ [] := by
      rintro rfl
      exact colon rfl
    rw [length_nil, Nat.zero_add] at room result
    obtain ⟨short, rfl⟩ := (expanded_shortened valid out (by omega)).mp result
    rw [leftText_concat some, append_assoc]
    have address := IsAddress.shortened left right groups valid short
    rw [append_assoc] at address
    exact address

private theorem Accepted.isAddress_colon {src out : List UInt8}
    (accepted : Accepted [] none (colonChar :: src) out)
    : IsAddress (colonChar :: colonChar :: src) out := by
  cases accepted with
  | part part valid text room result =>
    have pieces := part.pieces_ne_nil (by rw [text]; simp)
    have starts := valid.startsHex pieces
    rw [text] at starts
    exact absurd starts (not_startsHex_colon src)
  | both left right first groups valid text room result =>
    cases left with
    | cons digits left =>
      have starts : StartsHex (leftText (digits :: left) ++ colonChar :: right.text) := by
        rw [leftText, flatMap_cons, append_assoc, append_assoc]
        exact (groups digits (mem_cons_self ..)).startsHex.append _
      rw [text] at starts
      exact absurd starts (not_startsHex_colon src)
    | nil =>
      obtain ⟨short, rfl⟩ := (expanded_shortened valid out (by omega)).mp result
      rw [← (List.cons.inj text).2]
      exact .shortened [] right groups valid short

/-- `inet_pton6` accepts exactly the texts of addresses. -/
theorem pton6_iff (src out : List UInt8) : pton6 src = some out ↔ IsAddress src out := by
  have start : ([] : List UInt8).length ≤ 16 := Nat.zero_le 16
  have startTok : ([] : List UInt8).length ≤ 4 := Nat.zero_le 4
  constructor
  · intro accepted
    match src with
    | [] => cases accepted
    | ch :: rest =>
      by_cases colon : ch = colonChar
      · subst colon
        rw [pton6_colon] at accepted
        split at accepted
        · rename_i second
          obtain ⟨more, rfl⟩ : ∃ more, rest = colonChar :: more := by
            cases rest with
            | nil => cases second
            | cons ch more => exact ⟨more, by rw [Option.some.inj second]⟩
          exact (pton6At_sound start startTok (by simp) accepted).isAddress_colon
        · cases accepted
      · rw [pton6_cons colon] at accepted
        exact (pton6At_sound start startTok (by simp) accepted).isAddress
          (cons_ne_nil ch rest) fun head => colon (Option.some.inj head)
  · intro address
    cases address with
    | full part valid width =>
      have length := valid.bytes_length
      have nonempty : part.pieces ≠ [] := by
        intro empty
        obtain ⟨groups, quad⟩ := append_eq_nil_iff.mp empty
        have none : part.quad = none := by simpa using quad
        rw [Part.width, groups, none] at width
        cases width
      rw [pton6_of_startsHex (valid.startsHex nonempty),
        valid.read none (by rw [width]; exact Nat.le_refl 16), nil_append, expanded,
        if_neg (by omega)]
    | shortened left right groups valid room =>
      have read := leftText_read [] groups valid (by rw [length_nil]; omega)
      rw [length_nil, Nat.zero_add] at read
      by_cases empty : left = []
      · subst empty
        have text : [colonChar].intercalate [] ++ [colonChar, colonChar] ++ right.text
            = colonChar :: (leftText [] ++ colonChar :: right.text) := rfl
        have head : (leftText [] ++ colonChar :: right.text).head? = some colonChar := rfl
        rw [text, pton6_colon, read]
        exact (expanded_shortened valid _ (by omega)).mpr ⟨room, rfl⟩
      · obtain ⟨digits, others, rfl⟩ := exists_cons_of_ne_nil empty
        have starts : StartsHex ([colonChar].intercalate (digits :: others)) :=
          startsHex_intercalate (groups digits (mem_cons_self ..)).startsHex _
        rw [leftText_concat empty, append_assoc] at read
        rw [append_assoc, pton6_of_startsHex (starts.append _)]
        exact read.trans ((expanded_shortened valid _ (by omega)).mpr ⟨room, rfl⟩)

end Nglibc.Resolv
