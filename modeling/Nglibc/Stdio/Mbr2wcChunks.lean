import Nglibc.Stdio.WideEncoders

/-! `__mbr2wc` on a byte string that comes in chunks, with one state word. -/

namespace Nglibc.Stdio

open Utf8 List

/-! Characters at the start of byte strings -/

theorem encode_append_inj {c d : Char} {rest rest' : List UInt8}
    (same : String.utf8EncodeChar c ++ rest = String.utf8EncodeChar d ++ rest')
    : c = d ∧ rest = rest' := by
  obtain ⟨b, more, bytes, reads⟩ := scan_encode c rest
  obtain ⟨b', more', bytes', reads'⟩ := scan_encode d rest'
  rw [bytes, bytes'] at same
  cases same
  rw [reads] at reads'
  injection reads' with value rest
  exact ⟨Char.ext (UInt32.toNat_inj.mp value), rest⟩

variable {st : BitVec 32} {part post : List UInt8} {c : Char} {later : List (List UInt8)}
  {more : List UInt8}

theorem illFormed_noStart {b : UInt8} (reads : scan b more = .illFormed) {x y : List UInt8}
    : b :: (more ++ x) ≠ String.utf8EncodeChar c ++ y := by
  intro same
  obtain ⟨b', more', bytes, reads'⟩ := scan_encode c y
  rw [bytes] at same
  cases same
  rw [scan_append, reads] at reads'
  cases reads'

variable {bytes : List UInt8}

theorem scanOwed_started {o o' : Owed} (started : Started o) (reads : scanOwed o bytes = .part o')
    : Started o' := by
  induction bytes generalizing o with
  | nil =>
    cases reads
    exact started
  | cons b more ih =>
    rw [scanOwed] at reads
    split at reads
    next accepts =>
      split at reads
      next => cases reads
      next several => exact ih (started.next several (started.accepts_range accepts).2) reads
    next => cases reads

theorem scan_started {b : UInt8} {o : Owed} (reads : scan b more = .part o)
    : Started o := by
  unfold scan at reads
  split at reads
  next => cases reads
  next =>
    split at reads
    next => cases reads
    next leads => exact scanOwed_started (lead_started leads) reads

/-! One call -/

/-- The state word behind the bytes of a started character, or between characters. -/
def AtState (part : List UInt8) (st : BitVec 32) : Prop := part = [] ∧ st = 0
  ∨ ∃ b more o, part = b :: more ∧ scan b more = .part o ∧ Started o ∧ st = stateOf o

/-- Bytes that are the start of a character, and not the whole of it. -/
def PartOf (bytes : List UInt8) : Prop :=
  ∃ (c : Char) (more : List UInt8), more ≠ [] ∧ bytes ++ more = String.utf8EncodeChar c

theorem PartOf.noStart {bytes : List UInt8} (started : PartOf bytes) : NoStart bytes := by
  obtain ⟨d, more, several, whole⟩ := started
  rintro c ⟨rest, same⟩
  rw [← same, append_assoc] at whole
  have ends := (encode_append_inj (whole.trans (append_nil _).symm)).2
  exact several (append_eq_nil_iff.mp ends).2

/-- No character starts within a started one. -/
theorem AtState.part_lt {part rest post : List UInt8} (state : AtState part st)
    (whole : part ++ post = String.utf8EncodeChar c ++ rest)
    : part.length < (String.utf8EncodeChar c).length := by
  obtain ⟨rfl, rfl⟩ | ⟨b, more, o, rfl, reads, -, -⟩ := state
  · exact length_pos_of_ne_nil (utf8EncodeChar_ne_nil c)
  · by_contra short
    obtain ⟨d, tail, several, encoded⟩ := prefix_of_scan reads
    have starts : String.utf8EncodeChar c <+: b :: more := by
      apply prefix_of_prefix_length_le ⟨rest, whole.symm⟩ (prefix_append _ post)
      exact Nat.not_lt.mp short
    exact PartOf.noStart ⟨d, tail, several, encoded.symm⟩ c starts

/-- A first byte from 0x80 on has others behind it. -/
theorem one_lt_encode {b : UInt8} {more rest : List UInt8} (high : 0x80 ≤ b.toNat)
    (whole : b :: more = String.utf8EncodeChar c ++ rest)
    : 1 < (String.utf8EncodeChar c).length := by
  rw [String.length_utf8EncodeChar]
  by_contra short
  have one := Nat.le_antisymm (Nat.not_lt.mp short) c.utf8Size_pos
  have ascii : c.val.toNat < 0x80 := by
    have bound := Char.utf8Size_eq_one_iff.mp one
    have value : c.val.toNat ≤ 127 := bound
    omega
  rw [utf8EncodeChar_one ascii] at whole
  injection whole with first
  rw [first, toNat_ofNat (by omega)] at high
  omega

/-- A call gives what the machine makes of the started character and the new bytes. -/
theorem AtState.mbr2wc_eq (state : AtState part st) (some_ : post ≠ [])
    : ∃ b more, part ++ post = b :: more ∧ ((part ≠ [] ∨ 0x80 ≤ b.toNat)
          ∧ mbr2wc post st = Scan.asMbr (post.length % 2 ^ 32) (scan b more)
        ∨ part = [] ∧ b.toNat < 0x80
          ∧ mbr2wc post st = ⟨if b ≠ 0 then 1 else 0, some (toUnsigned b), 0⟩) := by
  obtain ⟨b, post, rfl⟩ := exists_cons_of_ne_nil some_
  obtain ⟨rfl, rfl⟩ | ⟨lead, more, o, rfl, reads, started, rfl⟩ := state
  · refine ⟨b, post, rfl, ?_⟩
    by_cases ascii : b.toNat < 0x80
    · exact .inr ⟨rfl, ascii, mbr2wc_ascii ascii post⟩
    · exact .inl ⟨.inr (Nat.not_lt.mp ascii), mbr2wc_scan ascii post⟩
  · refine ⟨lead, more ++ b :: post, rfl, .inl ⟨.inl (cons_ne_nil _ _), ?_⟩⟩
    rw [scan_append, reads]
    exact mbr2wc_started started b post

/-- A call that completes a character of several bytes with 2^32 bytes or more at hand. -/
def Overlong (c : Char) (post : List UInt8) : Prop :=
  1 < (String.utf8EncodeChar c).length ∧ 2 ^ 32 ≤ post.length

/-- The bytes that the caller takes as consumed: one for the null character. -/
def Mbr.consumed (r : Mbr) : Nat := if r.ret = 0 then 1 else r.ret

/-- The outcomes of a call on bytes behind those of a started character. -/
inductive Call (part post : List UInt8) (st : BitVec 32) : Prop where
  | char (c : Char) (rest : List UInt8) (whole : part ++ post = String.utf8EncodeChar c ++ rest)
      (started : part.length < (String.utf8EncodeChar c).length)
      (returns : (mbr2wc post st).ret ≠ ilseqValue ∧ (mbr2wc post st).ret ≠ incompleteValue)
      (value : (mbr2wc post st).wc = some c.val.toBitVec) (between : (mbr2wc post st).st = 0)
      (consumed : part.length + (mbr2wc post st).consumed = (String.utf8EncodeChar c).length
        ↔ ¬ Overlong c post)
  | part (started : PartOf (part ++ post)) (returns : (mbr2wc post st).ret = incompleteValue)
      (state : AtState (part ++ post) (mbr2wc post st).st)
  | illFormed (none : ∀ x y c, part ++ post ++ x ≠ String.utf8EncodeChar c ++ y)
      (returns : mbr2wc post st = Mbr.ilseq)

theorem truncated_count {n rest k : Nat} (split : n = k + rest) (positive : 0 < k) (few : k ≤ 4)
    (size : n < 2 ^ 64)
    : let ret := (n % 2 ^ 32 + 2 ^ 64 - rest) % 2 ^ 64
      ret ≠ 0 ∧ ret ≠ ilseqValue ∧ ret ≠ incompleteValue ∧ (ret = k ↔ n < 2 ^ 32) := by
  unfold ilseqValue incompleteValue
  intro ret
  by_cases short : n < 2 ^ 32
  · omega
  · omega

/-- What one call does. -/
theorem AtState.call (state : AtState part st) (some_ : post ≠ []) (size : post.length < 2 ^ 64)
    : Call part post st := by
  obtain ⟨b, more, bytes, ⟨several, run⟩ | ⟨rfl, ascii, run⟩⟩ := state.mbr2wc_eq some_
  · cases reads : scan b more with
    | char v rest =>
      rw [reads, Scan.asMbr] at run
      obtain ⟨c, rfl, encoded⟩ := encode_of_scan reads
      have whole := bytes.trans encoded
      have started := state.part_lt whole
      have long : 1 < (String.utf8EncodeChar c).length := by
        rcases several with started' | high
        · exact Nat.lt_of_le_of_lt (length_pos_of_ne_nil started') started
        · exact one_lt_encode high encoded
      have four : (String.utf8EncodeChar c).length ≤ 4 := by
        rw [String.length_utf8EncodeChar]
        exact c.utf8Size_le_four
      have split : post.length
          = ((String.utf8EncodeChar c).length - part.length) + rest.length := by
        have lengths := congrArg List.length whole
        simp only [length_append] at lengths
        omega
      obtain ⟨positive, ilseq, incomplete, exact_⟩ :=
        truncated_count split (by omega) (by omega) size
      have value : BitVec.ofNat 32 c.val.toNat = c.val.toBitVec := BitVec.ofNat_toNat _ _
      rw [value] at run
      refine .char c rest whole started (by rw [run]; exact ⟨ilseq, incomplete⟩) (by rw [run])
        (by rw [run]) ?_
      rw [run, Mbr.consumed, if_neg positive, Overlong, not_and, Nat.not_le]
      constructor
      · intro same _
        exact exact_.mp (by simp only at same; omega)
      · intro short
        simp only
        omega
    | part o =>
      rw [reads, Scan.asMbr] at run
      obtain ⟨c, tail, more', encoded⟩ := prefix_of_scan reads
      refine .part ⟨c, tail, more', ?_⟩ (by rw [run]) ?_
      · rw [bytes, encoded]
        rfl
      · rw [run]
        exact .inr ⟨b, more, o, bytes, reads, scan_started reads, rfl⟩
    | illFormed =>
      rw [reads] at run
      refine .illFormed (fun x y c => ?_) run
      rw [bytes]
      exact illFormed_noStart reads
  · obtain ⟨c, encoded⟩ : ∃ c : Char, c.val.toNat = b.toNat := exists_char (.inl (by omega))
    have one : String.utf8EncodeChar c = [b] := by
      rw [utf8EncodeChar_one (encoded.trans_lt ascii), encoded, UInt8.ofNat_toNat]
    have value : toUnsigned b = c.val.toBitVec :=
      BitVec.eq_of_toNat_eq ((toNat_toUnsigned b).trans encoded.symm)
    have count : (mbr2wc post st).consumed = 1 := by
      rw [run, Mbr.consumed]
      by_cases zero : b ≠ 0 <;> simp [zero]
    refine .char c more (by rw [bytes, one]; rfl) (by rw [one]; exact Nat.one_pos) ?_ (by rw [run, value])
      (by rw [run]) ?_
    · rw [run]
      by_cases zero : b ≠ 0 <;> simp [zero, ilseqValue, incompleteValue]
    · rw [count, Overlong, one]
      simp

/-! A string in chunks -/

/-- A decoded value, the total consumed up to it, and the state word behind it. -/
structure Value where
  wc : BitVec 32
  total : Nat
  st : BitVec 32
  deriving DecidableEq

/-- The values that a caller decodes, the end of the last value before the first error, and the state
word at the end.
-/
structure Decoding where
  values : List Value
  error : Option Nat
  st : BitVec 32
  deriving DecidableEq

def Decoding.behind (value : Value) (d : Decoding) : Decoding := { d with values := value :: d.values }

/-- The loop of a caller that feeds `chunks` to `__mbr2wc`. The last value ends at `start`, and `total`
bytes are consumed.
-/
def decodeChunks : Nat → BitVec 32 → Nat → Nat → List (List UInt8) → Decoding
  | 0, st, _, _, _ => ⟨[], none, st⟩
  | _ + 1, st, _, _, [] => ⟨[], none, st⟩
  | fuel + 1, st, start, total, [] :: later => decodeChunks fuel st start total later
  | fuel + 1, st, start, total, (b :: more) :: later =>
    let r := mbr2wc (b :: more) st
    if r.ret = ilseqValue then ⟨[], some start, r.st⟩
    else if r.ret = incompleteValue then
      decodeChunks fuel r.st start (total + (b :: more).length) later
    else
      let total := total + r.consumed
      (decodeChunks fuel r.st total total ((b :: more).drop r.consumed :: later)).behind
        ⟨r.wc.getD 0, total, r.st⟩

def decode (chunks : List (List UInt8)) : Decoding :=
  decodeChunks (chunks.flatten.length + chunks.length + 1) 0 0 0 chunks

/-- The values of characters that begin at `start`. -/
def valuesFrom : Nat → List Char → List Value
  | _, [] => []
  | start, c :: chars =>
    let total := start + (String.utf8EncodeChar c).length
    ⟨c.val.toBitVec, total, 0⟩ :: valuesFrom total chars

/-- What UTF-8 makes of the bytes from `start` on: the values of their characters, and then nothing, a
started character or an error.
-/
def Decodes (start : Nat) (bytes : List UInt8) (d : Decoding) : Prop :=
  ∃ (chars : List Char) (tail : List UInt8),
    bytes = chars.flatMap String.utf8EncodeChar ++ tail ∧ NoStart tail
    ∧ d.values = valuesFrom start chars
    ∧ (tail = [] ∧ d.error = none ∧ d.st = 0 ∨ tail ≠ [] ∧ PartOf tail ∧ d.error = none ∧ d.st ≠ 0
      ∨ tail ≠ [] ∧ ¬ PartOf tail
        ∧ d.error = some (start + (chars.flatMap String.utf8EncodeChar).length))

/-- Behind the bytes `part` of a started character, some call on the chunks completes a character of
several bytes with 2^32 bytes or more at hand.
-/
inductive OverlongCall : List UInt8 → List (List UInt8) → Prop where
  | here {part post : List UInt8} {rest} {later : List (List UInt8)} (c : Char)
      (whole : part ++ post = String.utf8EncodeChar c ++ rest)
      (started : part.length < (String.utf8EncodeChar c).length) (long : Overlong c post)
      : OverlongCall part (post :: later)
  | char {part post : List UInt8} {rest} {later : List (List UInt8)} (c : Char)
      (whole : part ++ post = String.utf8EncodeChar c ++ rest)
      (started : part.length < (String.utf8EncodeChar c).length)
      (behind : OverlongCall [] (rest :: later))
      : OverlongCall part (post :: later)
  | part {part post : List UInt8} {later : List (List UInt8)} (started : part ++ post = [] ∨ PartOf (part ++ post))
      (behind : OverlongCall (part ++ post) later)
      : OverlongCall part (post :: later)

theorem noStart_nil : NoStart [] := by
  intro c starts
  exact utf8EncodeChar_ne_nil c (prefix_nil.mp starts)

theorem not_noStart {bytes rest : List UInt8} (whole : bytes = String.utf8EncodeChar c ++ rest)
    : ¬ NoStart bytes :=
  fun none => none c ⟨rest, whole.symm⟩

theorem OverlongCall.char_iff {part post rest : List UInt8}
    (whole : part ++ post = String.utf8EncodeChar c ++ rest)
    (started : part.length < (String.utf8EncodeChar c).length)
    : OverlongCall part (post :: later) ↔ Overlong c post ∨ OverlongCall [] (rest :: later) := by
  constructor
  · intro call
    cases call with
    | here d whole' _ long =>
      obtain ⟨rfl, rfl⟩ := encode_append_inj (whole.symm.trans whole')
      exact .inl long
    | char d whole' _ behind =>
      obtain ⟨rfl, rfl⟩ := encode_append_inj (whole.symm.trans whole')
      exact .inr behind
    | part started' =>
      have none : NoStart (part ++ post) := by
        rcases started' with empty | started'
        · rw [empty]
          exact noStart_nil
        · exact started'.noStart
      exact absurd none (not_noStart whole)
  · rintro (long | behind)
    · exact .here c whole started long
    · exact .char c whole started behind

theorem OverlongCall.part_iff (started : part ++ post = [] ∨ PartOf (part ++ post))
    : OverlongCall part (post :: later) ↔ OverlongCall (part ++ post) later := by
  have none : NoStart (part ++ post) := by
    rcases started with empty | started
    · rw [empty]
      exact noStart_nil
    · exact started.noStart
  constructor
  · intro call
    cases call with
    | here c whole => exact absurd none (not_noStart whole)
    | char c whole => exact absurd none (not_noStart whole)
    | part _ behind => exact behind
  · exact .part started

theorem OverlongCall.not_illFormed (none : ∀ x y c, part ++ post ++ x ≠ String.utf8EncodeChar c ++ y)
    (some_ : part ++ post ≠ [])
    : ¬ OverlongCall part (post :: later) := by
  intro call
  cases call with
  | here c whole => exact none [] _ c ((append_nil _).trans whole)
  | char c whole => exact none [] _ c ((append_nil _).trans whole)
  | part started =>
    obtain empty | ⟨c, more, _, whole⟩ := started
    · exact some_ empty
    · exact none more [] c (whole.trans (append_nil _).symm)

theorem Decodes.char_iff {start : Nat} {bytes rest : List UInt8} {value : Value} {d : Decoding}
    (whole : bytes = String.utf8EncodeChar c ++ rest)
    : Decodes start bytes (d.behind value)
      ↔ value = ⟨c.val.toBitVec, start + (String.utf8EncodeChar c).length, 0⟩
        ∧ Decodes (start + (String.utf8EncodeChar c).length) rest d := by
  constructor
  · rintro ⟨chars, tail, split, none, values, ends⟩
    cases chars with
    | nil => exact absurd none (not_noStart (split.symm.trans whole))
    | cons c' chars =>
      rw [flatMap_cons, append_assoc] at split
      obtain ⟨rfl, rfl⟩ := encode_append_inj (whole.symm.trans split)
      injection values with first values
      refine ⟨first, chars, tail, rfl, none, values, ?_⟩
      rw [flatMap_cons, length_append, ← Nat.add_assoc] at ends
      exact ends
  · rintro ⟨rfl, chars, tail, rfl, none, values, ends⟩
    refine ⟨c :: chars, tail, ?_, none, congrArg (_ :: ·) values, ?_⟩
    · rw [whole, flatMap_cons, append_assoc]
    · rw [flatMap_cons, length_append, ← Nat.add_assoc]
      exact ends

variable {part : List UInt8}

theorem AtState.nil_or_part (state : AtState part st)
    : part = [] ∧ st = 0 ∨ part ≠ [] ∧ PartOf part ∧ st ≠ 0 := by
  obtain ⟨empty, zero⟩ | ⟨b, more, o, rfl, reads, started, rfl⟩ := state
  · exact .inl ⟨empty, zero⟩
  · obtain ⟨c, tail, several, encoded⟩ := prefix_of_scan reads
    exact .inr ⟨cons_ne_nil _ _, ⟨c, tail, several, encoded.symm⟩, started.stateOf_ne_zero⟩

/-- A string that ends between characters or within one. -/
theorem AtState.decodes (state : AtState part st) (start : Nat)
    : Decodes start part ⟨[], none, st⟩ := by
  obtain ⟨rfl, rfl⟩ | ⟨some_, started, nonzero⟩ := state.nil_or_part
  · exact ⟨[], [], rfl, noStart_nil, rfl, .inl ⟨rfl, rfl, rfl⟩⟩
  · exact ⟨[], part, rfl, started.noStart, rfl, .inr (.inl ⟨some_, started, rfl, nonzero⟩)⟩

theorem decodes_illFormed {part post later : List UInt8} (start : Nat) (some_ : part ++ post ≠ [])
    (none : ∀ x y c, part ++ post ++ x ≠ String.utf8EncodeChar c ++ y)
    : Decodes start (part ++ (post ++ later)) ⟨[], some start, st⟩ := by
  rw [← append_assoc]
  refine ⟨[], part ++ post ++ later, rfl, ?_, rfl, .inr (.inr ⟨?_, ?_, rfl⟩)⟩
  · rintro c ⟨rest, starts⟩
    exact none later rest c starts.symm
  · exact fun empty => some_ (append_eq_nil_iff.mp empty).1
  · rintro ⟨c, more, -, whole⟩
    apply none (later ++ more) [] c
    rw [append_nil, ← append_assoc]
    exact whole

/-- The bytes behind a character. -/
theorem drop_consumed {part post rest encoded : List UInt8} {k : Nat}
    (whole : part ++ post = encoded ++ rest) (consumed : part.length + k = encoded.length)
    : post.drop k = rest := by
  calc
    post.drop k = (part ++ post).drop encoded.length := by rw [← consumed, drop_length_add_append]
    _ = rest := by rw [whole, drop_left]

/-- What the calls decode; by induction on the bytes and chunks left. -/
theorem decodeChunks_iff {fuel : Nat} (start : Nat) (chunks : List (List UInt8)) (state : AtState part st)
    (size : chunks.flatten.length < 2 ^ 64) (enough : chunks.flatten.length + chunks.length < fuel)
    : Decodes start (part ++ chunks.flatten)
        (decodeChunks fuel st start (start + part.length) chunks)
      ↔ ¬ OverlongCall part chunks := by
  induction fuel generalizing start part chunks st with
  | zero => exact absurd enough (Nat.not_lt_zero _)
  | succ fuel ih =>
    match chunks with
    | [] =>
      rw [flatten_nil, append_nil]
      exact iff_of_true (state.decodes start) nofun
    | [] :: later =>
      have started : part ++ [] = [] ∨ PartOf (part ++ []) := by
        rw [append_nil]
        exact state.nil_or_part.imp And.left (fun within => within.2.1)
      rw [OverlongCall.part_iff started, append_nil]
      simp only [flatten_cons, nil_append, length_cons] at size enough
      exact ih start later state size (by omega)
    | (b :: more) :: later =>
      have some_ : part ++ b :: more ≠ [] := by simp
      simp only [flatten_cons, length_append, length_cons] at size enough
      rw [decodeChunks, flatten_cons]
      cases state.call (cons_ne_nil b more) (by simp only [length_cons]; omega) with
      | illFormed none returns =>
        simp only [returns, Mbr.ilseq, if_true]
        exact iff_of_true (decodes_illFormed start some_ none)
          (OverlongCall.not_illFormed none some_)
      | part started returns behind =>
        have apart : incompleteValue ≠ ilseqValue := by decide
        rw [OverlongCall.part_iff (.inr started)]
        simp only [returns, apart, if_false, if_true]
        have next := ih start later behind (by omega) (by omega)
        rw [length_append, ← Nat.add_assoc, append_assoc] at next
        exact next
      | char c rest whole started returns value between consumed =>
        have whole' : part ++ (b :: more ++ later.flatten)
            = String.utf8EncodeChar c ++ (rest ++ later.flatten) := by
          rw [← append_assoc, whole, append_assoc]
        simp only [returns.1, returns.2, if_false, value, between, Option.getD_some]
        rw [OverlongCall.char_iff whole started, Decodes.char_iff whole', Nat.add_assoc, not_or,
          ← consumed]
        by_cases exact_ : part.length + (mbr2wc (b :: more) st).consumed
            = (String.utf8EncodeChar c).length
        · have lengths := congrArg List.length whole
          simp only [length_append, length_cons] at lengths
          rw [exact_, drop_consumed whole exact_]
          have next := ih (start + (String.utf8EncodeChar c).length) (rest :: later) (.inl ⟨rfl, rfl⟩)
            (by simp only [flatten_cons, length_append]; omega)
            (by simp only [flatten_cons, length_append, length_cons]; omega)
          simp only [true_and]
          exact next
        · have apart : start + (part.length + (mbr2wc (b :: more) st).consumed)
              ≠ start + (String.utf8EncodeChar c).length := by
            omega
          simp only [exact_, apart, Value.mk.injEq, false_and, and_false]

theorem characters_unique {chars chars' : List Char} {tail tail' : List UInt8} (none : NoStart tail)
    (none' : NoStart tail')
    (same : chars.flatMap String.utf8EncodeChar ++ tail
      = chars'.flatMap String.utf8EncodeChar ++ tail')
    : chars = chars' ∧ tail = tail' := by
  induction chars generalizing chars' with
  | nil =>
    cases chars' with
    | nil => exact ⟨rfl, same⟩
    | cons c' chars' =>
      rw [flatMap_cons, append_assoc] at same
      exact absurd none (not_noStart same)
  | cons c chars ih =>
    rw [flatMap_cons, append_assoc] at same
    cases chars' with
    | nil => exact absurd none' (not_noStart same.symm)
    | cons c' chars' =>
      rw [flatMap_cons, append_assoc] at same
      obtain ⟨rfl, rest⟩ := encode_append_inj same
      obtain ⟨rfl, rfl⟩ := ih rest
      exact ⟨rfl, rfl⟩

theorem Decodes.unique {start : Nat} {d d' : Decoding} (decodes : Decodes start bytes d)
    (decodes' : Decodes start bytes d')
    : d.values = d'.values ∧ d.error = d'.error := by
  obtain ⟨chars, tail, split, none, values, ends⟩ := decodes
  obtain ⟨chars', tail', split', none', values', ends'⟩ := decodes'
  obtain ⟨rfl, rfl⟩ := characters_unique none none' (split.symm.trans split')
  refine ⟨values.trans values'.symm, ?_⟩
  obtain ⟨empty, ends, -⟩ | ⟨some_, within, ends, -⟩ | ⟨some_, without, ends⟩ := ends
  all_goals
    obtain ⟨empty', ends', -⟩ | ⟨some', within', ends', -⟩ | ⟨some', without', ends'⟩ := ends'
    all_goals first
      | exact ends.trans ends'.symm
      | contradiction

/-! The encoders -/

/-- `wc2mb`, `wcsr2mbs` and `__fputwc_unlocked` each encode the value as these bytes. -/
def EncodedBy (wc : BitVec 32) (bytes : List UInt8) : Prop := wc2mb wc = (bytes.length, bytes)
  ∧ (∀ total fuel ws n, 4 ≤ n → wcsr2mbsLoop total (fuel + 1) (wc :: ws) n
        = if wc = 0 then ⟨total - n, bytes, none⟩
          else (wcsr2mbsLoop total fuel ws (n - bytes.length)).behind bytes)
  ∧ ∀ (writev : Nat → Option Nat) (s : Streambuf Descriptor), Writing s →
      ∃ r s', fputwcUnlocked (stdioWrite writev) wc s = (r, s')
        ∧ (r = wc ∧ Accepts writev bytes s s' ∨ ∃ own, Fails writev bytes own s s')

theorem encodedBy_encode (c : Char) : EncodedBy c.val.toBitVec (String.utf8EncodeChar c) := by
  refine ⟨wc2mb_encode c, fun total fuel ws n room => ?_,
    fun writev s writing => fputwcUnlocked_pushes writev writing c⟩
  rw [wcsr2mbsLoop_encode c ws room]
  by_cases zero : c.val.toBitVec = 0
  · have value : c.val.toNat = 0 := congrArg BitVec.toNat zero
    rw [if_pos zero, if_pos zero, utf8EncodeChar_one (by omega), value]
    rfl
  · rw [if_neg zero, if_neg zero]

/-- The chunks decode as the unsplit string and as UTF-8 does, and the encoders encode each value as the
bytes it came from.
-/
def DecodesAlike (chunks : List (List UInt8)) : Prop :=
  (decode chunks).values = (decode [chunks.flatten]).values
  ∧ (decode chunks).error = (decode [chunks.flatten]).error
  ∧ (∀ whole ∈ [chunks, [chunks.flatten]], Decodes 0 chunks.flatten (decode whole))
  ∧ ∀ c : Char, EncodedBy c.val.toBitVec (String.utf8EncodeChar c)

theorem decode_iff (chunks : List (List UInt8)) (size : chunks.flatten.length < 2 ^ 64)
    : Decodes 0 chunks.flatten (decode chunks) ↔ ¬ OverlongCall [] chunks :=
  decodeChunks_iff 0 chunks (.inl ⟨rfl, rfl⟩) size (Nat.lt_succ_self _)

/-- A string in chunks decodes as the unsplit string exactly when no call that completes a character of
several bytes has 2^32 bytes or more at hand, whether the string is split or not.
-/
theorem mbr2wc_chunks (chunks : List (List UInt8)) (size : chunks.flatten.length < 2 ^ 64)
    : DecodesAlike chunks ↔ ¬ OverlongCall [] chunks ∧ ¬ OverlongCall [] [chunks.flatten] := by
  have whole : [chunks.flatten].flatten = chunks.flatten := flatten_singleton
  have unsplit := decode_iff [chunks.flatten] (by rw [whole]; exact size)
  rw [whole] at unsplit
  rw [← decode_iff chunks size, ← unsplit]
  constructor
  · rintro ⟨-, -, decodes, -⟩
    exact ⟨decodes _ (by simp), decodes _ (by simp)⟩
  · rintro ⟨split, unsplit⟩
    obtain ⟨values, error⟩ := split.unique unsplit
    refine ⟨values, error, ?_, encodedBy_encode⟩
    simp only [mem_cons, not_mem_nil, or_false, forall_eq_or_imp, forall_eq]
    exact ⟨split, unsplit⟩

theorem OverlongCall.long {chunks : List (List UInt8)} (call : OverlongCall part chunks)
    : 2 ^ 32 ≤ chunks.flatten.length := by
  induction call with
  | here c whole started long =>
    rw [flatten_cons, length_append]
    exact Nat.le_trans long.2 (Nat.le_add_right _ _)
  | char c whole started behind ih =>
    have lengths := congrArg List.length whole
    simp only [flatten_cons, length_append] at ih lengths ⊢
    omega
  | part started behind ih =>
    rw [flatten_cons, length_append]
    exact Nat.le_trans ih (Nat.le_add_left _ _)

theorem mbr2wc_chunks_two : DecodesAlike [[0xC3], [0xA9]] :=
  (mbr2wc_chunks [[0xC3], [0xA9]] (by decide)).mpr
    ⟨fun call => absurd call.long (by decide), fun call => absurd call.long (by decide)⟩

/-- A character of several bytes and 2^32 bytes behind it. -/
theorem decode_overlong (several : 1 < (String.utf8EncodeChar c).length) (long : 2 ^ 32 ≤ more.length)
    (size : (String.utf8EncodeChar c ++ more).length < 2 ^ 64)
    : ¬ DecodesAlike [String.utf8EncodeChar c, more] := by
  rintro ⟨-, -, decodes, -⟩
  have whole : [String.utf8EncodeChar c, more].flatten = String.utf8EncodeChar c ++ more := by simp
  have unsplit := decodes [String.utf8EncodeChar c ++ more] (by simp)
  have flat : [String.utf8EncodeChar c ++ more].flatten = String.utf8EncodeChar c ++ more := by simp
  rw [whole] at unsplit
  nth_rewrite 1 [← flat] at unsplit
  refine (decode_iff _ (by rw [flat]; exact size)).mp unsplit
    (.here c rfl (Nat.lt_trans Nat.one_pos several) ⟨several, ?_⟩)
  rw [length_append]
  exact Nat.le_trans long (Nat.le_add_left _ _)

/-- The letter é and 2^32 letters behind it, unsplit: the count is 2 - 2^32 modulo 2^64. -/
theorem overlong_not_alike : ¬ DecodesAlike [[0xC3, 0xA9], List.replicate (2 ^ 32) 0x61] := by
  have encoded : String.utf8EncodeChar 'é' = [0xC3, 0xA9] := by decide
  rw [← encoded]
  apply decode_overlong
  · decide
  · rw [length_replicate]
  · rw [length_append, length_replicate]
    decide

private theorem wcsr2mbsLoop_characters (total : Nat) {chars : List Char} (nonzero : ∀ c ∈ chars, c.val.toBitVec ≠ 0)
    {n : Nat} (room : (chars.flatMap String.utf8EncodeChar).length + 4 ≤ n)
    : wcsr2mbsLoop total (chars.length + 1) (chars.map (·.val.toBitVec)) n
      = ⟨total - (n - (chars.flatMap String.utf8EncodeChar).length),
        chars.flatMap String.utf8EncodeChar ++ [0], none⟩ := by
  induction chars generalizing n with
  | nil =>
    rw [map_nil, wcsr2mbsLoop, if_pos (by omega)]
    rfl
  | cons c chars ih =>
    obtain ⟨first, later⟩ := forall_mem_cons.mp nonzero
    rw [flatMap_cons, length_append] at room ⊢
    rw [map_cons, length_cons, wcsr2mbsLoop_encode c _ (by omega),
      if_neg first, ih later (by omega), Wcsr.behind,
      Nat.sub_sub, ← append_assoc]

/-- A wide string that `wcsr2mbs` has encoded is decoded again, in whatever chunks it comes. -/
theorem wcsr2mbs_roundTrip {chars : List Char} (nonzero : ∀ c ∈ chars, c.val.toBitVec ≠ 0) {n : Nat}
    (room : (chars.flatMap String.utf8EncodeChar).length + 4 ≤ n)
    (size : (chars.flatMap String.utf8EncodeChar).length < 2 ^ 32)
    : ∃ bytes, wcsr2mbsLoop n (chars.length + 1) (chars.map (·.val.toBitVec)) n
        = ⟨bytes.length, bytes ++ [0], none⟩
      ∧ ∀ chunks : List (List UInt8), chunks.flatten = bytes →
        decode chunks = ⟨valuesFrom 0 chars, none, 0⟩ := by
  refine ⟨chars.flatMap String.utf8EncodeChar, ?_, fun chunks whole => ?_⟩
  · rw [wcsr2mbsLoop_characters n nonzero room, Nat.sub_sub_self (by omega)]
  · rw [← whole] at size
    obtain ⟨chars', tail, split, none, values, ends⟩ :=
      (decode_iff chunks (size.trans (by decide))).mpr fun call => absurd call.long size.not_ge
    obtain ⟨rfl, rfl⟩ := characters_unique noStart_nil none
      ((append_nil _).trans (whole.symm.trans split))
    obtain ⟨-, error, state⟩ | ⟨some_, -⟩ | ⟨some_, -⟩ := ends
    · cases run : decode chunks
      simp only [run] at values error state
      rw [values, error, state]
    · exact absurd rfl some_
    · exact absurd rfl some_

/-- The letter é, with room for seven bytes. -/
theorem wcsr2mbs_roundTrip_two
    : ∃ bytes, wcsr2mbsLoop 7 2 [0xE9] 7 = ⟨bytes.length, bytes ++ [0], none⟩
      ∧ ∀ chunks : List (List UInt8), chunks.flatten = bytes →
        decode chunks = ⟨valuesFrom 0 ['é'], none, 0⟩ :=
  @wcsr2mbs_roundTrip ['é'] (forall_mem_singleton.mpr (by decide)) 7 (by decide) (by decide)

end Nglibc.Stdio
