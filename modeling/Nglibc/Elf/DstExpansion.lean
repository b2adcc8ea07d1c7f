import Nglibc.Elf.DstTrusted

/-! The substitution stays in its buffer. What it leaves there depends on the old contents exactly
if the trust in the path has to be checked and the path does not end with a token.
-/

namespace Nglibc.Elf

open List

variable {l : Loader} {input : List UInt8} {fuel pos : Nat}

/-! Pieces of a path -/

/-- A byte that is copied, or a token with its length behind the `$`, and whether it is the first
element of the path.
-/
inductive Piece where
  | byte (c : UInt8)
  | token (name : Token) (len : Nat) (first : Bool)

def pieces : Nat → Nat → List UInt8 → List Piece
  | 0, _, _ => []
  | _ + 1, _, [] => []
  | fuel + 1, pos, c :: input =>
    if c = dollar then
      match knownDst input with
      | some (token, len) =>
        .token token len (pos == 0 && endsElement (input.drop len))
          :: pieces fuel (pos + 1 + len) (input.drop len)
      | none => .byte dollar :: pieces fuel (pos + 1) input
    else .byte c :: pieces fuel (pos + 1) input

def piecesOf (input : List UInt8) : List Piece := pieces (input.length + 1) 0 input

def Piece.isToken : Piece → Bool
  | .byte _ => false
  | .token _ _ _ => true

def Piece.isOrigin : Piece → Bool
  | .byte _ => false
  | .token name _ _ => name == .origin

def Piece.text (l : Loader) : Piece → Option (List UInt8)
  | .byte c => some [c]
  | .token name _ first => l.replacement first name

def expand (l : Loader) : List Piece → Option (List UInt8)
  | [] => some []
  | p :: ps => (p.text l).bind fun t => (expand l ps).map fun more => t ++ more

def Loader.expansion (l : Loader) (input : List UInt8) : Option (List UInt8) :=
  expand l (piecesOf input)

def usesOrigin (input : List UInt8) : Bool := (piecesOf input).any Piece.isOrigin

def endsWithToken (input : List UInt8) : Bool := (piecesOf input).getLast?.any Piece.isToken

/-- What `is_dst` accepts: the name, or the name in braces. -/
theorem isDst_cases {ref : List UInt8} (found : isDst input ref ≠ 0)
    : ∃ rest, input.drop (isDst input ref) = rest
      ∧ (input = ref ++ rest ∧ isDst input ref = ref.length
        ∨ input = 123 :: (ref ++ 125 :: rest) ∧ isDst input ref = ref.length + 2) := by
  refine ⟨_, rfl, ?_⟩
  unfold isDst at found ⊢
  dsimp only at found ⊢
  by_cases curly : (input.headD 0 == 123) = true
  · rw [if_pos curly, if_pos curly] at found
    rw [if_pos curly, if_pos curly]
    cases input with
    | nil => cases curly
    | cons c input =>
      rw [headD_cons, beq_iff_eq] at curly
      rw [tail_cons] at found ⊢
      split_ifs at found ⊢ with wrong
      · exact absurd rfl found
      · simp only [Bool.or_eq_true, Bool.not_eq_true', not_or, Bool.and_eq_true,
          bne_iff_ne] at wrong
        obtain ⟨⟨isPrefix, closing⟩, -⟩ := wrong
        rw [Bool.not_eq_false, isPrefixOf_iff_prefix] at isPrefix
        obtain ⟨rest, rfl⟩ := isPrefix
        rw [drop_left] at closing
        have closed : rest.headD 0 = 125 := by
          by_contra other
          exact closing ⟨by simpa using curly, other⟩
        cases rest with
        | nil => cases closed
        | cons d rest =>
          cases closed
          refine .inr ⟨?_, rfl⟩
          rw [curly]
          simp [drop_append]
  · split_ifs at found ⊢ with wrong
    · exact absurd rfl found
    · simp only [Bool.or_eq_true, Bool.not_eq_true', not_or] at wrong
      obtain ⟨⟨isPrefix, -⟩, -⟩ := wrong
      rw [Bool.not_eq_false, isPrefixOf_iff_prefix] at isPrefix
      obtain ⟨rest, rfl⟩ := isPrefix
      exact .inl ⟨by rw [drop_left], rfl⟩

variable {text : List UInt8} {ps : List Piece} {name : Token} {len : Nat}

theorem knownDst_isDst (known : knownDst input = some (name, len))
    : len = isDst input name.name ∧ isDst input name.name ≠ 0 := by
  unfold knownDst at known
  split_ifs at known with origin platform lib
  · cases known
    exact ⟨rfl, origin⟩
  · cases known
    exact ⟨rfl, platform⟩
  · cases known
    exact ⟨rfl, lib⟩

theorem knownDst_length (known : knownDst input = some (name, len))
    : 3 ≤ len ∧ len ≤ input.length := by
  obtain ⟨rfl, found⟩ := knownDst_isDst known
  have long : 3 ≤ name.name.length := by cases name <;> decide
  obtain ⟨rest, -, ⟨same, len⟩ | ⟨same, len⟩⟩ := isDst_cases found
  · have whole := congrArg List.length same
    rw [length_append] at whole
    omega
  · have whole := congrArg List.length same
    rw [length_cons, length_append, length_cons] at whole
    omega

def Loader.runPieces (l : Loader) : List Piece → Substitution → Option Outcome
  | [], s => some (.finished s)
  | .byte c :: ps, s =>
    (put s.buffer s.wp c).bind fun buffer =>
      l.runPieces ps ⟨buffer, s.wp + 1, s.checkForTrusted⟩
  | .token name _ first :: ps, s =>
    match l.replacement first name with
    | some text =>
      (stpcpy s.buffer s.wp text).bind fun buffer =>
        l.runPieces ps ⟨buffer, s.wp + text.length, l.checks name s.checkForTrusted⟩
    | none => some (.discarded s.buffer)

private theorem substituteLoop_eq (fuelled : input.length < fuel) (s : Substitution)
    : l.substituteLoop fuel pos input s = l.runPieces (pieces fuel pos input) s := by
  induction fuel generalizing pos input s with
  | zero => omega
  | succ fuel ih =>
    cases input with
    | nil => rfl
    | cons c input =>
      rw [length_cons] at fuelled
      have rest : ∀ pos s, l.substituteLoop fuel pos input s
          = l.runPieces (pieces fuel pos input) s := fun pos s => ih (by omega) s
      rw [Loader.substituteLoop, pieces]
      split_ifs with isDollar
      · cases known : knownDst input with
        | none =>
          rw [Loader.runPieces]
          simp only [rest]
        | some found =>
          obtain ⟨name, len⟩ := found
          have shorter : (input.drop len).length < fuel := by
            rw [length_drop]
            omega
          dsimp only
          rw [Loader.runPieces]
          cases l.replacement (pos == 0 && endsElement (input.drop len)) name with
          | none => rfl
          | some text => simp only [ih shorter]
      · rw [Loader.runPieces]
        simp only [rest]

/-! The size of the buffer -/

def tokens (ps : List Piece) : Nat := ps.countP Piece.isToken

/-- The space that is reserved for a piece: a token has `extra` bytes more than in the path. -/
def Piece.space (extra : Nat) : Piece → Nat
  | .byte _ => 1
  | .token _ len _ => 1 + len + extra

def space (extra : Nat) (ps : List Piece) : Nat := (ps.map fun p => p.space extra).sum

section

variable {extra len : Nat} {c : UInt8} {name : Token} {first : Bool} {ps : List Piece}

theorem tokens_byte : tokens (.byte c :: ps) = tokens ps := by
  simp [tokens, Piece.isToken]

theorem tokens_token : tokens (.token name len first :: ps) = tokens ps + 1 :=
  countP_cons_of_pos rfl

theorem space_byte : space extra (.byte c :: ps) = 1 + space extra ps := rfl

theorem space_token
    : space extra (.token name len first :: ps) = 1 + len + extra + space extra ps := rfl

end

private theorem space_pieces (extra : Nat) (fuelled : input.length < fuel)
    : space extra (pieces fuel pos input)
      = input.length + tokens (pieces fuel pos input) * extra := by
  induction fuel generalizing pos input with
  | zero => omega
  | succ fuel ih =>
    cases input with
    | nil => simp [pieces, space, tokens]
    | cons c input =>
      rw [length_cons] at fuelled
      have rest : ∀ d : UInt8, space extra (.byte d :: pieces fuel (pos + 1) input)
          = input.length + 1 + tokens (.byte d :: pieces fuel (pos + 1) input) * extra := by
        intro d
        rw [space_byte, tokens_byte, ih (by omega)]
        omega
      rw [pieces, length_cons]
      split_ifs with isDollar
      · cases known : knownDst input with
        | none => exact rest dollar
        | some found =>
          obtain ⟨name, len⟩ := found
          obtain ⟨-, inside⟩ := knownDst_length known
          have shorter : (input.drop len).length < fuel := by
            rw [length_drop]
            omega
          rw [space_token, tokens_token, ih shorter, length_drop, Nat.add_mul]
          omega
      · exact rest c

/-- The count of `_dl_dst_count` is the number of tokens that are replaced. -/
theorem dstCountLoop_eq {fuel' : Nat} (fuelled : input.length < fuel)
    (fuelled' : input.length < fuel')
    : dstCountLoop fuel' input = tokens (pieces fuel pos input) := by
  induction fuel generalizing pos input fuel' with
  | zero => omega
  | succ fuel ih =>
    obtain ⟨fuel', rfl⟩ : ∃ n, fuel' = n + 1 := ⟨fuel' - 1, by omega⟩
    cases input with
    | nil => rfl
    | cons c input =>
      rw [length_cons] at fuelled fuelled'
      rw [pieces]
      split_ifs with isDollar
      · rw [dstCountLoop, dropWhile_cons_of_neg (by simp [isDollar])]
        dsimp only
        cases known : knownDst input with
        | none => exact (ih (by omega) (by omega)).trans tokens_byte.symm
        | some found =>
          obtain ⟨name, len⟩ := found
          have shorter : (input.drop len).length ≤ input.length := by
            rw [length_drop]
            omega
          dsimp only
          rw [tokens_token, Nat.add_comm]
          exact congrArg (· + 1) (ih (by omega) (by omega))
      · have same : dstCountLoop (fuel' + 1) (c :: input) = dstCountLoop (fuel' + 1) input := by
          rw [dstCountLoop, dstCountLoop, dropWhile_cons_of_pos (by simpa using isDollar)]
        rw [same]
        exact ih (by omega) (by omega)

theorem dstRequired_eq (l : Loader) (input : List UInt8)
    : l.dstRequired input = space (l.longest - 4) (piecesOf input) := by
  have enough : input.length < input.length + 1 := by omega
  unfold Loader.dstRequired dstCount piecesOf
  rw [space_pieces _ enough, dstCountLoop_eq enough enough]

variable {first : Bool}

private theorem replacement_length (found : l.replacement first name = some text)
    : text.length ≤ l.longest := by
  unfold Loader.longest
  cases name with
  | origin =>
    rw [Loader.replacement] at found
    split_ifs at found
    rw [found, Option.getD_some]
    omega
  | platform =>
    rw [Loader.replacement] at found
    rw [found, Option.getD_some]
    omega
  | lib =>
    cases found
    omega

private theorem replacement_noNul (found : l.replacement first name = some text)
    : 0 ∉ text := by
  obtain ⟨origin, platform, lib⟩ := l.noNul
  cases name with
  | origin =>
    rw [Loader.replacement] at found
    split_ifs at found
    rw [found] at origin
    exact origin
  | platform =>
    rw [Loader.replacement] at found
    rw [found] at platform
    exact platform
  | lib =>
    cases found
    exact lib

/-! The loop in its buffer -/

def Long (ps : List Piece) : Prop := ∀ name len first, Piece.token name len first ∈ ps → 3 ≤ len

private theorem pieces_long : Long (pieces fuel pos input) := by
  induction fuel generalizing pos input with
  | zero => exact fun _ _ _ member => nomatch member
  | succ fuel ih =>
    intro name len first member
    cases input with
    | nil => cases member
    | cons c input =>
      rw [pieces] at member
      split_ifs at member with isDollar
      · cases known : knownDst input with
        | none =>
          rw [known] at member
          exact ih name len first (mem_of_ne_of_mem (by simp) member)
        | some found =>
          rw [known] at member
          rcases mem_cons.mp member with same | later
          · cases same
            exact (knownDst_length known).1
          · exact ih name len first later
      · exact ih name len first (mem_of_ne_of_mem (by simp) member)

/-- `check_for_trusted` after pieces. -/
def Loader.checksAll (l : Loader) (ps : List Piece) (before : Bool) : Bool :=
  if ps.any Piece.isOrigin then l.secure && l.executable else before

/-- What the loop leaves in the buffer behind the text of `ps`, if `tail` was there. Behind a token
there is a terminator, behind a byte there are old contents.
-/
structure Behind (ps : List Piece) (tail after : List UInt8) : Prop where
  token : ps.getLast?.any Piece.isToken = true → after.head? = some 0
  same : ps = [] → after = tail
  byte : ps ≠ [] → ps.getLast?.any Piece.isToken = false → ∀ c ∈ after, c ∈ tail.tail

theorem checksAll_byte {c : UInt8} {before : Bool}
    : l.checksAll (.byte c :: ps) before = l.checksAll ps before := by
  simp [Loader.checksAll, Piece.isOrigin]

theorem checksAll_token {before : Bool}
    : l.checksAll (.token name len first :: ps) before = l.checksAll ps (l.checks name before) := by
  unfold Loader.checksAll Loader.checks
  cases name <;> simp [Piece.isOrigin]

theorem put_append (front : List UInt8) {tail : List UInt8} (room : tail ≠ []) (c : UInt8)
    : put (front ++ tail) front.length c = some (front ++ c :: tail.tail) := by
  cases tail with
  | nil => exact absurd rfl room
  | cons d tail =>
    unfold put
    rw [if_pos (by simp), List.set_append_right _ _ (Nat.le_refl _), Nat.sub_self]
    rfl

theorem stpcpy_append (front : List UInt8) {tail text : List UInt8}
    (room : text.length < tail.length)
    : stpcpy (front ++ tail) front.length text
      = some (front ++ (text ++ 0 :: tail.drop (text.length + 1))) := by
  unfold stpcpy
  rw [if_pos (by rw [length_append]; omega), take_left, Nat.add_assoc,
    drop_length_add_append]

theorem Behind.byte_cons {c : UInt8} {tail after : List UInt8} (behind : Behind ps tail.tail after)
    : Behind (.byte c :: ps) tail after := by
  cases ps with
  | nil =>
    refine ⟨fun no => (nomatch no), fun none => (nomatch none), fun _ _ c member => ?_⟩
    rw [behind.same rfl] at member
    exact member
  | cons p ps =>
    refine ⟨fun last => behind.token ?_, fun none => (nomatch none), fun _ last c member => ?_⟩
    · exact last
    · refine mem_of_mem_tail (behind.byte (cons_ne_nil p ps) ?_ c member)
      exact last

private theorem Behind.token_cons {tail after : List UInt8} {n : Nat}
    (behind : Behind ps (0 :: tail.drop (n + 1)) after)
    : Behind (.token name len first :: ps) tail after := by
  cases ps with
  | nil =>
    refine ⟨fun _ => ?_, fun none => (nomatch none), fun _ no => (nomatch no)⟩
    rw [behind.same rfl]
    rfl
  | cons p ps =>
    refine ⟨fun last => behind.token ?_, fun none => (nomatch none), fun _ last c member => ?_⟩
    · exact last
    · have old := behind.byte (cons_ne_nil p ps)
        (by rw [← getLast?_cons_cons]; exact last) c member
      rw [Nat.add_comm, ← drop_drop, drop_one] at old
      exact mem_of_mem_drop old

theorem Piece.text_length {p : Piece} (found : p.text l = some text) (long : Long [p])
    : text.length ≤ p.space (l.longest - 4) := by
  cases p with
  | byte c =>
    cases found
    exact Nat.le_refl 1
  | token name len first =>
    have short := replacement_length found
    have three := long name len first mem_cons_self
    rw [Piece.space]
    omega

/-- A round of the loop for a piece that has a text. -/
theorem runPieces_step {p : Piece} (found : p.text l = some text) (ps : List Piece) (front : List UInt8)
    {tail : List UInt8} (check : Bool) (room : text.length < tail.length)
    : ∃ tail' check', tail'.length + text.length = tail.length
      ∧ l.checksAll (p :: ps) check = l.checksAll ps check'
      ∧ (∀ after, Behind ps tail' after → Behind (p :: ps) tail after)
      ∧ l.runPieces (p :: ps) ⟨front ++ tail, front.length, check⟩
        = l.runPieces ps ⟨front ++ text ++ tail', (front ++ text).length, check'⟩ := by
  rw [length_append]
  cases p with
  | byte c =>
    cases found
    refine ⟨tail.tail, check, ?_, checksAll_byte, fun _ => Behind.byte_cons, ?_⟩
    · rw [length_tail, length_singleton]
      omega
    · have nonempty : tail ≠ [] := ne_nil_of_length_pos (by omega)
      rw [Loader.runPieces]
      rw [put_append front nonempty, append_assoc]
      rfl
  | token name len first =>
    refine ⟨0 :: tail.drop (text.length + 1), l.checks name check, ?_, checksAll_token,
      fun _ => Behind.token_cons, ?_⟩
    · rw [length_cons, length_drop]
      omega
    · rw [Piece.text] at found
      rw [Loader.runPieces, found]
      dsimp only
      rw [stpcpy_append front room, Option.bind_some, append_assoc]

/-- The loop replaces the tokens inside the buffer. -/
theorem runPieces_expand {N : Nat} (ps : List Piece) (long : Long ps) (front tail : List UInt8)
    (check : Bool) (size : front.length + tail.length = N + 1)
    (room : front.length + space (l.longest - 4) ps ≤ N)
    : (expand l ps = none → ∃ buffer, buffer.length = N + 1
        ∧ l.runPieces ps ⟨front ++ tail, front.length, check⟩ = some (.discarded buffer))
      ∧ ∀ text, expand l ps = some text →
        ∃ after, Behind ps tail after ∧ (front ++ text ++ after).length = N + 1 ∧ after ≠ []
        ∧ l.runPieces ps ⟨front ++ tail, front.length, check⟩
          = some (.finished ⟨front ++ text ++ after, (front ++ text).length,
            l.checksAll ps check⟩) := by
  induction ps generalizing front tail check with
  | nil =>
    refine ⟨fun none => (nomatch none), fun text whole => ?_⟩
    cases whole
    have nonempty : tail ≠ [] := ne_nil_of_length_pos (by omega)
    rw [append_nil]
    exact ⟨tail, ⟨fun no => (nomatch no), fun _ => rfl, fun none => absurd rfl none⟩,
      by rw [length_append, size], nonempty, rfl⟩
  | cons p ps ih =>
    have needed : space (l.longest - 4) (p :: ps)
        = p.space (l.longest - 4) + space (l.longest - 4) ps := rfl
    rw [expand]
    cases found : p.text l with
    | none =>
      refine ⟨fun _ => ⟨front ++ tail, by rw [length_append, size], ?_⟩,
        fun text whole => (nomatch whole)⟩
      cases p with
      | byte c => cases found
      | token name len first =>
        rw [Piece.text] at found
        rw [Loader.runPieces, found]
    | some text =>
      have short := Piece.text_length found fun name len first member =>
        long name len first (mem_singleton.mp member ▸ mem_cons_self)
      obtain ⟨tail', check', less, checks, behind, step⟩ :=
        runPieces_step found ps front check (by omega : text.length < tail.length)
      obtain ⟨discards, finishes⟩ := ih
        (fun name len first member => long name len first (mem_cons_of_mem _ member))
        (front ++ text) tail' check' (by rw [length_append]; omega)
        (by rw [length_append]; omega)
      rw [step, checks]
      constructor
      · intro fails
        exact discards (Option.map_eq_none_iff.mp fails)
      · intro whole same
        obtain ⟨more, rest, rfl⟩ := Option.map_eq_some_iff.mp same
        obtain ⟨after, old, full, nonempty, result⟩ := finishes more rest
        rw [← append_assoc]
        exact ⟨after, behind after old, full, nonempty, result⟩

theorem expand_noNul (whole : expand l ps = some text) (noNul : ∀ c, Piece.byte c ∈ ps → c ≠ 0)
    : 0 ∉ text := by
  induction ps generalizing text with
  | nil =>
    cases whole
    exact not_mem_nil
  | cons p ps ih =>
    obtain ⟨first, found, rest⟩ := Option.bind_eq_some_iff.mp whole
    obtain ⟨more, later, rfl⟩ := Option.map_eq_some_iff.mp rest
    have tail := ih later fun c member => noNul c (mem_cons_of_mem _ member)
    have head : 0 ∉ first := by
      cases p with
      | byte c =>
        cases found
        simpa using Ne.symm (noNul c mem_cons_self)
      | token name len first => exact replacement_noNul found
    exact fun member => (mem_append.mp member).elim head tail

theorem pieces_noNul (noNul : 0 ∉ input) : ∀ c, Piece.byte c ∈ pieces fuel pos input → c ≠ 0 := by
  induction fuel generalizing pos input with
  | zero => exact fun c member => (nomatch member)
  | succ fuel ih =>
    intro d member
    cases input with
    | nil => cases member
    | cons c input =>
      have rest : 0 ∉ input := fun nul => noNul (mem_cons_of_mem _ nul)
      rw [pieces] at member
      split_ifs at member with isDollar
      · cases known : knownDst input with
        | none =>
          rw [known] at member
          rcases mem_cons.mp member with same | later
          · cases same
            decide
          · exact ih rest d later
        | some found =>
          rw [known] at member
          exact ih (fun nul => rest (mem_of_mem_drop nul)) d
            (mem_of_ne_of_mem (by simp) member)
      · rcases mem_cons.mp member with same | later
        · cases same
          exact fun nul => noNul (nul ▸ mem_cons_self)
        · exact ih rest d later

/-! The first element -/

/-- The path is `$ORIGIN` or `${ORIGIN}`, alone or in front of a slash. -/
def OriginFirst (input : List UInt8) : Prop := ∃ rest, endsElement rest = true
    ∧ (input = dollar :: (Token.origin.name ++ rest)
      ∨ input = dollar :: 123 :: (Token.origin.name ++ 125 :: rest))

private theorem pieces_later (later : 0 < pos)
    : ∀ name len first, Piece.token name len first ∈ pieces fuel pos input → first = false := by
  induction fuel generalizing pos input with
  | zero => exact fun _ _ _ member => (nomatch member)
  | succ fuel ih =>
    intro name len first member
    cases input with
    | nil => cases member
    | cons c input =>
      rw [pieces] at member
      split_ifs at member with isDollar
      · cases known : knownDst input with
        | none =>
          rw [known] at member
          exact ih (by omega) name len first (mem_of_ne_of_mem (by simp) member)
        | some found =>
          rw [known] at member
          rcases mem_cons.mp member with same | further
          · cases same
            rw [beq_eq_false_iff_ne.mpr (by omega : pos ≠ 0), Bool.false_and]
          · exact ih (by omega) name len first further
      · exact ih (by omega) name len first (mem_of_ne_of_mem (by simp) member)

theorem expand_text (whole : expand l ps = some text)
    : ∀ p ∈ ps, p.text l ≠ none := by
  induction ps generalizing text with
  | nil => exact forall_mem_nil _
  | cons p ps ih =>
    obtain ⟨first, found, rest⟩ := Option.bind_eq_some_iff.mp whole
    obtain ⟨more, later, -⟩ := Option.map_eq_some_iff.mp rest
    refine forall_mem_cons.mpr ⟨?_, ih later⟩
    rw [found]
    exact Option.some_ne_none first

/-- The pieces of a path one of whose origins is its first element. -/
theorem piecesOf_first (member : Piece.token .origin len true ∈ piecesOf input)
    : OriginFirst input ∧ ∃ len ps, piecesOf input = .token .origin len true :: ps := by
  have tail : ∀ fuel pos rest, 0 < pos → Piece.token .origin len true ∉ pieces fuel pos rest :=
    fun fuel pos rest later there => Bool.noConfusion (pieces_later later _ _ _ there)
  unfold piecesOf at member ⊢
  cases input with
  | nil => cases member
  | cons c input =>
    rw [pieces] at member ⊢
    split_ifs at member ⊢ with isDollar
    · cases known : knownDst input with
      | none =>
        rw [known] at member
        exact absurd (mem_of_ne_of_mem (by simp) member) (tail _ _ _ (by omega))
      | some found =>
        obtain ⟨name, n⟩ := found
        rw [known] at member
        dsimp only at member ⊢
        rcases mem_cons.mp member with same | later
        · simp only [Piece.token.injEq, beq_self_eq_true, Bool.true_and] at same
          obtain ⟨rfl, rfl, ends⟩ := same
          refine ⟨?_, _, _, by rw [← ends]; rfl⟩
          obtain ⟨size, found⟩ := knownDst_isDst known
          obtain ⟨rest, behind, shape⟩ := isDst_cases found
          rw [← size] at behind
          refine ⟨rest, by rw [← behind, ← ends], ?_⟩
          rw [isDollar]
          exact shape.imp (fun plain => by rw [← plain.1]) fun curly => by rw [← curly.1]
        · exact absurd later (tail _ _ _ (by omega))
    · exact absurd (mem_of_ne_of_mem (by simp) member) (tail _ _ _ (by omega))

/-- In a secure program, a path that uses the origin and can be expanded begins with it. -/
theorem expansion_origin (secure : l.secure = true) (uses : usesOrigin input = true)
    (whole : l.expansion input = some text)
    : OriginFirst input ∧ text.head? = some slash := by
  obtain ⟨p, member, isOrigin⟩ := any_eq_true.mp uses
  have replaced := expand_text whole p member
  cases p with
  | byte c => cases isOrigin
  | token name len first =>
    obtain rfl : name = .origin := by simpa [Piece.isOrigin] using isOrigin
    obtain rfl : first = true := by
      by_contra other
      refine replaced ?_
      rw [Piece.text, Loader.replacement, if_pos (by simp [secure, other])]
    obtain ⟨shape, len, ps, same⟩ := piecesOf_first member
    refine ⟨shape, ?_⟩
    unfold Loader.expansion at whole
    rw [same, expand, Piece.text, Loader.replacement, if_neg (by simp)] at whole
    obtain ⟨first, found, rest⟩ := Option.bind_eq_some_iff.mp whole
    obtain ⟨more, -, rfl⟩ := Option.map_eq_some_iff.mp rest
    rw [head?_append, l.absolute secure first found, Option.some_or]

/-! The result -/

/-- What a substitution has to do: it stays in the buffer and its result does not depend on what
was there, and in a secure executable a path that uses the origin is kept only if it begins with
it and is, fully expanded, inside a trusted directory.
-/
structure Loader.SubstitutesSafely (l : Loader) (input : List UInt8) : Prop where
  same : ∃ result, ∀ buffer, buffer.length = l.dstRequired input + 1 →
    ∃ after, l.dstSubstitute input buffer = some after ∧ cString after = some result
  trusted : l.secure = true → l.executable = true → usesOrigin input = true →
    ∀ buffer, buffer.length = l.dstRequired input + 1 →
    ∀ after result, l.dstSubstitute input buffer = some after → cString after = some result →
    result ≠ [] → OriginFirst input ∧ l.expansion input = some result
      ∧ result.head? = some slash ∧ l.Trusts (lexicalNames result)

structure Loader.Checked (l : Loader) (input text : List UInt8) : Prop where
  secure : l.secure = true
  executable : l.executable = true
  uses : usesOrigin input = true
  expands : l.expansion input = some text

theorem put_terminates {text after : List UInt8} (noNul : 0 ∉ text) (room : after ≠ [])
    : ∃ buffer, put (text ++ after) text.length 0 = some buffer ∧ cString buffer = some text :=
  ⟨_, put_append text room 0, cString_terminated noNul _⟩

variable {buffer : List UInt8}

theorem put_clears (room : buffer ≠ [])
    : ∃ after, put buffer 0 0 = some after ∧ cString after = some [] :=
  ⟨_, put_append [] room 0, cString_terminated not_mem_nil _⟩

/-- The loop of a substitution, seen as a whole. -/
theorem substituteLoop_expansion (size : buffer.length = l.dstRequired input + 1)
    : (l.expansion input = none → ∃ after, after ≠ []
        ∧ l.substituteLoop (input.length + 1) 0 input ⟨buffer, 0, false⟩ = some (.discarded after))
      ∧ ∀ text, l.expansion input = some text →
        ∃ after, Behind (piecesOf input) buffer after ∧ after ≠ []
        ∧ l.substituteLoop (input.length + 1) 0 input ⟨buffer, 0, false⟩
          = some (.finished ⟨text ++ after, text.length, l.checksAll (piecesOf input) false⟩) := by
  have enough : input.length < input.length + 1 := by omega
  have fits : ([] : List UInt8).length + space (l.longest - 4) (piecesOf input)
      ≤ l.dstRequired input := by
    rw [length_nil, Nat.zero_add]
    exact Nat.le_of_eq (dstRequired_eq l input).symm
  obtain ⟨discards, finishes⟩ := runPieces_expand (piecesOf input) pieces_long [] buffer false
    (by rw [length_nil, Nat.zero_add, size]) fits
  rw [substituteLoop_eq enough]
  constructor
  · intro fails
    obtain ⟨after, full, run⟩ := discards fails
    exact ⟨after, ne_nil_of_length_pos (by omega), run⟩
  · intro text whole
    obtain ⟨after, behind, -, nonempty, run⟩ := finishes text whole
    exact ⟨after, behind, nonempty, run⟩

theorem checksAll_eq : l.checksAll (piecesOf input) false = true ↔
    l.secure = true ∧ l.executable = true ∧ usesOrigin input = true := by
  unfold Loader.checksAll usesOrigin
  split_ifs with uses
  · simp [uses]
  · simp [uses]

section

variable (nonempty : input ≠ [])

include nonempty

theorem dstSubstitute_discards (size : buffer.length = l.dstRequired input + 1)
    (fails : l.expansion input = none)
    : ∃ after, l.dstSubstitute input buffer = some after ∧ cString after = some [] := by
  obtain ⟨after, room, run⟩ := (substituteLoop_expansion size).1 fails
  unfold Loader.dstSubstitute
  rw [if_neg nonempty, run]
  exact put_clears room

variable {buffer text : List UInt8}

theorem dstSubstitute_finishes (size : buffer.length = l.dstRequired input + 1)
    (whole : l.expansion input = some text)
    : ∃ after, Behind (piecesOf input) buffer after ∧ after ≠ []
      ∧ l.dstSubstitute input buffer = l.conclude (.finished ⟨text ++ after, text.length,
        l.checksAll (piecesOf input) false⟩) := by
  obtain ⟨after, behind, room, run⟩ := (substituteLoop_expansion size).2 text whole
  refine ⟨after, behind, room, ?_⟩
  unfold Loader.dstSubstitute
  rw [if_neg nonempty, run, Option.bind_some]

theorem dstSubstitute_unchecked (noNul : 0 ∉ text) (size : buffer.length = l.dstRequired input + 1)
    (whole : l.expansion input = some text) (unchecked : ¬ l.Checked input text)
    : ∃ after, l.dstSubstitute input buffer = some after ∧ cString after = some text := by
  obtain ⟨after, -, room, run⟩ := dstSubstitute_finishes nonempty size whole
  have none : ¬ l.checksAll (piecesOf input) false = true := by
    rw [checksAll_eq]
    rintro ⟨secure, executable, uses⟩
    exact unchecked ⟨secure, executable, uses, whole⟩
  rw [run, Loader.conclude, if_neg none]
  exact put_terminates noNul room

theorem dstSubstitute_terminated (noNul : 0 ∉ text) (size : buffer.length = l.dstRequired input + 1)
    (checked : l.Checked input text) (last : endsWithToken input = true)
    : (l.Trusts (writtenNames text) →
        ∃ after, l.dstSubstitute input buffer = some after ∧ cString after = some text)
      ∧ (¬ l.Trusts (writtenNames text) →
        ∃ after, l.dstSubstitute input buffer = some after ∧ cString after = some []) := by
  obtain ⟨after, behind, room, run⟩ := dstSubstitute_finishes nonempty size checked.expands
  obtain ⟨-, absolute⟩ := expansion_origin checked.secure checked.uses checked.expands
  obtain ⟨more, rfl⟩ := head?_eq_some_iff.mp (behind.token last)
  obtain ⟨trusted, verdict, meaning⟩ := l.isTrustedPathNormalize_terminated absolute noNul more
  rw [run, Loader.conclude,
    if_pos (checksAll_eq.mpr ⟨checked.secure, checked.executable, checked.uses⟩), verdict,
    Option.bind_some]
  constructor
  · intro yes
    rw [if_pos (meaning.mpr yes)]
    exact put_terminates noNul room
  · intro no
    rw [if_neg (fun yes => no (meaning.mp yes))]
    exact put_clears (append_ne_nil_of_right_ne_nil _ room)

/-- Behind a byte, the check reads on, in the worst case behind the buffer. -/
theorem dstSubstitute_unterminated (noNul : 0 ∉ text) (checked : l.Checked input text)
    (last : endsWithToken input = false)
    : l.dstSubstitute input (List.replicate (l.dstRequired input + 1) 1) = none := by
  obtain ⟨after, behind, -, run⟩ :=
    dstSubstitute_finishes nonempty (length_replicate ..) checked.expands
  obtain ⟨-, absolute⟩ := expansion_origin checked.secure checked.uses checked.expands
  have some : piecesOf input ≠ [] := by
    intro none
    have uses := checked.uses
    rw [usesOrigin, none] at uses
    cases uses
  have dirty : 0 ∉ after := by
    intro member
    have old : 0 ∈ List.replicate (l.dstRequired input + 1) (1 : UInt8) :=
      mem_of_mem_tail (behind.byte some last 0 member)
    exact absurd (eq_of_mem_replicate old) (by decide)
  have long : text.length ≠ 0 := by
    rintro empty
    rw [eq_nil_of_length_eq_zero empty] at absolute
    cases absolute
  have endless : cString (text ++ after) = none :=
    if_neg fun member => (mem_append.mp member).elim noNul dirty
  rw [run, Loader.conclude,
    if_pos (checksAll_eq.mpr ⟨checked.secure, checked.executable, checked.uses⟩)]
  unfold Loader.isTrustedPathNormalize
  rw [if_neg long, endless]
  rfl

/-- The result of a substitution that meets the condition, whatever the buffer held. -/
theorem dstSubstitute_result (string : 0 ∉ input)
    (ends : ∀ text, l.Checked input text → endsWithToken input = true)
    : ∃ result, (∀ buffer, buffer.length = l.dstRequired input + 1 →
        ∃ after, l.dstSubstitute input buffer = some after ∧ cString after = some result)
      ∧ (result ≠ [] → l.expansion input = some result
        ∧ (l.Checked input result → l.Trusts (writtenNames result))) := by
  cases whole : l.expansion input with
  | none =>
    exact ⟨[], fun buffer size => dstSubstitute_discards nonempty size whole,
      fun none => absurd rfl none⟩
  | some text =>
    have noNul := expand_noNul whole (pieces_noNul string)
    by_cases checked : l.Checked input text
    · by_cases trusts : l.Trusts (writtenNames text)
      · exact ⟨text, fun buffer size =>
          (dstSubstitute_terminated nonempty noNul size checked (ends text checked)).1 trusts,
          fun _ => ⟨rfl, fun _ => trusts⟩⟩
      · exact ⟨[], fun buffer size =>
          (dstSubstitute_terminated nonempty noNul size checked (ends text checked)).2 trusts,
          fun none => absurd rfl none⟩
    · exact ⟨text, fun buffer size =>
        dstSubstitute_unchecked nonempty noNul size whole checked,
        fun _ => ⟨rfl, fun yes => absurd yes checked⟩⟩

end

/-- A substitution is safe exactly if a path that has to be checked ends with a token, and is not
taken for a path in a trusted directory because of a ".." behind an empty name. Without such a ".."
it is not.
-/
theorem substitutesSafely_iff (l : Loader) (input : List UInt8) (string : 0 ∉ input)
    (token : dstCount input ≠ 0)
    : (l.SubstitutesSafely input ↔ ∀ text, l.Checked input text → endsWithToken input = true
          ∧ (l.Trusts (writtenNames text) → l.Trusts (lexicalNames text)))
      ∧ ∀ text, NothingHidden text → l.Trusts (writtenNames text) → l.Trusts (lexicalNames text) := by
  refine ⟨?_, fun text nothing => nothing.names_eq ▸ id⟩
  have nonempty : input ≠ [] := by
    rintro rfl
    exact token rfl
  have clean : ∀ text, l.expansion input = some text → 0 ∉ text :=
    fun text whole => expand_noNul whole (pieces_noNul string)
  constructor
  · intro safe text checked
    have noNul := clean text checked.expands
    obtain ⟨result, same⟩ := safe.same
    have last : endsWithToken input = true := by
      by_contra other
      obtain ⟨after, run, -⟩ := same _ (length_replicate ..)
      rw [dstSubstitute_unterminated nonempty noNul checked (by simpa using other)] at run
      cases run
    refine ⟨last, fun trusts => ?_⟩
    obtain ⟨after, run, found⟩ := (dstSubstitute_terminated nonempty noNul
      (length_replicate (a := 0)) checked last).1 trusts
    have absolute := (expansion_origin checked.secure checked.uses checked.expands).2
    have long : text ≠ [] := by
      rintro rfl
      cases absolute
    exact (safe.trusted checked.secure checked.executable checked.uses _
      (length_replicate ..) after text run found long).2.2.2
  · intro condition
    obtain ⟨result, same, kept⟩ := dstSubstitute_result nonempty string
      fun text checked => (condition text checked).1
    refine ⟨⟨result, same⟩, ?_⟩
    intro secure executable uses buffer size after found run text long
    obtain ⟨after', run', text'⟩ := same buffer size
    rw [run] at run'
    cases run'
    rw [text] at text'
    cases text'
    obtain ⟨whole, trusts⟩ := kept long
    have checked : l.Checked input result := ⟨secure, executable, uses, whole⟩
    obtain ⟨first, absolute⟩ := expansion_origin secure uses whole
    exact ⟨first, whole, absolute, (condition result checked).2 (trusts checked)⟩

/-- A secure executable in the trusted directory "/lib", where `DL_DST_LIB` is "lib64". -/
def suidLoader : Loader where
  secure := true
  executable := true
  origin := some [47, 108, 105, 98]
  platform := none
  lib := [108, 105, 98, 54, 52]
  systemDirs := [⟨[[108, 105, 98]], by decide⟩]
  noNul := by decide
  absolute := by
    rintro - text same
    cases same
    rfl

def originPath : List UInt8 := dollar :: Token.origin.name

theorem substitutesSafely_origin
    : (0 ∉ originPath ∧ dstCount originPath ≠ 0) ∧ suidLoader.SubstitutesSafely originPath := by
  refine ⟨by decide, (substitutesSafely_iff suidLoader originPath (by decide) (by decide)).1.mpr ?_⟩
  intro text checked
  have whole := checked.expands
  obtain rfl : [47, 108, 105, 98] = text := Option.some.inj whole
  refine ⟨by decide, ?_⟩
  exact id

def libraryPath : List UInt8 := originPath ++ [47, 47, 46, 46, 47, 36] ++ Token.lib.name

/-- The check of "$ORIGIN/x" reads what the buffer held before, and "/lib//../lib64" is taken for a
path in "/lib".
-/
theorem not_substitutesSafely
    : ¬ suidLoader.SubstitutesSafely (originPath ++ [47, 120])
      ∧ ¬ suidLoader.SubstitutesSafely libraryPath := by
  constructor
  · rintro ⟨⟨result, same⟩, -⟩
    obtain ⟨after, run, -⟩ := same (List.replicate 11 1) (by decide)
    cases run
  · rintro ⟨-, trusted⟩
    have checked : suidLoader.Checked libraryPath
        [47, 108, 105, 98, 47, 47, 46, 46, 47, 108, 105, 98, 54, 52] :=
      ⟨rfl, rfl, by decide, by decide⟩
    have kept : suidLoader.Trusts
        (writtenNames [47, 108, 105, 98, 47, 47, 46, 46, 47, 108, 105, 98, 54, 52]) := by
      unfold Loader.Trusts
      decide
    obtain ⟨after, run, found⟩ := (dstSubstitute_terminated (by decide) (by decide)
      (length_replicate (a := 0)) checked (by decide)).1 kept
    have inside := (trusted rfl rfl (by decide) _ (length_replicate (a := 0)) after _ run found
      (by decide)).2.2.2
    revert inside
    unfold Loader.Trusts
    decide

end Nglibc.Elf
