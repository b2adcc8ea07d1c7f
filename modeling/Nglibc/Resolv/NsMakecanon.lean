import Nglibc.Lib.Escapes
import Nglibc.Resolv.NsNameText

/-! `resolv/ns_makecanon.c`: the text of a name with one dot at its end. Texts are the bytes before the
null terminator.
-/

namespace Nglibc.Resolv

open List

def dot : UInt8 := UInt8.ofNat '.'.toNat

def backslash : UInt8 := UInt8.ofNat '\\'.toNat

/-- The loop of `__libc_ns_makecanon`: how many bytes of `dst` it leaves. -/
def makecanonLoop (dst : List UInt8) : Nat → Nat
  | 0 => 0
  | n + 1 =>
    if dst.getD n 0 = dot then
      if n + 1 ≥ 2 ∧ dst.getD (n - 1) 0 = backslash ∧ (n + 1 < 3 ∨ dst.getD (n - 2) 0 ≠ backslash) then
        n + 1
      else makecanonLoop dst n
    else n + 1

/-- `__libc_ns_makecanon`: the text in `dst`. -/
def nsMakecanon (src : List UInt8) (dstsize : Nat) : Except Errno (List UInt8) :=
  let n := src.length
  if n + 2 > dstsize then .error .emsgsize else .ok (src.take (makecanonLoop src n) ++ [dot])

variable {src text : List UInt8} {dst mem : Memory UInt8} {dstsiz dstsize r : Nat} {escaped : Bool}
  {p : Pton}

/-! The dots that are removed -/

/-- The bytes behind the `n` ones that are left do not matter. -/
theorem makecanonLoop_append (text more : List UInt8) {n : Nat} (inside : n ≤ text.length)
    : makecanonLoop (text ++ more) n = makecanonLoop text n := by
  induction n with
  | zero => rfl
  | succ n ih =>
    have get {k : Nat} (small : k ≤ n) : (text ++ more).getD k 0 = text.getD k 0 :=
      getD_append _ _ _ _ (by omega)
    rw [makecanonLoop, makecanonLoop, get le_rfl, get (Nat.sub_le n 1), get (Nat.sub_le n 2),
      ih (by omega)]

theorem makecanonLoop_le (text : List UInt8) (n : Nat) : makecanonLoop text n ≤ n := by
  induction n with
  | zero => exact le_rfl
  | succ n ih =>
    rw [makecanonLoop]
    split
    · split
      · exact le_rfl
      · exact Nat.le_succ_of_le ih
    · exact le_rfl

def canonStem (text : List UInt8) : List UInt8 := text.take (makecanonLoop text text.length)

variable {c : UInt8}

theorem canonStem_other (other : c ≠ dot) : canonStem (text ++ [c]) = text ++ [c] := by
  have last : (text ++ [c]).getD text.length 0 = c := by simp
  rw [canonStem, length_append, length_singleton, makecanonLoop, last, if_neg other]
  exact take_of_length_le (by simp)

/-- What the loop looks at before a dot: whether the run of backslashes has the length 1. -/
theorem looks_back_iff
    : text.length + 1 ≥ 2 ∧ (text ++ [dot]).getD (text.length - 1) 0 = backslash
        ∧ (text.length + 1 < 3 ∨ (text ++ [dot]).getD (text.length - 2) 0 ≠ backslash)
      ↔ escapeRun backslash text = 1 := by
  cases text using List.reverseRecOn with
  | nil => simp
  | append_singleton before c =>
    by_cases same : c = backslash
    · subst same
      rw [escapeRun_concat_self]
      cases before using List.reverseRecOn with
      | nil => simp
      | append_singleton before d =>
        by_cases same : d = backslash
        · subst same
          rw [escapeRun_concat_self]
          simp
        · rw [escapeRun_concat_other same]
          simp [same]
    · rw [escapeRun_concat_other same]
      simp [same]

/-- A dot behind a single backslash is left, any other one is removed. -/
theorem canonStem_dot
    : canonStem (text ++ [dot])
        = if escapeRun backslash text = 1 then text ++ [dot] else canonStem text := by
  have last : (text ++ [dot]).getD text.length 0 = dot := by simp
  rw [canonStem, length_append, length_singleton, makecanonLoop, last, if_pos rfl]
  by_cases single : escapeRun backslash text = 1
  · rw [if_pos (looks_back_iff.mpr single), if_pos single]
    exact take_of_length_le (by simp)
  · rw [if_neg (fun looks => single (looks_back_iff.mp looks)), if_neg single,
      makecanonLoop_append text [dot] le_rfl, canonStem,
      take_append_of_le_length (makecanonLoop_le text _)]

/-! What ns_name_pton accepts -/

theorem toNat_eq_dot : c.toNat = '.'.toNat ↔ c = dot := UInt8.toNat_inj (b := dot)

theorem toNat_eq_backslash : c.toNat = '\\'.toNat ↔ c = backslash :=
  UInt8.toNat_inj (b := backslash)

theorem isDigit_ne (digit : isDigit c = true) : c ≠ dot ∧ c ≠ backslash := by
  constructor
  · rintro rfl
    exact absurd digit (by decide)
  · rintro rfl
    exact absurd digit (by decide)

/-- What one round of the loop reads, with what it leaves for the next one whatever follows. A
separator is read only in front of a label.
-/
structure PtonRead (dstsiz : Nat) (p : Pton) (escaped : Bool) (eaten rest : List UInt8) (p' : Pton) : Prop
    where
  nonempty : eaten ≠ []
  next : ∀ tail, ptonLoop dstsiz (eaten ++ (rest ++ tail)) escaped p
    = ptonLoop dstsiz (rest ++ tail) (escapedAfter backslash eaten escaped) p'
  separator : ∀ t u, eaten = t ++ dot :: u → escapedAfter backslash t escaped = false
    → u = [] ∧ ∃ c more, rest = c :: more ∧ c ≠ dot

theorem Pton.putByte_of_ok {next : Pton → Except Errno (Nat × Memory UInt8)}
    (accepted : (p.putByte dstsiz c >>= next) = .ok (r, mem))
    : ∃ p', p.putByte dstsiz c = .ok p' := by
  cases put : p.putByte dstsiz c with
  | error e =>
    rw [put] at accepted
    cases accepted
  | ok p' => exact ⟨p', rfl⟩

/-- The end of a name: the result is the one that is passed on, and the bytes do not depend on it. -/
theorem Pton.finish_ok {result c : Nat} (finished : p.finish dstsiz result c = .ok (r, mem))
    : r = result ∧ ∀ other, p.finish dstsiz other c = .ok (other, mem) := by
  have checked {q : Pton}
      (closed : (if q.bp > maxcdname then Except.error Errno.emsgsize else .ok (result, q.dst))
        = .ok (r, mem))
      : r = result ∧ ∀ other : Nat,
          (if q.bp > maxcdname then Except.error Errno.emsgsize else .ok (other, q.dst))
            = .ok (other, mem) := by
    split at closed
    · cases closed
    · rename_i short
      cases closed
      exact ⟨rfl, fun other => if_neg short⟩
  by_cases nonempty : c ≠ 0
  · rw [Pton.finish, if_pos nonempty] at finished
    obtain ⟨q, terminated⟩ := Pton.putByte_of_ok finished
    rw [terminated] at finished
    refine ⟨(checked finished).1, fun other => ?_⟩
    rw [Pton.finish, if_pos nonempty, terminated]
    exact (checked finished).2 other
  · rw [Pton.finish, if_neg nonempty] at finished
    refine ⟨(checked finished).1, fun other => ?_⟩
    rw [Pton.finish, if_neg nonempty]
    exact (checked finished).2 other

theorem Pton.ended_ok {result : Nat}
    (ended : (do
        let (c, p) ← p.putLength dstsiz
        p.finish dstsiz result c) = Except.ok (r, mem))
    : r = result ∧ ∀ other, (do
        let (c, p) ← p.putLength dstsiz
        p.finish dstsiz other c) = Except.ok (other, mem) := by
  cases put : p.putLength dstsiz with
  | error e =>
    rw [put] at ended
    cases ended
  | ok closed =>
    obtain ⟨c, p'⟩ := closed
    rw [put] at ended
    exact Pton.finish_ok (p := p') (c := c) ended

theorem no_separator {eaten rest : List UInt8} (digits : ∀ d ∈ eaten, d ≠ dot) (t u : List UInt8)
    (split_ : c :: eaten = t ++ dot :: u) (unescaped : escapedAfter backslash t true = false)
    : u = [] ∧ ∃ c more, rest = c :: more ∧ c ≠ dot := by
  cases t with
  | nil => cases unescaped
  | cons first t =>
    rw [cons_append, List.cons.injEq] at split_
    exact absurd rfl (digits dot (by rw [split_.2]; simp))

theorem single_separator (rest : List UInt8) (other : c ≠ dot) (t u : List UInt8)
    (split_ : [c] = t ++ dot :: u)
    : u = [] ∧ ∃ c more, rest = c :: more ∧ c ≠ dot := by
  have member : dot ∈ [c] := by
    rw [split_]
    simp
  exact absurd (mem_singleton.mp member).symm other

/-- An escaped piece: three digits, or one byte. -/
theorem ptonLoop_read_escaped (accepted : ptonLoop dstsiz (c :: src) true p = .ok (r, mem))
    : ∃ eaten rest p', c :: src = eaten ++ rest ∧ PtonRead dstsiz p true eaten rest p' := by
  unfold ptonLoop at accepted
  split at accepted
  · rename_i first
    rcases src with _ | ⟨d, _ | ⟨e, rest⟩⟩
    · cases accepted
    · cases accepted
    · simp only at accepted
      split at accepted
      · cases accepted
      · rename_i digits
        split at accepted
        · cases accepted
        · rename_i small
          obtain ⟨p', put⟩ := Pton.putByte_of_ok accepted
          have second : isDigit d = true := by simpa using (not_or.mp digits).1
          have third : isDigit e = true := by simpa using (not_or.mp digits).2
          refine ⟨[c, d, e], rest, p', rfl, cons_ne_nil _ _, ?_, ?_⟩
          · intro tail
            simp only [cons_append, nil_append]
            rw [ptonLoop, if_pos first]
            rw [if_neg digits, if_neg small, put]
            simp [escapedAfter, (isDigit_ne second).2, (isDigit_ne third).2, bind, Except.bind]
          · exact no_separator (by
              intro x member
              rcases mem_cons.mp member with rfl | member
              · exact (isDigit_ne second).1
              · rw [mem_singleton.mp member]
                exact (isDigit_ne third).1)
  · rename_i noDigit
    obtain ⟨p', put⟩ := Pton.putByte_of_ok accepted
    refine ⟨[c], src, p', rfl, cons_ne_nil _ _, ?_, ?_⟩
    · intro tail
      rw [singleton_append]
      conv_lhs => unfold ptonLoop
      rw [if_neg noDigit, put]
      rfl
    · exact no_separator (fun x member => absurd member not_mem_nil)

/-- A byte that is not escaped. -/
theorem ptonLoop_read_plain (accepted : ptonLoop dstsiz (c :: src) false p = .ok (r, mem))
    : (c :: src = [dot] ∧ r = 1)
      ∨ ∃ eaten rest p', c :: src = eaten ++ rest ∧ PtonRead dstsiz p false eaten rest p' := by
  rw [ptonLoop] at accepted
  by_cases escape : c = backslash
  · refine .inr ⟨[c], src, p, rfl, cons_ne_nil _ _, ?_, ?_⟩
    · intro tail
      rw [singleton_append, ptonLoop, if_pos (toNat_eq_backslash.mpr escape)]
      simp [escapedAfter, escape]
    · intro t u split_ _
      exact single_separator src (by rw [escape]; decide) t u split_
  · have noEscape := mt toNat_eq_backslash.mp escape
    rw [if_neg noEscape] at accepted
    by_cases stop : c = dot
    · rw [if_pos (toNat_eq_dot.mpr stop)] at accepted
      cases src with
      | nil =>
        subst stop
        exact .inl ⟨rfl, (Pton.ended_ok accepted).1⟩
      | cons next more =>
        cases put : p.putLength dstsiz with
        | error e =>
          rw [put] at accepted
          cases accepted
        | ok closed =>
          obtain ⟨n, p'⟩ := closed
          rw [put] at accepted
          simp only [bind, Except.bind] at accepted
          split at accepted
          · cases accepted
          · rename_i proper
            refine .inr ⟨[c], next :: more, { p' with label := p'.bp, bp := p'.bp + 1 },
              rfl, cons_ne_nil _ _, ?_, ?_⟩
            · intro tail
              rw [singleton_append, ptonLoop, if_neg noEscape,
                if_pos (toNat_eq_dot.mpr stop), put]
              simp only [bind, Except.bind, cons_append]
              rw [if_neg proper]
              simp [escapedAfter, escape]
            · intro t u split_ _
              cases t with
              | nil =>
                have ends : [] = u := (List.cons.inj split_).2
                exact ⟨ends.symm, next, more, rfl, mt toNat_eq_dot.mpr (not_or.mp proper).2⟩
              | cons first t =>
                have rest := (List.cons.inj split_).2
                exact absurd rest.symm (by simp)
    · rw [if_neg (mt toNat_eq_dot.mp stop)] at accepted
      obtain ⟨p', put⟩ := Pton.putByte_of_ok accepted
      refine .inr ⟨[c], src, p', rfl, cons_ne_nil _ _, ?_, ?_⟩
      · intro tail
        rw [singleton_append, ptonLoop, if_neg noEscape, if_neg (mt toNat_eq_dot.mp stop), put]
        simp [escapedAfter, escape, bind, Except.bind]
      · intro t u split_ _
        exact single_separator src stop t u split_

/-- A text that is accepted is empty, a last dot, or begins with something that is read. -/
theorem ptonLoop_read (accepted : ptonLoop dstsiz src escaped p = .ok (r, mem))
    : (src = [] ∧ escaped = false ∧ r = 0) ∨ (src = [dot] ∧ escaped = false ∧ r = 1)
      ∨ ∃ eaten rest p', src = eaten ++ rest ∧ PtonRead dstsiz p escaped eaten rest p' := by
  cases src with
  | nil =>
    cases escaped with
    | true => cases accepted
    | false =>
      exact .inl ⟨rfl, rfl, (Pton.ended_ok accepted).1⟩
  | cons c src =>
    cases escaped with
    | true => exact .inr (.inr (ptonLoop_read_escaped accepted))
    | false =>
      rcases ptonLoop_read_plain accepted with ⟨last, result⟩ | read
      · exact .inr (.inl ⟨last, rfl, result⟩)
      · exact .inr (.inr read)

/-- What the text of a name looks like behind an accepted call: nothing is escaped at its end, the result
says whether it ends in a separator, and no separator is followed by a dot.
-/
structure Punctuated (src : List UInt8) (escaped : Bool) (r : Nat) : Prop where
  closed : escapedAfter backslash src escaped = false
  result : r = 0 ∨ r = 1
  qualified : r = 1 ↔ ∃ t, src = t ++ [dot] ∧ escapedAfter backslash t escaped = false
  single : ∀ t u, src = t ++ dot :: u → escapedAfter backslash t escaped = false → u.head? ≠ some dot

/-- A place in a text lies in its first part or behind it. -/
theorem append_eq_append_dot {eaten rest t u : List UInt8} (same : eaten ++ rest = t ++ dot :: u)
    : (∃ v, eaten = t ++ dot :: v ∧ u = v ++ rest) ∨ ∃ w, t = eaten ++ w ∧ rest = w ++ dot :: u := by
  rcases append_eq_append_iff.mp same with ⟨w, first, second⟩ | ⟨w, first, second⟩
  · exact .inr ⟨w, first, second⟩
  · cases w with
    | nil => exact .inr ⟨[], by simpa using first.symm, second.symm⟩
    | cons c w =>
      obtain ⟨rfl, rfl⟩ := second
      exact .inl ⟨w, first, rfl⟩

/-- Every text that is accepted is punctuated so. By induction on its length. -/
theorem ptonLoop_punctuated (accepted : ptonLoop dstsiz src escaped p = .ok (r, mem))
    : Punctuated src escaped r := by
  induction length : src.length using Nat.strong_induction_on generalizing src escaped p with
  | _ n ih =>
    rcases ptonLoop_read accepted with ⟨rfl, rfl, rfl⟩ | ⟨rfl, rfl, rfl⟩ | ⟨eaten, rest, p', rfl, read⟩
    · exact ⟨rfl, .inl rfl, by simp, by simp⟩
    · refine ⟨by decide, .inr rfl, ⟨fun _ => ⟨[], rfl, rfl⟩, fun _ => rfl⟩, ?_⟩
      intro t u same _
      cases t with
      | nil =>
        cases same
        simp
      | cons c t =>
        have ends := (List.cons.inj same).2
        exact absurd ends.symm (by simp)
    · have positive := length_pos_of_ne_nil read.nonempty
      have next := read.next []
      rw [append_nil] at next
      rw [next] at accepted
      have tail := ih rest.length (by rw [← length, length_append]; omega) accepted rfl
      have place : ∀ w, escapedAfter backslash (eaten ++ w) escaped
          = escapedAfter backslash w (escapedAfter backslash eaten escaped) :=
        fun w => escapedAfter_append
      refine ⟨by rw [place]; exact tail.closed, tail.result, ?_, ?_⟩
      · rw [tail.qualified]
        constructor
        · rintro ⟨t, rfl, unescaped⟩
          exact ⟨eaten ++ t, (append_assoc ..).symm, by rw [place]; exact unescaped⟩
        · rintro ⟨t, same, unescaped⟩
          rcases append_eq_append_dot same with ⟨v, first, second⟩ | ⟨w, rfl, second⟩
          · obtain ⟨-, c, more, behind, -⟩ := read.separator t v first unescaped
            rw [behind] at second
            exact absurd second (by simp)
          · exact ⟨w, second, by rw [← place]; exact unescaped⟩
      · intro t u same unescaped
        rcases append_eq_append_dot same with ⟨v, first, rfl⟩ | ⟨w, rfl, second⟩
        · obtain ⟨rfl, c, more, rfl, other⟩ := read.separator t v first unescaped
          simpa using other
        · exact tail.single w u second (by rw [← place]; exact unescaped)

/-- A dot behind a text without a last separator makes the name fully qualified. -/
theorem ptonLoop_concat_dot (accepted : ptonLoop dstsiz src escaped p = .ok (0, mem))
    : ptonLoop dstsiz (src ++ [dot]) escaped p = .ok (1, mem) := by
  induction length : src.length using Nat.strong_induction_on generalizing src escaped p with
  | _ n ih =>
    rcases ptonLoop_read accepted with ⟨rfl, rfl, -⟩ | ⟨-, -, one⟩ | ⟨eaten, rest, p', rfl, read⟩
    · exact (Pton.ended_ok accepted).2 1
    · cases one
    · have positive := length_pos_of_ne_nil read.nonempty
      have next := read.next []
      rw [append_nil] at next
      rw [next] at accepted
      rw [append_assoc, read.next [dot]]
      exact ih rest.length (by rw [← length, length_append]; omega) accepted rfl

/-! Canonical names -/

def dotless (src : List UInt8) : List UInt8 := (src.reverse.dropWhile (· = dot)).reverse

/-- Whether a look at the two bytes before a dot tells what the dots at the end of a text are: the run of
backslashes before them is a single one or even.
-/
def DotsInSight (src : List UInt8) : Prop := src.getLast? = some dot
    → escapeRun backslash (dotless src) = 1 ∨ Even (escapeRun backslash (dotless src))

/-- What a canonical copy is: a fully qualified name with the same bytes, of which only separators were
removed.
-/
structure Canonical (dstsiz : Nat) (dst mem : Memory UInt8) (src copy : List UInt8) : Prop where
  accepted : nsNamePton copy dst dstsiz = .ok (1, mem)
  separators : ∀ t u, src = t ++ dot :: u → copy.length ≤ t.length + 1 → Even (escapeRun backslash t)

theorem nsMakecanon_eq (room : src.length + 2 ≤ dstsize)
    : nsMakecanon src dstsize = .ok (canonStem src ++ [dot]) := by
  exact if_neg (by omega)

theorem dotless_dot : dotless (text ++ [dot]) = dotless text := by
  simp [dotless]

theorem dotless_other (other : c ≠ dot) : dotless (text ++ [c]) = text ++ [c] := by
  simp [dotless, other]

theorem exists_concat_backslash (odd : Odd (escapeRun backslash text))
    : canonStem text = text ∧ dotless text = text := by
  obtain ⟨before, rfl⟩ := exists_concat_of_escapeRun odd.pos
  exact ⟨canonStem_other (by decide), dotless_other (by decide)⟩

theorem canonical_unqualified (accepted : nsNamePton src dst dstsiz = .ok (0, mem))
    : Canonical dstsiz dst mem src (src ++ [dot]) where
  accepted := ptonLoop_concat_dot accepted
  separators := by
    intro t u same long
    have length := congrArg List.length same
    rw [length_append, length_cons] at length
    rw [length_append, length_singleton] at long
    omega

/-- A separator that is put back is right. -/
theorem canonical_qualified (accepted : nsNamePton (text ++ [dot]) dst dstsiz = .ok (1, mem))
    (even : Even (escapeRun backslash text))
    : Canonical dstsiz dst mem (text ++ [dot]) (text ++ [dot]) where
  accepted := accepted
  separators := by
    intro t u same long
    have length := congrArg List.length same
    rw [length_append, length_singleton, length_append, length_cons] at length
    rw [length_append, length_singleton] at long
    have last : t = text := (append_inj same (by omega)).1.symm
    rwa [last]

theorem even_of_unescaped (unescaped : escapedAfter backslash text false = false)
    : Even (escapeRun backslash text) := by
  rw [← Nat.not_odd_iff_even, ← escapedAfter_iff_odd, unescaped]
  exact Bool.false_ne_true

/-- The copy of a text that does not end in a separator. -/
theorem canonical_iff_of_unqualified (accepted : nsNamePton src dst dstsiz = .ok (0, mem))
    : Canonical dstsiz dst mem src (canonStem src ++ [dot]) ↔ DotsInSight src := by
  have shape := ptonLoop_punctuated accepted
  cases src using List.reverseRecOn with
  | nil => exact iff_of_true (canonical_unqualified accepted) (fun last => by cases last)
  | append_singleton text c =>
    by_cases last : c = dot
    · subst last
      have escaped : escapedAfter backslash text false = true := by
        by_contra unescaped
        have one := shape.qualified.mpr ⟨text, rfl, Bool.not_eq_true _ ▸ unescaped⟩
        cases one
      have odd := escapedAfter_iff_odd.mp escaped
      obtain ⟨stem, whole⟩ := exists_concat_backslash odd
      rw [canonStem_dot, DotsInSight, dotless_dot, whole]
      by_cases single : escapeRun backslash text = 1
      · rw [if_pos single]
        exact iff_of_true (canonical_unqualified accepted) (fun _ => .inl single)
      · rw [if_neg single, stem]
        refine iff_of_false (fun canonical => ?_) (fun sight => ?_)
        · have same := canonical.accepted.symm.trans accepted
          cases same
        · rcases sight (by simp) with one | even
          · exact single one
          · exact Nat.not_even_iff_odd.mpr odd even
    · rw [canonStem_other last]
      refine iff_of_true (canonical_unqualified accepted) (fun end_ => ?_)
      simp only [getLast?_append, getLast?_singleton, Option.some_or, Option.some.injEq] at end_
      exact absurd end_ last

/-- The copy of a text that ends in a separator. -/
theorem canonical_iff_of_qualified (accepted : nsNamePton src dst dstsiz = .ok (1, mem))
    : Canonical dstsiz dst mem src (canonStem src ++ [dot]) ↔ DotsInSight src := by
  have shape := ptonLoop_punctuated accepted
  obtain ⟨text, rfl, unescaped⟩ := shape.qualified.mp rfl
  have even := even_of_unescaped unescaped
  have several : escapeRun backslash text ≠ 1 := fun one => by
    rw [one] at even
    exact absurd even (by decide)
  rw [canonStem_dot, if_neg several, DotsInSight, dotless_dot]
  cases text using List.reverseRecOn with
  | nil => exact iff_of_true (canonical_qualified accepted even) (fun _ => .inr even)
  | append_singleton before c =>
    by_cases last : c = dot
    · subst last
      have escaped : escapedAfter backslash before false = true := by
        by_contra plain
        have alone := shape.single before [dot] (by simp) (Bool.not_eq_true _ ▸ plain)
        exact alone rfl
      have odd := escapedAfter_iff_odd.mp escaped
      obtain ⟨stem, whole⟩ := exists_concat_backslash odd
      rw [canonStem_dot, dotless_dot, whole]
      by_cases single : escapeRun backslash before = 1
      · rw [if_pos single]
        exact iff_of_true (canonical_qualified accepted even) (fun _ => .inl single)
      · rw [if_neg single, stem]
        refine iff_of_false (fun canonical => ?_) (fun sight => ?_)
        · obtain ⟨t, same, plain⟩ := (ptonLoop_punctuated canonical.accepted).qualified.mp rfl
          rw [← (append_inj' same rfl).1, escaped] at plain
          cases plain
        · rcases sight (by simp) with one | even
          · exact single one
          · exact Nat.not_even_iff_odd.mpr odd even
    · rw [canonStem_other last, dotless_other last]
      exact iff_of_true (canonical_qualified accepted even) (fun _ => .inr even)

/-- A copy is canonical exactly if two bytes tell what the dots at the end are. -/
theorem nsMakecanon_canonical (accepted : nsNamePton src dst dstsiz = .ok (r, mem))
    (room : src.length + 2 ≤ dstsize)
    : (∃ copy, nsMakecanon src dstsize = .ok copy ∧ Canonical dstsiz dst mem src copy)
      ↔ DotsInSight src := by
  have copy : (∃ copy, nsMakecanon src dstsize = .ok copy ∧ Canonical dstsiz dst mem src copy)
      ↔ Canonical dstsiz dst mem src (canonStem src ++ [dot]) := by
    rw [nsMakecanon_eq room]
    constructor
    · rintro ⟨copy, same, canonical⟩
      cases same
      exact canonical
    · exact fun canonical => ⟨_, rfl, canonical⟩
  rw [copy]
  rcases (ptonLoop_punctuated accepted).result with rfl | rfl
  · exact canonical_iff_of_unqualified accepted
  · exact canonical_iff_of_qualified accepted

/-- The text `a\.` gets a dot behind its escaped one. -/
theorem nsMakecanon_canonical_escaped
    : ∃ mem, nsNamePton [97, 92, 46] (fun _ => 0) 255 = .ok (0, mem)
      ∧ nsMakecanon [97, 92, 46] 1025 = .ok [97, 92, 46, 46]
      ∧ ((∃ copy, nsMakecanon [97, 92, 46] 1025 = .ok copy
            ∧ Canonical 255 (fun _ => 0) mem [97, 92, 46] copy)
          ↔ DotsInSight [97, 92, 46]) :=
  ⟨_, rfl, rfl, nsMakecanon_canonical rfl (by decide)⟩

/-- The text `\\\.` is the label of a backslash and a dot; its copy is the same text, which is not fully
qualified.
-/
theorem nsMakecanon_three_backslashes
    : ∃ mem, nsNamePton [92, 92, 92, 46] (fun _ => 0) 255 = .ok (0, mem)
      ∧ nsMakecanon [92, 92, 92, 46] 1025 = .ok [92, 92, 92, 46]
      ∧ ¬ Canonical 255 (fun _ => 0) mem [92, 92, 92, 46] [92, 92, 92, 46] :=
  ⟨_, rfl, rfl, fun canonical => by cases canonical.accepted.symm.trans (show _ = Except.ok (0, _) from rfl)⟩

end Nglibc.Resolv
