import Nglibc.Misc.Mntent

/-! What `addmntent` writes is read back by `getmntent_r`, except entries whose first string starts
with '#'.
-/

namespace Nglibc.Mntent

open List

/-- A string as it is written, without the space behind it. -/
def encoded (str : List UInt8) : List UInt8 := str.flatMap encodeChar

def IsPlain (c : UInt8) : Prop := ¬ IsBlank c ∧ c ≠ newline ∧ c ≠ 0

instance (c : UInt8) : Decidable (IsPlain c) := inferInstanceAs (Decidable (_ ∧ _))

theorem plain_three {a b c : UInt8} (first : IsPlain a) (second : IsPlain b) (third : IsPlain c)
    : ∀ d ∈ [a, b, c], IsPlain d :=
  forall_mem_cons.mpr
    ⟨first, forall_mem_cons.mpr ⟨second, forall_mem_singleton.mpr third⟩⟩

/-- The characters that are written in octal. -/
theorem encodeChar_special {c : UInt8} (special : IsEncoded c)
    : ∃ digits, encodeChar c = backslash :: digits ∧ (∀ b ∈ digits, IsPlain b) ∧ c ≠ hash
      ∧ ∀ rest, decodeName (backslash :: (digits ++ rest)) = c :: decodeName rest := by
  rcases special with rfl | rfl | rfl | rfl
  · refine ⟨[48, 52, 48], by decide, plain_three (by decide) (by decide) (by decide), by decide,
      fun rest => ?_⟩
    rw [decodeName]
    simp
  · refine ⟨[48, 49, 49], by decide, plain_three (by decide) (by decide) (by decide), by decide,
      fun rest => ?_⟩
    rw [decodeName]
    simp
  · refine ⟨[48, 49, 50], by decide, plain_three (by decide) (by decide) (by decide), by decide,
      fun rest => ?_⟩
    rw [decodeName]
    simp
  · refine ⟨[49, 51, 52], by decide, plain_three (by decide) (by decide) (by decide), by decide,
      fun rest => ?_⟩
    rw [decodeName]
    simp [backslash]

theorem encodeChar_other {c : UInt8} (other : ¬ IsEncoded c) : encodeChar c = [c] := if_neg other

theorem decodeName_other {c : UInt8} (other : ¬ IsEncoded c) (rest : List UInt8)
    : decodeName (c :: rest) = c :: decodeName rest := by
  have different : c ≠ backslash := by
    rintro rfl
    exact other (by decide)
  rw [decodeName]
  simp [different]

theorem encoded_cons (c : UInt8) (str : List UInt8)
    : encoded (c :: str) = encodeChar c ++ encoded str := flatMap_cons

theorem encodeChar_plain {c : UInt8} (noNul : c ≠ 0) : ∀ b ∈ encodeChar c, IsPlain b := by
  by_cases special : IsEncoded c
  · obtain ⟨digits, text, plain, -⟩ := encodeChar_special special
    rw [text]
    exact forall_mem_cons.mpr ⟨by decide, plain⟩
  · rw [encodeChar_other special]
    unfold IsEncoded at special
    unfold IsPlain IsBlank
    simp only [mem_singleton, forall_eq]
    tauto

theorem encoded_plain {str : List UInt8} (noNul : 0 ∉ str) : ∀ b ∈ encoded str, IsPlain b := by
  intro b member
  obtain ⟨c, inside, member⟩ := mem_flatMap.mp member
  refine encodeChar_plain ?_ b member
  rintro rfl
  exact noNul inside

/-- Only a '#' is written with a '#' in front. -/
theorem encoded_head {str : List UInt8} (nonempty : str ≠ []) (more : List UInt8)
    : encoded str ≠ [] ∧ ((encoded str ++ more).head? = some hash ↔ str.head? = some hash) := by
  obtain ⟨c, rest, rfl⟩ := exists_cons_of_ne_nil nonempty
  rw [encoded_cons]
  by_cases special : IsEncoded c
  · obtain ⟨digits, text, -, notHash, -⟩ := encodeChar_special special
    rw [text]
    refine ⟨cons_ne_nil _ _, iff_of_false ?_ fun same => notHash (Option.some.inj same)⟩
    intro same
    exact absurd (Option.some.inj same) (by decide)
  · rw [encodeChar_other special]
    exact ⟨cons_ne_nil _ _, Iff.rfl⟩

theorem decodeName_encoded (str : List UInt8) : decodeName (encoded str) = str := by
  induction str with
  | nil => rw [encoded, flatMap_nil, decodeName]
  | cons c str ih =>
    rw [encoded_cons]
    by_cases special : IsEncoded c
    · obtain ⟨digits, text, -, -, decodes⟩ := encodeChar_special special
      rw [text, cons_append, decodes, ih]
    · rw [encodeChar_other special, singleton_append, decodeName_other special, ih]

theorem strsep_field {token : List UInt8} (plain : ∀ b ∈ token, IsPlain b) (rest : List UInt8)
    : strsep (some (token ++ space :: rest)) = (some token, some rest) := by
  have all : ∀ b ∈ token, decide (¬ IsBlank b) = true := fun b member =>
    decide_eq_true (plain b member).1
  unfold strsep
  dsimp only
  rw [takeWhile_append_of_pos all, dropWhile_append_of_pos all,
    takeWhile_cons_of_neg (by decide), dropWhile_cons_of_neg (by decide), append_nil]

theorem skipBlanks_plain {text : List UInt8} (nonempty : text ≠ []) (plain : ∀ b ∈ text, IsPlain b)
    (rest : List UInt8)
    : skipBlanks (text ++ rest) = text ++ rest := by
  obtain ⟨c, more, rfl⟩ := exists_cons_of_ne_nil nonempty
  have first := (plain c mem_cons_self).1
  exact dropWhile_cons_of_neg (by rw [decide_eq_true_iff]; exact first)

structure Entry.Valid (mnt : Entry) : Prop where
  nonempty : ∀ str ∈ [mnt.fsname, mnt.dir, mnt.type, mnt.opts], str ≠ []
  noNul : ∀ str ∈ [mnt.fsname, mnt.dir, mnt.type, mnt.opts], 0 ∉ str
  notAutofs : mnt.type ≠ autofs

section

variable (format : IntFormat) {mnt : Entry} (valid : mnt.Valid)

def body (mnt : Entry) : List UInt8 :=
  encoded mnt.fsname ++ space :: (encoded mnt.dir ++ space :: (encoded mnt.type ++ space ::
    (encoded mnt.opts ++ space :: (format.print mnt.freq ++ space :: format.print mnt.passno))))

theorem line_eq (mnt : Entry) : line format mnt = body format mnt ++ [newline] := by
  simp [line, body, writeString, encoded]

theorem print_plain (n : BitVec 32) : ∀ b ∈ format.print n, IsPlain b := by
  intro b member
  have large := format.plain n b member
  refine ⟨?_, ?_, ?_⟩
  · rintro (rfl | rfl) <;> exact absurd large (by decide)
  · rintro rfl
    exact absurd large (by decide)
  · rintro rfl
    exact absurd large (by decide)

theorem skipSpaces_print (n : BitVec 32) (rest : List UInt8)
    : skipSpaces (format.print n ++ rest) = format.print n ++ rest := by
  obtain ⟨c, more, print⟩ := exists_cons_of_ne_nil (format.nonempty n)
  have large := format.plain n c (by rw [print]; exact mem_cons_self)
  rw [print]
  refine dropWhile_cons_of_neg ?_
  rw [decide_eq_true_iff, not_or, not_and, UInt8.le_iff_toNat_le, UInt8.le_iff_toNat_le]
  constructor
  · rintro rfl
    exact absurd large (by decide)
  · intro _ small
    exact absurd (large.trans_le small) (by decide)

private theorem scanNumbers_print (mp : Entry) (freq passno : BitVec 32)
    : scanNumbers format mp (some (format.print freq ++ space :: format.print passno))
      = (freq, passno) := by
  have first := skipSpaces_print format freq (space :: format.print passno)
  have second : skipSpaces (space :: format.print passno) = format.print passno := by
    have skipped := skipSpaces_print format passno []
    rw [append_nil] at skipped
    refine (dropWhile_cons_of_pos (by decide)).trans ?_
    exact skipped
  have last := format.inverse passno [] (by simp)
  rw [append_nil] at last
  unfold scanNumbers
  dsimp only
  rw [first, if_neg (by simp), format.inverse freq _ (by simp [space])]
  dsimp only
  rw [second, last]

include valid

theorem Entry.Valid.plain : ∀ str ∈ [mnt.fsname, mnt.dir, mnt.type, mnt.opts],
    encoded str ≠ [] ∧ ∀ b ∈ encoded str, IsPlain b :=
  fun str member => ⟨(encoded_head (valid.nonempty str member) []).1, encoded_plain (valid.noNul str member)⟩

theorem parse_body (mp : Entry) : parse format mp (body format mnt) = mnt := by
  obtain ⟨fsname, dir, type, opts⟩ : (encoded mnt.fsname ≠ [] ∧ ∀ b ∈ encoded mnt.fsname, IsPlain b)
      ∧ (encoded mnt.dir ≠ [] ∧ ∀ b ∈ encoded mnt.dir, IsPlain b)
      ∧ (encoded mnt.type ≠ [] ∧ ∀ b ∈ encoded mnt.type, IsPlain b)
      ∧ (encoded mnt.opts ≠ [] ∧ ∀ b ∈ encoded mnt.opts, IsPlain b) := by
    have plain := valid.plain
    simpa using plain
  unfold parse body
  simp only [strsep_field fsname.2, Option.map_some, skipBlanks_plain dir.1 dir.2,
    strsep_field dir.2, skipBlanks_plain type.1 type.2, strsep_field type.2,
    skipBlanks_plain opts.1 opts.2, strsep_field opts.2, scanNumbers_print, field,
    decodeName_encoded]

theorem body_ne : ∀ b ∈ body format mnt, b ≠ newline ∧ b ≠ 0 := by
  have plain : ∀ str ∈ [mnt.fsname, mnt.dir, mnt.type, mnt.opts], ∀ b ∈ encoded str,
      b ≠ newline ∧ b ≠ 0 := fun str member b inside => ((valid.plain str member).2 b inside).2
  have numbers : ∀ n, ∀ b ∈ format.print n, b ≠ newline ∧ b ≠ 0 := fun n b inside =>
    (print_plain format n b inside).2
  have blank : space ≠ newline ∧ space ≠ 0 := by decide
  simp only [forall_mem_cons] at plain
  unfold body
  simp only [forall_mem_append, forall_mem_cons]
  exact ⟨plain.1, blank, plain.2.1, blank, plain.2.2.1, blank, plain.2.2.2.1, blank, numbers _, blank,
    numbers _⟩

theorem skipBlanks_body : skipBlanks (body format mnt) = body format mnt :=
  skipBlanks_plain (valid.plain mnt.fsname mem_cons_self).1
    (valid.plain mnt.fsname mem_cons_self).2 _

end

theorem getline_line {text : List UInt8} (noNewline : ∀ b ∈ text, b ≠ newline) (rest : List UInt8)
    {n : Nat} (room : text.length ≤ n)
    : getline n (text ++ newline :: rest)
      = if n = text.length then (text, newline :: rest) else (text ++ [newline], rest) := by
  induction text generalizing n with
  | nil =>
    cases n with
    | zero => rfl
    | succ n =>
      rfl
  | cons c text ih =>
    obtain ⟨first, noNewline⟩ := forall_mem_cons.mp noNewline
    rw [length_cons] at room
    obtain ⟨n, rfl⟩ : ∃ m, n = m + 1 := ⟨n - 1, by omega⟩
    rw [cons_append, getline, if_neg first, ih noNewline (by omega), length_cons]
    by_cases exact : n = text.length
    · rw [if_pos exact, if_pos (by omega)]
    · rw [if_neg exact, if_neg (by omega)]
      rfl

theorem discard_newline (rest : List UInt8) : discard (newline :: rest) = rest := by
  have read := getline_line (fun b (none : b ∈ []) => by cases none) rest (Nat.zero_le 1023)
  rw [nil_append] at read
  rw [discard, read]
  exact if_pos (show newline ∈ cstring [newline] by decide)

theorem cstring_eq {buffer : List UInt8} (noNul : ∀ b ∈ buffer, b ≠ 0) : cstring buffer = buffer :=
  takeWhile_eq_self_iff.mpr fun b member => decide_eq_true (noNul b member)

section

variable (format : IntFormat) {mnt : Entry} (valid : mnt.Valid)

/-- A line ends with a digit. -/
theorem body_stripped (mnt : Entry)
    : (body format mnt).rdropWhile (IsBlank ·) = body format mnt := by
  obtain ⟨front, last, number⟩ :=
    (format.print mnt.passno).eq_nil_or_concat'.resolve_left (format.nonempty mnt.passno)
  have plain := (print_plain format mnt.passno last (by rw [number]; simp)).1
  unfold body
  rw [number, ← cons_append, ← append_assoc, ← cons_append, ← append_assoc,
    ← cons_append, ← append_assoc, ← cons_append, ← append_assoc,
    ← cons_append, ← append_assoc]
  exact rdropWhile_concat_neg _ _ _ (by rwa [decide_eq_true_iff])

include valid

theorem body_long : 2 ≤ (body format mnt).length := by
  have first := (valid.plain mnt.fsname mem_cons_self).1
  have positive := length_pos_iff.mpr first
  unfold body
  rw [length_append, length_cons]
  omega

/-- The line of an entry is read, even if just its newline does not fit into the buffer. -/
theorem fgets_line {bufsiz : Int} (room : ((line format mnt).length : Int) ≤ bufsiz)
    (rest : List UInt8)
    : ∃ buffer left, fgets bufsiz (line format mnt ++ rest) = some (buffer, left)
      ∧ chop (cstring buffer) left = (body format mnt, rest) := by
  have free := body_ne format valid
  have long := body_long format valid
  rw [line_eq, length_append, length_singleton] at room
  have enough : (body format mnt).length ≤ (bufsiz - 1).toNat := by omega
  have read := getline_line (fun b member => (free b member).1) rest enough
  have same : line format mnt ++ rest = body format mnt ++ newline :: rest := by
    rw [line_eq, append_assoc, singleton_append]
  have nonempty : body format mnt ++ newline :: rest ≠ [] := by simp
  unfold fgets
  rw [same, if_neg (by omega), if_neg (by omega), if_neg nonempty, read]
  by_cases exact : (bufsiz - 1).toNat = (body format mnt).length
  · rw [if_pos exact]
    refine ⟨_, _, rfl, ?_⟩
    have absent : newline ∉ body format mnt := fun member => (free _ member).1 rfl
    rw [cstring_eq fun b member => (free b member).2, chop, if_neg absent, discard_newline]
  · rw [if_neg exact]
    refine ⟨_, _, rfl, ?_⟩
    have noNul : ∀ b ∈ body format mnt ++ [newline], b ≠ 0 := by
      rw [forall_mem_append]
      exact ⟨fun b member => (free b member).2, forall_mem_singleton.mpr (by decide)⟩
    have all : ∀ b ∈ body format mnt, decide (b ≠ newline) = true := fun b member =>
      decide_eq_true (free b member).1
    rw [cstring_eq noNul, chop, if_pos (by simp), takeWhile_append_of_pos all,
      takeWhile_cons_of_neg (by decide), append_nil, body_stripped]

def Entry.isComment (mnt : Entry) : Bool := mnt.fsname.head? = some hash

private theorem getMntEntry_line {bufsiz : Int} (room : ((line format mnt).length : Int) ≤ bufsiz)
    (fuel : Nat) (mp : Entry) (rest : List UInt8)
    : getMntEntry format bufsiz (fuel + 1) mp (line format mnt ++ rest)
      = if mnt.isComment then getMntEntry format bufsiz fuel mp rest
        else some (some mnt, rest) := by
  obtain ⟨buffer, left, read, text⟩ := fgets_line format valid room rest
  have first : (body format mnt).head? = some hash ↔ mnt.fsname.head? = some hash :=
    (encoded_head (valid.nonempty mnt.fsname mem_cons_self) _).2
  have nonempty : body format mnt ≠ [] := by
    intro empty
    have long := body_long format valid
    rw [empty] at long
    simp at long
  rw [getMntEntry, read]
  dsimp only
  rw [text]
  rw [skipBlanks_body format valid, parse_body format valid]
  by_cases comment : mnt.fsname.head? = some hash
  · have isComment : mnt.isComment = true := decide_eq_true comment
    rw [if_pos (.inr (first.mpr comment)), if_pos isComment]
  · have notComment : ¬ mnt.isComment = true := fun is => comment (of_decide_eq_true is)
    rw [if_neg (not_or.mpr ⟨nonempty, fun same => comment (first.mp same)⟩), if_neg notComment]

end

/-- The stream behind several calls of `addmntent`. -/
def table (format : IntFormat) (entries : List Entry) : List UInt8 :=
  entries.foldl (addmntent format) []

theorem table_eq (format : IntFormat) (entries : List Entry)
    : table format entries = entries.flatMap (line format) := by
  have general : ∀ stream, entries.foldl (addmntent format) stream
      = stream ++ entries.flatMap (line format) := by
    induction entries with
    | nil => simp
    | cons mnt entries ih =>
      intro stream
      rw [foldl_cons, ih, addmntent, flatMap_cons, append_assoc]
  exact general []

theorem filter_dropWhile (entries : List Entry)
    : (entries.dropWhile Entry.isComment).filter (fun mnt => !mnt.isComment)
      = entries.filter fun mnt => !mnt.isComment := by
  induction entries with
  | nil => rfl
  | cons mnt entries ih =>
    by_cases comment : mnt.isComment = true
    · rw [dropWhile_cons_of_pos comment, ih, filter_cons_of_neg (by simp [comment])]
    · rw [dropWhile_cons_of_neg comment]

section

variable (format : IntFormat) {bufsiz : Int}

theorem getMntEntry_end (usable : bufsiz ≠ 1) (fuel : Nat) (mp : Entry)
    : getMntEntry format bufsiz (fuel + 1) mp [] = some (none, []) := by
  have ends : fgets bufsiz [] = none := by
    unfold fgets
    rw [if_neg usable, if_pos rfl, ite_self]
  rw [getMntEntry, ends]

/-- With a buffer of one byte, nothing is read and the loop does not end. -/
theorem getMntEntry_endless (fuel : Nat) (mp : Entry) : getMntEntry format 1 fuel mp [] = none := by
  induction fuel with
  | zero => rfl
  | succ fuel ih =>
    have text : chop (cstring []) [] = ([], []) := by
      have nothing : discard [] = [] := by rw [discard]
      rw [cstring, takeWhile_nil, chop, if_neg not_mem_nil, nothing]
    rw [getMntEntry, fgets, if_neg (by decide), if_pos rfl]
    dsimp only
    rw [text]
    exact ih

theorem readAll_endless (fuel : Nat) (mp : Entry) : readAll format 1 fuel mp [] = none := by
  cases fuel with
  | zero => rfl
  | succ fuel => rw [readAll, getmntent, getMntEntry_endless]

variable {entries : List Entry} (valid : ∀ mnt ∈ entries, mnt.Valid)
  (room : ∀ mnt ∈ entries, ((line format mnt).length : Int) ≤ bufsiz) (usable : bufsiz ≠ 1)

include valid room usable

private theorem getMntEntry_table {fuel : Nat} (enough : entries.length < fuel) (mp : Entry)
    : getMntEntry format bufsiz fuel mp (entries.flatMap (line format))
      = match entries.dropWhile Entry.isComment with
        | [] => some (none, [])
        | mnt :: later => some (some mnt, later.flatMap (line format)) := by
  induction entries generalizing fuel with
  | nil =>
    obtain ⟨fuel, rfl⟩ : ∃ less, fuel = less + 1 := ⟨fuel - 1, by omega⟩
    exact getMntEntry_end format usable fuel mp
  | cons mnt entries ih =>
    obtain ⟨validHere, valid⟩ := forall_mem_cons.mp valid
    obtain ⟨roomHere, room⟩ := forall_mem_cons.mp room
    rw [length_cons] at enough
    obtain ⟨fuel, rfl⟩ : ∃ less, fuel = less + 1 := ⟨fuel - 1, by omega⟩
    rw [flatMap_cons, getMntEntry_line format validHere roomHere]
    by_cases comment : mnt.isComment = true
    · rw [if_pos comment, dropWhile_cons_of_pos comment]
      exact ih valid room (by omega)
    · rw [if_neg comment, dropWhile_cons_of_neg comment]

theorem getmntent_table {fuel : Nat} (enough : entries.length < fuel) (mp : Entry)
    : getmntent format bufsiz fuel mp (entries.flatMap (line format))
      = match entries.dropWhile Entry.isComment with
        | [] => some (none, [])
        | mnt :: later => some (some mnt, later.flatMap (line format)) := by
  have next := getMntEntry_table format valid room usable enough mp
  obtain ⟨fuel, rfl⟩ : ∃ less, fuel = less + 1 := ⟨fuel - 1, by omega⟩
  rw [getmntent, next]
  cases found : entries.dropWhile Entry.isComment with
  | nil => rfl
  | cons mnt later =>
    have member : mnt ∈ entries := (dropWhile_sublist _).mem (by rw [found]; simp)
    dsimp only
    rw [if_neg fun skipped => (valid mnt member).notAutofs skipped.1]

theorem readAll_table {fuel : Nat} (enough : entries.length < fuel) (mp : Entry)
    : readAll format bufsiz fuel mp (entries.flatMap (line format))
      = some (entries.filter fun mnt => !mnt.isComment) := by
  induction fuel generalizing entries mp with
  | zero => omega
  | succ fuel ih =>
    have next := getmntent_table format valid room usable enough mp
    rw [readAll, next, ← filter_dropWhile]
    cases found : entries.dropWhile Entry.isComment with
    | nil => rfl
    | cons mnt later =>
      have suffix : mnt :: later <:+ entries := found ▸ dropWhile_suffix _
      have shorter := suffix.length_le
      have comment : ¬ mnt.isComment = true := by
        have head := head_dropWhile_not Entry.isComment (l := entries) (by rw [found]; simp)
        simpa [found] using head
      rw [length_cons] at shorter
      dsimp only
      rw [ih (fun m member => valid m (suffix.subset (mem_cons_of_mem _ member)))
        (fun m member => room m (suffix.subset (mem_cons_of_mem _ member))) (by omega),
        filter_cons_of_pos (by simp [comment])]
      rfl

end

/-- The entries are read back and `NULL` follows. -/
def ReadBack (format : IntFormat) (bufsiz : Int) (mp : Entry) (entries : List Entry) : Prop :=
  ∃ enough, ∀ fuel, enough ≤ fuel → readAll format bufsiz fuel mp (table format entries) = some entries

theorem not_readBack (format : IntFormat) {bufsiz : Int} {entries : List Entry}
    (valid : ∀ mnt ∈ entries, mnt.Valid)
    (room : ∀ mnt ∈ entries, ((line format mnt).length : Int) ≤ bufsiz) (usable : bufsiz ≠ 1)
    {mnt : Entry} (member : mnt ∈ entries) (comment : mnt.fsname.head? = some hash) (mp : Entry)
    : ¬ ReadBack format bufsiz mp entries := by
  rintro ⟨enough, run⟩
  have given := run (max enough (entries.length + 1)) (le_max_left _ _)
  rw [table_eq, readAll_table format valid room usable (by omega)] at given
  have all := filter_eq_self.mp (Option.some.inj given) mnt member
  have isComment : mnt.isComment = true := decide_eq_true comment
  rw [isComment] at all
  cases all

/-- Entries are read back exactly if none starts with a '#' and the buffer has not just one byte. -/
theorem readBack_iff (format : IntFormat) {bufsiz : Int} {entries : List Entry}
    (valid : ∀ mnt ∈ entries, mnt.Valid)
    (room : ∀ mnt ∈ entries, ((line format mnt).length : Int) ≤ bufsiz) (mp : Entry)
    : ReadBack format bufsiz mp entries
      ↔ (∀ mnt ∈ entries, mnt.fsname.head? ≠ some hash) ∧ bufsiz ≠ 1 := by
  constructor
  · intro back
    have usable : bufsiz ≠ 1 := by
      rintro rfl
      obtain ⟨enough, run⟩ := back
      cases entries with
      | nil =>
        have given := run enough (le_refl _)
        rw [table_eq, flatMap_nil, readAll_endless] at given
        cases given
      | cons mnt entries =>
        have long := body_long format (valid mnt mem_cons_self)
        have short := room mnt mem_cons_self
        rw [line_eq, length_append] at short
        omega
    refine ⟨fun mnt member comment => ?_, usable⟩
    exact not_readBack format valid room usable member comment mp back
  · rintro ⟨clean, usable⟩
    refine ⟨entries.length + 1, fun fuel enough => ?_⟩
    have kept : entries.filter (fun mnt => !mnt.isComment) = entries := by
      rw [filter_eq_self]
      intro mnt member
      have notComment : mnt.isComment = false := decide_eq_false (clean mnt member)
      rw [notComment]
      rfl
    rw [table_eq, readAll_table format valid room usable (by omega), kept]

def IsDigit (c : UInt8) : Prop := 48 ≤ c ∧ c ≤ 57

instance (c : UInt8) : Decidable (IsDigit c) := inferInstanceAs (Decidable (_ ∧ _))

def decimalDigits (n : Nat) : List Nat := if n = 0 then [0] else Nat.digits 10 n

def decimal (n : Nat) : List UInt8 := (decimalDigits n).reverse.map fun d => 48 + UInt8.ofNat d

def scanDecimal (s : List UInt8) : Option (Nat × List UInt8) :=
  if s.takeWhile (IsDigit ·) = [] then none
  else some (Nat.ofDigits 10 ((s.takeWhile (IsDigit ·)).reverse.map fun c => (c - 48).toNat),
    s.dropWhile (IsDigit ·))

def scanInt (s : List UInt8) : Option (BitVec 32 × List UInt8) :=
  if s.head? = some 45 then (scanDecimal s.tail).map fun (n, rest) => (BitVec.ofInt 32 (-n), rest)
  else (scanDecimal s).map fun (n, rest) => (BitVec.ofInt 32 n, rest)

theorem decimalDigits_spec (n : Nat)
    : decimalDigits n ≠ [] ∧ (∀ d ∈ decimalDigits n, d < 10)
      ∧ Nat.ofDigits 10 (decimalDigits n) = n := by
  unfold decimalDigits
  split_ifs with zero
  · exact ⟨cons_ne_nil _ _, by decide, zero.symm ▸ rfl⟩
  · exact ⟨Nat.digits_ne_nil_iff_ne_zero.mpr zero, fun d => Nat.digits_lt_base (by decide),
      Nat.ofDigits_digits 10 n⟩

theorem digit_byte : ∀ d < 10, IsDigit (48 + UInt8.ofNat d) ∧ (48 + UInt8.ofNat d - 48).toNat = d := by
  decide

theorem decimal_digits (n : Nat) : ∀ c ∈ decimal n, IsDigit c := by
  intro c member
  obtain ⟨d, inside, rfl⟩ := mem_map.mp member
  exact (digit_byte d ((decimalDigits_spec n).2.1 d (mem_reverse.mp inside))).1

theorem decimal_ne_nil (n : Nat) : decimal n ≠ [] := by
  unfold decimal
  simpa using (decimalDigits_spec n).1

private theorem scanDecimal_decimal (n : Nat) {rest : List UInt8} (stop : ∀ c ∈ rest.head?, c ≤ 32)
    : scanDecimal (decimal n ++ rest) = some (n, rest) := by
  have all : ∀ c ∈ decimal n, decide (IsDigit c) = true := fun c member =>
    decide_eq_true (decimal_digits n c member)
  have ends : rest.takeWhile (IsDigit ·) = [] ∧ rest.dropWhile (IsDigit ·) = rest := by
    cases rest with
    | nil => exact ⟨rfl, rfl⟩
    | cons c rest =>
      have small : c ≤ 32 := stop c rfl
      have other : ¬ decide (IsDigit c) = true := by
        rw [decide_eq_true_iff]
        intro digit
        exact absurd (UInt8.le_trans digit.1 small) (by decide)
      exact ⟨takeWhile_cons_of_neg other, dropWhile_cons_of_neg other⟩
  have values : (decimal n).reverse.map (fun c => (c - 48).toNat) = decimalDigits n := by
    unfold decimal
    rw [← map_reverse, reverse_reverse, map_map]
    refine map_congr_left (fun d member => ?_) |>.trans (map_id _)
    exact (digit_byte d ((decimalDigits_spec n).2.1 d member)).2
  unfold scanDecimal
  rw [takeWhile_append_of_pos all, dropWhile_append_of_pos all, ends.1, ends.2,
    append_nil, if_neg (decimal_ne_nil n), values, (decimalDigits_spec n).2.2]

def decimalFormat : IntFormat where
  print n := if n.toInt < 0 then 45 :: decimal n.toInt.natAbs else decimal n.toInt.natAbs
  scan := scanInt
  nonempty n := by
    split_ifs
    · exact cons_ne_nil _ _
    · exact decimal_ne_nil _
  plain n := by
    have large : ∀ c ∈ decimal n.toInt.natAbs, (32 : UInt8) < c := fun c member =>
      UInt8.lt_of_lt_of_le (by decide : (32 : UInt8) < 48) (decimal_digits _ c member).1
    split_ifs
    · exact forall_mem_cons.mpr ⟨by decide, large⟩
    · exact large
  inverse n rest stop := by
    have read := scanDecimal_decimal n.toInt.natAbs stop
    unfold scanInt
    split_ifs with negative minus minus
    · have value : -(n.toInt.natAbs : Int) = n.toInt := by omega
      rw [cons_append, tail_cons, read, Option.map_some]
      dsimp only
      rw [value, BitVec.ofInt_toInt]
    · exact absurd rfl minus
    · obtain ⟨c, more, digits⟩ := exists_cons_of_ne_nil (decimal_ne_nil n.toInt.natAbs)
      have digit := decimal_digits n.toInt.natAbs c (by rw [digits]; exact mem_cons_self)
      rw [digits] at minus
      rw [Option.some.inj minus] at digit
      exact absurd digit (by decide)
    · have value : (n.toInt.natAbs : Int) = n.toInt := by omega
      rw [read, Option.map_some]
      dsimp only
      rw [value, BitVec.ofInt_toInt]

def rootEntry : Entry := ⟨[47, 100, 101, 118], [47], [101, 120, 116, 52], [114, 119], 0, 1⟩

def hashEntry : Entry := { rootEntry with fsname := [hash, 97] }

theorem rootEntry_valid : rootEntry.Valid where
  nonempty := by decide
  noNul := by decide
  notAutofs := by decide

theorem hashEntry_valid : hashEntry.Valid where
  nonempty := by decide
  noNul := by decide
  notAutofs := by decide

/-- An entry with all four characters that are escaped. -/
def escapedEntry : Entry :=
  { rootEntry with fsname := [97, space, 98, backslash], dir := [47, tab, newline], freq := -1 }

theorem escapedEntry_valid : escapedEntry.Valid where
  nonempty := by decide
  noNul := by decide
  notAutofs := by decide

theorem readBack_root
    : ReadBack decimalFormat 4096 rootEntry [rootEntry, escapedEntry] :=
  (readBack_iff decimalFormat
    (forall_mem_cons.mpr ⟨rootEntry_valid, forall_mem_singleton.mpr escapedEntry_valid⟩)
    (by decide +kernel) rootEntry).mpr (by decide)

/-- The line "#a / ext4 rw 0 1" is taken for a comment. -/
theorem not_readBack_hash : ¬ ReadBack decimalFormat 4096 rootEntry [hashEntry] :=
  not_readBack decimalFormat (by simpa using hashEntry_valid) (by decide +kernel) (by decide)
    mem_cons_self (by decide) rootEntry

end Nglibc.Mntent
