import Nglibc.Strings.EnvzMap

/-! `argz_replace` of `string/argz-replace.c`. The allocations are numbered in the order in which they
are made. Strings stand without their null terminators, unless they are blocks.
-/

namespace Nglibc.Strings.Argz

open List

/-- `strstr`, with the offset of the first occurrence. -/
def strstr (str : List UInt8) : List UInt8 → Option Nat
  | [] => if str = [] then some 0 else none
  | c :: text => if str <+: c :: text then some 0 else (strstr str text).map (· + 1)

/-- The string at an offset. -/
def stringAt (bytes : List UInt8) (offset : Nat) : Option (List UInt8) :=
  (strlen (bytes.drop offset)).map fun n => (bytes.drop offset).take n

/-- `argz_next`, with offsets for the pointers to entries. -/
def argzNext (argz : Envz) : Option Nat → Option (Option Nat)
  | some entry =>
    (if entry < argz.len then (strlen (argz.bytes.drop entry)).map fun n => entry + n + 1
      else some entry).map fun entry => if entry ≥ argz.len then none else some entry
  | none => some (if argz.len > 0 then some 0 else none)

/-- `argz_add` of the string that a block starts with. -/
def argzAdd (argz : Envz) (str : List UInt8) (realloc : Realloc) : Option (Nat × Envz) :=
  (strlen str).map fun n => argzAppend argz (str.take (n + 1)) realloc

/-- `str_append` for a block and the length of its string. -/
def strAppend (block : List UInt8) (len : Nat) (buf : List UInt8) (realloc : Realloc)
    : Option (List UInt8 × Nat) :=
  realloc.map fun _ => (block.take len ++ buf ++ [0], len + buf.length)

/-- The loop that builds an entry again, from the text `rest` on. It gives the number of allocations
and the block, which is none when there is no memory.
-/
def buildLoop (str with_ : List UInt8) (alloc : Nat → Realloc)
    : Nat → Nat → List UInt8 → Nat → List UInt8 → Option (Nat × Option (List UInt8))
  | 0, _, _, _, _ => none
  | fuel + 1, calls, block, len, rest =>
    match strAppend block len with_ (alloc calls) with
    | none => some (calls + 1, none)
    | some (block, len) =>
      match strstr str rest with
      | none => some (calls + 2, (strAppend block len rest (alloc (calls + 1))).map Prod.fst)
      | some found =>
        match strAppend block len (rest.take found) (alloc (calls + 1)) with
        | none => some (calls + 2, none)
        | some (block, len) =>
          buildLoop str with_ alloc fuel (calls + 2) block len (rest.drop (found + str.length))

/-- `__strndup` of what stands before the first occurrence, and the loop. -/
def build (str with_ : List UInt8) (alloc : Nat → Realloc) (calls : Nat) (text : List UInt8)
    (found : Nat)
    : Option (Nat × Option (List UInt8)) :=
  match alloc calls with
  | none => some (calls + 1, none)
  | some _ =>
    buildLoop str with_ alloc (text.length + 1) (calls + 1) (text.take found ++ [0]) found
      (text.drop (found + str.length))

/-- The variables of the loop over the entries, with what `replace_count` points to and the number
of allocations.
-/
structure Replacing where
  err : Nat
  delayedCopy : Bool
  dst : Envz
  count : Option UInt32
  calls : Nat
deriving DecidableEq

/-- The copy of what stands before the first entry that changes. -/
def copyBefore (src : Envz) (alloc : Nat → Realloc) (arg : Nat) (st : Replacing) : Replacing :=
  if st.delayedCopy then
    if arg > 0 then
      let (err, dst) := argzAppend st.dst (src.bytes.take arg) (alloc st.calls)
      { st with err, dst, delayedCopy := false, calls := st.calls + 1 }
    else { st with delayedCopy := false }
  else st

def addEntry (alloc : Nat → Realloc) (block : List UInt8) (st : Replacing) : Option Replacing :=
  (argzAdd st.dst block (alloc st.calls)).map fun (err, dst) =>
    { st with err, dst, calls := st.calls + 1 }

def addBuilt (src : Envz) (alloc : Nat → Realloc) (arg : Nat) (built : Option (List UInt8))
    (st : Replacing)
    : Option Replacing :=
  match built with
  | none => some { st with err := enomem }
  | some block =>
    let st := copyBefore src alloc arg st
    if st.err = 0 then addEntry alloc block st else some st

/-- A round for the entry at `arg`. -/
def replaceEntry (src : Envz) (str with_ : List UInt8) (alloc : Nat → Realloc) (arg : Nat)
    (st : Replacing)
    : Option Replacing := do
  let text ← stringAt src.bytes arg
  match strstr str text with
  | none => if st.delayedCopy then return st else addEntry alloc (src.bytes.drop arg) st
  | some found =>
    let (calls, built) ← build str with_ alloc st.calls text found
    let st ← addBuilt src alloc arg built { st with calls }
    return { st with count := st.count.map (· + 1) }

def replaceLoop (src : Envz) (str with_ : List UInt8) (alloc : Nat → Realloc)
    : Nat → Option Nat → Replacing → Option Replacing
  | 0, _, _ => none
  | fuel + 1, arg, st =>
    if st.err ≠ 0 then some st
    else do
      match ← argzNext src arg with
      | none => return st
      | some arg =>
        replaceLoop src str with_ alloc fuel (some arg) (← replaceEntry src str with_ alloc arg st)

/-- `argz_replace`, with the vector that it leaves. Every round of its loop takes at least a byte. -/
def argzReplace (argz : Envz) (str : Option (List UInt8)) (with_ : List UInt8)
    (count : Option UInt32) (alloc : Nat → Realloc)
    : Option (Envz × Replacing) :=
  let start : Replacing := ⟨0, true, ⟨none, 0⟩, count, 0⟩
  match str with
  | none => some (argz, start)
  | some str =>
    if str = [] then some (argz, start)
    else do
      let st ← replaceLoop argz str with_ alloc (argz.len + 2) none start
      return (if st.err = 0 ∧ st.delayedCopy = false then st.dst else argz, st)

/-- A text with all occurrences replaced, from left to right. The first bytes are part of an
occurrence and fall away.
-/
def replaceAll (str with_ : List UInt8) : Nat → List UInt8 → List UInt8
  | _, [] => []
  | skip + 1, _ :: text => replaceAll str with_ skip text
  | 0, c :: text =>
    if str <+: c :: text then with_ ++ replaceAll str with_ (str.length - 1) text
    else c :: replaceAll str with_ 0 text

def occurrences (str : List UInt8) : Nat → List UInt8 → Nat
  | _, [] => 0
  | skip + 1, _ :: text => occurrences str skip text
  | 0, c :: text =>
    if str <+: c :: text then occurrences str (str.length - 1) text + 1 else occurrences str 0 text

variable {str with_ text : List UInt8} {alloc : Nat → Realloc}

theorem replaceAll_skip (skip : Nat) (text : List UInt8)
    : replaceAll str with_ skip text = replaceAll str with_ 0 (text.drop skip) := by
  induction text generalizing skip with
  | nil => simp [replaceAll]
  | cons c text ih =>
    cases skip with
    | zero => rfl
    | succ skip => exact ih skip

theorem occurrences_skip (skip : Nat) (text : List UInt8)
    : occurrences str skip text = occurrences str 0 (text.drop skip) := by
  induction text generalizing skip with
  | nil => simp [occurrences]
  | cons c text ih =>
    cases skip with
    | zero => rfl
    | succ skip => exact ih skip

theorem strstr_none (absent : strstr str text = none)
    : replaceAll str with_ 0 text = text ∧ occurrences str 0 text = 0 := by
  induction text with
  | nil => exact ⟨rfl, rfl⟩
  | cons c text ih =>
    rw [strstr] at absent
    split_ifs at absent with here
    obtain ⟨same, none⟩ := ih (Option.map_eq_none_iff.mp absent)
    rw [replaceAll, occurrences, if_neg here, if_neg here, same]
    exact ⟨rfl, none⟩

theorem strstr_some {found : Nat} (nonempty : str ≠ []) (first : strstr str text = some found)
    : found + str.length ≤ text.length ∧ replaceAll str with_ 0 text
        = text.take found ++ with_ ++ replaceAll str with_ 0 (text.drop (found + str.length))
      ∧ occurrences str 0 text = occurrences str 0 (text.drop (found + str.length)) + 1 := by
  have positive := length_pos_iff.mpr nonempty
  induction text generalizing found with
  | nil => simp [strstr, nonempty] at first
  | cons c text ih =>
    rw [strstr] at first
    rw [replaceAll, occurrences]
    split_ifs at first ⊢ with here
    · cases first
      have drop : (c :: text).drop (0 + str.length) = text.drop (str.length - 1) := by
        rw [Nat.zero_add, ← Nat.sub_add_cancel positive]
        rfl
      rw [drop, replaceAll_skip, occurrences_skip]
      exact ⟨by simpa using here.length_le, by simp, rfl⟩
    · obtain ⟨before, earlier, rfl⟩ := Option.map_eq_some_iff.mp first
      obtain ⟨inside, replaced, counted⟩ := ih earlier
      have drop : (c :: text).drop (before + 1 + str.length) = text.drop (before + str.length) := by
        rw [Nat.add_right_comm]
        rfl
      rw [drop, replaced, counted]
      exact ⟨by rw [length_cons]; omega, rfl, rfl⟩

/-- All allocations with numbers from `a` up to `b` get memory. -/
def Served (alloc : Nat → Realloc) (a b : Nat) : Prop := ∀ k, a ≤ k → k < b → alloc k ≠ none

theorem Served.succ {a b : Nat} (served : Served alloc a b) (next : alloc b ≠ none)
    : Served alloc a (b + 1) := by
  intro k from_ below
  rcases Nat.lt_succ_iff_lt_or_eq.mp below with before | rfl
  · exact served k from_ before
  · exact next

theorem Served.trans {a b c : Nat} (served : Served alloc a b) (more : Served alloc b c)
    : Served alloc a c := by
  intro k from_ below
  rcases lt_or_ge k b with before | after
  · exact served k from_ before
  · exact more k after below

theorem Served.of_le {a b c : Nat} (served : Served alloc a c) (le : a ≤ b) : Served alloc b c :=
  fun k from_ below => served k (le.trans from_) below

theorem strAppend_eq (before buf : List UInt8) (realloc : Realloc)
    : strAppend (before ++ [0]) before.length buf realloc
      = realloc.map fun _ => (before ++ buf ++ [0], (before ++ buf).length) := by
  unfold strAppend
  rw [take_left' rfl, length_append]

/-- The loop replaces in every entry, unless an allocation on the way fails. -/
theorem buildLoop_eq (nonempty : str ≠ []) {fuel calls : Nat} {rest : List UInt8}
    (fuelled : rest.length < fuel) (before : List UInt8)
    : ∃ calls' built, buildLoop str with_ alloc fuel calls (before ++ [0]) before.length rest
        = some (calls', built)
      ∧ calls ≤ calls'
      ∧ ((Served alloc calls calls'
          ∧ built = some (before ++ with_ ++ replaceAll str with_ 0 rest ++ [0]))
        ∨ (¬ Served alloc calls calls' ∧ built = none)) := by
  have positive := length_pos_iff.mpr nonempty
  induction fuel generalizing calls before rest with
  | zero => omega
  | succ fuel ih =>
    rw [buildLoop, strAppend_eq]
    cases first : alloc calls with
    | none =>
      exact ⟨_, _, rfl, Nat.le_succ _, .inr ⟨fun served =>
        served calls le_rfl (Nat.lt_succ_self _) first, rfl⟩⟩
    | some fresh =>
      have one : Served alloc calls (calls + 1) :=
        Served.succ (fun k from_ below => absurd below (Nat.not_lt.mpr from_)) (by simp [first])
      dsimp only [Option.map_some]
      cases found : strstr str rest with
      | none =>
        obtain ⟨same, -⟩ := @strstr_none str with_ rest found
        rw [strAppend_eq, same]
        refine ⟨_, _, rfl, Nat.le_add_right _ _, ?_⟩
        cases second : alloc (calls + 1) with
        | none => exact .inr ⟨fun served =>
            served (calls + 1) (Nat.le_succ _) (Nat.lt_succ_self _) second, rfl⟩
        | some _ => exact .inl ⟨one.succ (by simp [second]), rfl⟩
      | some m =>
        obtain ⟨inside, replaced, -⟩ := @strstr_some str with_ rest m nonempty found
        dsimp only
        rw [strAppend_eq]
        cases second : alloc (calls + 1) with
        | none =>
          exact ⟨_, _, rfl, Nat.le_add_right _ _, .inr ⟨fun served =>
            served (calls + 1) (Nat.le_succ _) (Nat.lt_succ_self _) second, rfl⟩⟩
        | some _ =>
          obtain ⟨calls', built, run, le, result⟩ :=
            @ih (calls + 2) (rest.drop (m + str.length)) (by rw [length_drop]; omega)
              (before ++ with_ ++ rest.take m)
          refine ⟨calls', built, run, by omega, ?_⟩
          have two : Served alloc calls (calls + 2) := one.succ (by simp [second])
          rcases result with ⟨served, built⟩ | ⟨refused, built⟩
          · refine .inl ⟨two.trans served, ?_⟩
            rw [built, replaced]
            simp only [append_assoc]
          · exact .inr ⟨fun served => refused (served.of_le (by omega)), built⟩

private theorem build_eq {found : Nat} (nonempty : str ≠ []) (calls : Nat)
    (first : strstr str text = some found)
    : ∃ calls' built, build str with_ alloc calls text found = some (calls', built) ∧ calls ≤ calls'
      ∧ ((Served alloc calls calls' ∧ built = some (replaceAll str with_ 0 text ++ [0]))
        ∨ (¬ Served alloc calls calls' ∧ built = none)) := by
  obtain ⟨inside, replaced, -⟩ := @strstr_some str with_ text found nonempty first
  unfold build
  cases next : alloc calls with
  | none =>
    exact ⟨_, _, rfl, Nat.le_succ _, .inr ⟨fun served =>
      served calls le_rfl (Nat.lt_succ_self _) next, rfl⟩⟩
  | some _ =>
    have one : Served alloc calls (calls + 1) :=
      Served.succ (fun k from_ below => absurd below (Nat.not_lt.mpr from_)) (by simp [next])
    obtain ⟨calls', built, run, le, result⟩ :=
      @buildLoop_eq str with_ alloc nonempty (text.length + 1) (calls + 1)
        (text.drop (found + str.length)) (by rw [length_drop]; omega) (text.take found)
    rw [length_take_of_le (by omega)] at run
    rw [← replaced] at result
    refine ⟨calls', built, run, by omega, ?_⟩
    rcases result with ⟨served, built⟩ | ⟨refused, built⟩
    · exact .inl ⟨one.trans served, built⟩
    · exact .inr ⟨fun served => refused (served.of_le (Nat.le_succ _)), built⟩

/-- The bytes of a holds. -/
def joined (entries : List (List UInt8)) : List UInt8 := entries.flatMap (· ++ [0])

@[simp] theorem joined_nil : joined [] = [] := rfl

@[simp] theorem joined_cons (e : List UInt8) (entries : List (List UInt8))
    : joined (e :: entries) = e ++ 0 :: joined entries := by
  simp [joined]

@[simp] theorem joined_append (left right : List (List UInt8))
    : joined (left ++ right) = joined left ++ joined right :=
  flatMap_append

theorem length_le_length_joined (entries : List (List UInt8))
    : entries.length ≤ (joined entries).length := by
  induction entries with
  | nil => exact Nat.le_refl 0
  | cons e entries ih =>
    rw [joined_cons, length_append, length_cons, length_cons]
    omega

/-- The vector has these entries. -/
structure Holds (v : Envz) (entries : List (List UInt8)) : Prop where
  bytes : v.bytes.take v.len = joined entries
  len : v.len = (joined entries).length
  noNul : ∀ e ∈ entries, 0 ∉ e

/-- The block has these bytes, and no others. -/
structure Full (v : Envz) (text : List UInt8) : Prop where
  bytes : v.bytes = text
  len : v.len = text.length

theorem Full.argzAppend {v : Envz} {bytes : List UInt8} (full : Full v bytes) (buf : List UInt8)
    (fresh : Nat → UInt8)
    : ∃ v', argzAppend v buf (some fresh) = (0, v') ∧ Full v' (bytes ++ buf) := by
  refine ⟨_, rfl, ?_, ?_⟩
  · unfold appended Envz.bytes
    refine congrArg (· ++ buf) (ext_getElem ?_ fun i low high => ?_)
    · simp [full.len]
    · have cell : v.bytes[i]? = some bytes[i] := by
        rw [full.bytes, getElem?_eq_getElem high]
      simp only [Envz.bytes] at cell
      simp [cell]
  · unfold appended
    rw [full.len, length_append]

theorem argzAdd_eq {e : List UInt8} (noNul : 0 ∉ e) (more : List UInt8) (v : Envz)
    (realloc : Realloc)
    : argzAdd v (e ++ 0 :: more) realloc = some (argzAppend v (e ++ [0]) realloc) := by
  unfold argzAdd
  rw [strlen_text noNul, Option.map_some]
  congr 2
  simp [take_append]

section

variable {src : Envz} {pre post : List (List UInt8)} {e : List UInt8}

section

variable (holds : Holds src (pre ++ e :: post))
include holds

theorem Holds.behind
    : ∃ more, src.bytes.drop (joined pre).length = e ++ 0 :: more := by
  have bytes := holds.bytes
  rw [joined_append, joined_cons] at bytes
  have all := take_append_drop src.len src.bytes
  rw [bytes, append_assoc] at all
  refine ⟨joined post ++ src.bytes.drop src.len, ?_⟩
  nth_rewrite 1 [← all]
  rw [drop_left' rfl, append_assoc, cons_append]

theorem Holds.before
    : src.bytes.take (joined pre).length = joined pre := by
  have bytes := holds.bytes
  have len := holds.len
  rw [joined_append] at bytes len
  have short : (joined pre).length ≤ src.len := by
    rw [len, length_append]
    omega
  rw [← Nat.min_eq_left short, ← take_take, bytes, take_left' rfl]

theorem Holds.next
    : argzNext src (some (joined pre).length)
      = some (if post = [] then none else some (joined (pre ++ [e])).length) := by
  obtain ⟨more, drop⟩ := holds.behind
  have len := holds.len
  simp only [joined_append, joined_cons, length_append, length_cons] at len
  have noNul : 0 ∉ e := holds.noNul e (by simp)
  have last : (joined post).length = 0 ↔ post = [] := by
    constructor
    · intro zero
      have := length_le_length_joined post
      exact eq_nil_of_length_eq_zero (by omega)
    · rintro rfl
      rfl
  unfold argzNext
  dsimp only
  rw [if_pos (by omega), drop, strlen_text noNul]
  simp only [Option.map_some, joined_append, joined_cons, joined_nil, length_append,
    length_cons, length_nil]
  refine congrArg some ?_
  split_ifs with ends empty empty
  · rfl
  · exact absurd (last.mp (by omega)) empty
  · exact absurd (last.mpr empty) (by omega)
  · rfl

end

/-- The loop behind the entries `pre`, as long as there was memory. -/
structure Replacing.Reached (str with_ : List UInt8) (alloc : Nat → Realloc) (count : Option UInt32)
    (pre : List (List UInt8)) (st : Replacing)
    : Prop where
  err : st.err = 0
  served : Served alloc 0 st.calls
  delayed : st.delayedCopy = true → Full st.dst [] ∧ ∀ e ∈ pre, strstr str e = none
  copied : st.delayedCopy = false → Full st.dst (joined (pre.map (replaceAll str with_ 0)))
  count : st.count = count.map (· + UInt32.ofNat (pre.countP fun e => (strstr str e).isSome))

/-- There was no memory. -/
structure Replacing.Failed (alloc : Nat → Realloc) (st : Replacing) : Prop where
  err : st.err = enomem
  refused : ¬ Served alloc 0 st.calls

/-- Unless there was no memory, these are the bytes of the new vector. -/
def Replacing.Holding (alloc : Nat → Realloc) (text : List UInt8) (st : Replacing) : Prop :=
  st.Failed alloc ∨ (st.err = 0 ∧ Served alloc 0 st.calls ∧ Full st.dst text)

theorem not_served {k b : Nat} (refused : alloc k = none) (below : k < b) : ¬ Served alloc 0 b :=
  fun served => served k (Nat.zero_le k) below refused

theorem addEntry_eq {more bytes : List UInt8} (noNul : 0 ∉ e) {st : Replacing}
    (served : Served alloc 0 st.calls) (full : Full st.dst bytes)
    : ∃ st', addEntry alloc (e ++ 0 :: more) st = some st' ∧ st'.delayedCopy = st.delayedCopy
      ∧ st'.count = st.count ∧ st'.Holding alloc (bytes ++ (e ++ [0])) := by
  unfold addEntry
  rw [argzAdd_eq noNul]
  cases next : alloc st.calls with
  | none =>
    exact ⟨_, rfl, rfl, rfl, .inl ⟨rfl, not_served next (Nat.lt_succ_self _)⟩⟩
  | some fresh =>
    obtain ⟨v, added, full⟩ := full.argzAppend (e ++ [0]) fresh
    rw [added]
    exact ⟨_, rfl, rfl, rfl, .inr ⟨rfl, served.succ (by simp [next]), full⟩⟩

theorem map_replaceAll {entries : List (List UInt8)} (absent : ∀ e ∈ entries, strstr str e = none)
    : entries.map (replaceAll str with_ 0) = entries := by
  have same : entries.map (replaceAll str with_ 0) = entries.map id :=
    map_congr_left fun e member => (strstr_none (absent e member)).1
  rw [same, map_id]

variable {count : Option UInt32} {st : Replacing}

private theorem copyBefore_eq (holds : Holds src (pre ++ e :: post))
    (reached : st.Reached str with_ alloc count pre) {calls : Nat} (served : Served alloc 0 calls)
    : ∃ st', copyBefore src alloc (joined pre).length { st with calls } = st'
      ∧ st'.delayedCopy = false ∧ st'.count = st.count
      ∧ st'.Holding alloc (joined (pre.map (replaceAll str with_ 0))) := by
  refine ⟨_, rfl, ?_⟩
  unfold copyBefore
  cases delay : st.delayedCopy with
  | false => exact ⟨rfl, rfl, .inr ⟨reached.err, served, reached.copied delay⟩⟩
  | true =>
    obtain ⟨full, absent⟩ := reached.delayed delay
    rw [map_replaceAll absent, if_pos rfl]
    split_ifs with some_
    · rw [holds.before]
      cases next : alloc calls with
      | none => exact ⟨rfl, rfl, .inl ⟨rfl, not_served next (Nat.lt_succ_self _)⟩⟩
      | some fresh =>
        obtain ⟨v, added, full⟩ := full.argzAppend (joined pre) fresh
        rw [added]
        exact ⟨rfl, rfl, .inr ⟨rfl, served.succ (by simp [next]), full⟩⟩
    · have empty : joined pre = [] := eq_nil_of_length_eq_zero (by omega)
      rw [empty]
      exact ⟨rfl, rfl, .inr ⟨reached.err, served, full⟩⟩

theorem noNul_replaceAll {text : List UInt8} (noNul : 0 ∉ with_) (noNulText : 0 ∉ text) (skip : Nat)
    : 0 ∉ replaceAll str with_ skip text := by
  induction text generalizing skip with
  | nil => simp [replaceAll]
  | cons c text ih =>
    rw [mem_cons, not_or] at noNulText
    cases skip with
    | succ skip => exact ih noNulText.2 skip
    | zero =>
      rw [replaceAll]
      split_ifs
      · rw [mem_append, not_or]
        exact ⟨noNul, ih noNulText.2 _⟩
      · rw [mem_cons, not_or]
        exact ⟨noNulText.1, ih noNulText.2 0⟩

/-- A round for an entry without occurrences. -/
theorem Replacing.Reached.keep (reached : st.Reached str with_ alloc count pre)
    (absent : strstr str e = none) {st' : Replacing} (delayed : st'.delayedCopy = st.delayedCopy)
    (counted : st'.count = st.count) (ok : st'.err = 0) (served : Served alloc 0 st'.calls)
    (dst : st.delayedCopy = true → st'.dst = st.dst)
    (copied : st.delayedCopy = false →
      Full st'.dst (joined (pre.map (replaceAll str with_ 0)) ++ (e ++ [0])))
    : st'.Reached str with_ alloc count (pre ++ [e]) := by
  refine ⟨ok, served, fun delay => ?_, fun delay => ?_, ?_⟩
  · rw [delayed] at delay
    rw [dst delay]
    refine ⟨(reached.delayed delay).1, fun e' member => ?_⟩
    rcases mem_append.mp member with before | here
    · exact (reached.delayed delay).2 e' before
    · rwa [mem_singleton.mp here]
  · simpa [(strstr_none absent).1] using copied (delayed ▸ delay)
  · simp [counted, reached.count, countP_append, absent]

/-- One round of the loop. -/
theorem replaceEntry_step (nonempty : str ≠ []) (noNul : 0 ∉ with_)
    (holds : Holds src (pre ++ e :: post)) (reached : st.Reached str with_ alloc count pre)
    : ∃ st', replaceEntry src str with_ alloc (joined pre).length st = some st'
      ∧ (st'.Reached str with_ alloc count (pre ++ [e]) ∨ st'.Failed alloc) := by
  have noNulEntry : 0 ∉ e := holds.noNul e (by simp)
  obtain ⟨more, behind⟩ := holds.behind
  have text : stringAt src.bytes (joined pre).length = some e := by
    unfold stringAt
    rw [behind, strlen_text noNulEntry, Option.map_some, take_left' rfl]
  unfold replaceEntry
  rw [text, Option.bind_eq_bind, Option.bind_some]
  cases found : strstr str e with
  | none =>
    cases delay : st.delayedCopy with
    | true =>
      exact ⟨st, rfl, .inl (reached.keep found rfl rfl reached.err reached.served (fun _ => rfl)
        fun copied => absurd (delay.symm.trans copied) (by decide))⟩
    | false =>
      rw [behind]
      obtain ⟨st', run, kept, counted, failed | ⟨err, served, full⟩⟩ :=
        @addEntry_eq alloc e more _ noNulEntry st reached.served (reached.copied delay)
      · exact ⟨st', run, .inr failed⟩
      · exact ⟨st', run, .inl (reached.keep found kept counted err served
          (fun delayed => absurd (delay.symm.trans delayed) (by decide)) fun _ => full)⟩
  | some m =>
    obtain ⟨calls, built, run, le, result⟩ := @build_eq str with_ e alloc m nonempty st.calls found
    dsimp only
    rw [run, Option.bind_eq_bind, Option.bind_some]
    rcases result with ⟨served, rfl⟩ | ⟨refused, rfl⟩
    · obtain ⟨st', copy, noDelay, counted, holding⟩ :=
        copyBefore_eq holds reached (reached.served.trans served)
      unfold addBuilt
      dsimp only
      rw [copy]
      rcases holding with failed | ⟨err, served, full⟩
      · rw [if_neg (by rw [failed.err]; decide)]
        exact ⟨_, rfl, .inr ⟨failed.err, failed.refused⟩⟩
      · rw [if_pos err]
        obtain ⟨st'', added, kept, counted', holding⟩ :=
          @addEntry_eq alloc (replaceAll str with_ 0 e) [] _ (noNul_replaceAll noNul noNulEntry 0)
            st' served full
        rw [added]
        refine ⟨_, rfl, ?_⟩
        rcases holding with failed | ⟨err, served, full⟩
        · exact .inr ⟨failed.err, failed.refused⟩
        · refine .inl ⟨err, served, fun delay => ?_, fun _ => by simpa using full, ?_⟩
          · exact absurd (noDelay.symm.trans (kept.symm.trans delay)) (by decide)
          · simp [counted', counted, reached.count, countP_append, found, UInt32.add_assoc,
              UInt32.ofNat_add, Function.comp_def]
    · exact ⟨_, rfl, .inr ⟨rfl, fun all => refused (all.of_le (Nat.zero_le _))⟩⟩

private theorem replaceLoop_run (nonempty : str ≠ []) (noNul : 0 ∉ with_) {fuel : Nat} {arg : Option Nat}
    (fuelled : post.length < fuel) (holds : Holds src (pre ++ post))
    (next : argzNext src arg = some (if post = [] then none else some (joined pre).length))
    (reached : st.Reached str with_ alloc count pre)
    : ∃ st', replaceLoop src str with_ alloc fuel arg st = some st'
      ∧ (st'.Reached str with_ alloc count (pre ++ post) ∨ st'.Failed alloc) := by
  induction post generalizing pre fuel arg st with
  | nil =>
    obtain ⟨fuel, rfl⟩ : ∃ more, fuel = more + 1 := ⟨fuel - 1, by omega⟩
    rw [replaceLoop, if_neg (not_not.mpr reached.err), next]
    exact ⟨st, rfl, .inl (by rwa [append_nil])⟩
  | cons e post ih =>
    obtain ⟨fuel, rfl⟩ : ∃ more, fuel = more + 1 := ⟨fuel - 1, by omega⟩
    obtain ⟨st', round, result⟩ := replaceEntry_step nonempty noNul holds reached
    rw [replaceLoop, if_neg (not_not.mpr reached.err), next, if_neg (cons_ne_nil e post),
      Option.bind_eq_bind, Option.bind_some]
    dsimp only
    rw [round, Option.bind_eq_bind, Option.bind_some]
    rw [length_cons] at fuelled
    rcases result with reached' | failed
    · have rest := ih (show post.length < fuel by omega)
        (by rwa [append_assoc]) holds.next reached'
      rwa [append_assoc] at rest
    · obtain ⟨fuel, rfl⟩ : ∃ more, fuel = more + 1 := ⟨fuel - 1, by omega⟩
      rw [replaceLoop, if_pos (by rw [failed.err]; decide)]
      exact ⟨st', rfl, .inr failed⟩

end

section

variable {argz : Envz} {entries : List (List UInt8)}

theorem argzReplace_run (nonempty : str ≠ []) (noNul : 0 ∉ with_) (holds : Holds argz entries)
    (count : Option UInt32) (alloc : Nat → Realloc)
    : ∃ st, argzReplace argz (some str) with_ count alloc
        = some (if st.err = 0 ∧ st.delayedCopy = false then st.dst else argz, st)
      ∧ (st.Reached str with_ alloc count entries ∨ st.Failed alloc) := by
  have start : (⟨0, true, ⟨none, 0⟩, count, 0⟩ : Replacing).Reached str with_ alloc count [] := by
    refine ⟨rfl, fun k _ below => absurd below (Nat.not_lt_zero k), fun _ => ⟨⟨rfl, rfl⟩, nofun⟩,
      nofun, ?_⟩
    simp
  have many := length_le_length_joined entries
  have len := holds.len
  have first : argzNext argz none = some (if entries = [] then none else some (joined []).length) := by
    unfold argzNext
    rw [len]
    cases entries <;> simp
  obtain ⟨st, run, result⟩ := replaceLoop_run nonempty noNul
    (show entries.length < argz.len + 2 by omega) (show Holds argz ([] ++ entries) from holds) first
    start
  refine ⟨st, ?_, result⟩
  unfold argzReplace
  dsimp only
  rw [if_neg nonempty, run]
  rfl

/-- When there is memory, `argz_replace` replaces all occurrences in all entries; otherwise it returns
`ENOMEM` and the vector stays as it was.
-/
theorem argzReplace_replaces (nonempty : str ≠ []) (noNul : 0 ∉ with_) (holds : Holds argz entries)
    (count : Option UInt32) (alloc : Nat → Realloc)
    : ∃ argz' st, argzReplace argz (some str) with_ count alloc = some (argz', st)
      ∧ ((∀ k < st.calls, alloc k ≠ none) →
        st.err = 0 ∧ Holds argz' (entries.map (replaceAll str with_ 0)))
      ∧ ((∃ k < st.calls, alloc k = none) → st.err = enomem ∧ argz' = argz) := by
  obtain ⟨st, run, result⟩ := argzReplace_run nonempty noNul holds count alloc
  refine ⟨_, st, run, ?_⟩
  rcases result with reached | failed
  · refine ⟨fun _ => ⟨reached.err, ?_⟩, ?_⟩
    · have clean : ∀ e ∈ entries.map (replaceAll str with_ 0), 0 ∉ e := by
        intro e' member
        obtain ⟨e, inside, rfl⟩ := mem_map.mp member
        exact noNul_replaceAll noNul (holds.noNul e inside) 0
      cases delay : st.delayedCopy with
      | true =>
        rw [if_neg (by simp)]
        rwa [map_replaceAll (reached.delayed delay).2]
      | false =>
        have full := reached.copied delay
        rw [if_pos ⟨reached.err, rfl⟩]
        exact ⟨by rw [full.len, full.bytes, take_length], full.len, clean⟩
    · rintro ⟨k, below, refused⟩
      exact absurd refused (reached.served k (Nat.zero_le k) below)
  · refine ⟨fun all => ?_, fun _ => ⟨failed.err, ?_⟩⟩
    · exact absurd (fun k _ below => all k below) failed.refused
    · rw [if_neg fun both => absurd (failed.err.symm.trans both.1) (by decide)]

/-- Two entries, one of them with two occurrences. -/
theorem argzReplace_replaces_letters
    : ∃ argz' st, argzReplace ⟨some [97, 97, 0, 98, 0], 5⟩ (some [97]) [99, 99] none
        (fun _ => some fun _ => 0) = some (argz', st)
      ∧ Holds argz' [[99, 99, 99, 99], [98]] := by
  obtain ⟨argz', st, run, done, -⟩ := @argzReplace_replaces [97] [99, 99]
    ⟨some [97, 97, 0, 98, 0], 5⟩ [[97, 97], [98]] (by simp) (by simp) ⟨rfl, rfl, by simp⟩ none
    (fun _ => some fun _ => 0)
  exact ⟨argz', st, run, (done fun k _ => by simp).2⟩

/-- How many occurrences stand behind the first one of an entry. -/
def laterOccurrences (str e : List UInt8) : Nat := occurrences str 0 e - 1

private theorem occurrences_sum (nonempty : str ≠ []) (entries : List (List UInt8))
    : (entries.map (occurrences str 0)).sum = entries.countP (fun e => (strstr str e).isSome)
        + (entries.map (laterOccurrences str)).sum := by
  induction entries with
  | nil => rfl
  | cons e entries ih =>
    rw [map_cons, sum_cons, countP_cons, map_cons, sum_cons, ih,
      laterOccurrences]
    cases found : strstr str e with
    | none =>
      rw [(@strstr_none str [] e found).2]
      simp
    | some m =>
      rw [(@strstr_some str [] e m nonempty found).2.2]
      simp only [Option.isSome_some, if_true]
      omega

/-- A successful `argz_replace` counts the entries that change. These are as many as the occurrences,
as a number of 32 bits, exactly if the occurrences behind the first ones of the entries do not count.
-/
theorem argzReplace_counts_iff (nonempty : str ≠ []) (noNul : 0 ∉ with_) (holds : Holds argz entries)
    (count : UInt32) (alloc : Nat → Realloc)
    : ∃ argz' st, argzReplace argz (some str) with_ (some count) alloc = some (argz', st)
      ∧ (st.err = 0 → (st.count = some (count + UInt32.ofNat (entries.map (occurrences str 0)).sum)
          ↔ 2 ^ 32 ∣ (entries.map (laterOccurrences str)).sum)) := by
  obtain ⟨st, run, result⟩ := argzReplace_run nonempty noNul holds (some count) alloc
  refine ⟨_, st, run, fun ok => ?_⟩
  rcases result with reached | failed
  · rw [reached.count, Option.map_some, Option.some.injEq, UInt32.add_right_inj,
      occurrences_sum nonempty entries, UInt32.ofNat_eq_iff_mod_eq_toNat,
      UInt32.toNat_ofNat']
    omega
  · rw [failed.err] at ok
    cases ok

end

/-- One entry with one occurrence. -/
theorem argzReplace_counts_letter
    : ∃ argz' st, argzReplace ⟨some [97, 0], 2⟩ (some [97]) [98] (some 6)
        (fun _ => some fun _ => 0) = some (argz', st) ∧ (st.err = 0 → st.count = some 7) := by
  obtain ⟨argz', st, run, counts⟩ := @argzReplace_counts_iff [97] [98] ⟨some [97, 0], 2⟩ [[97]]
    (by simp) (by simp) ⟨rfl, rfl, by simp⟩ 6 (fun _ => some fun _ => 0)
  exact ⟨argz', st, run, fun ok => (counts ok).mpr (by decide)⟩

/-- Two occurrences in one entry count once. -/
theorem not_argzReplace_counts
    : ¬ ∀ (argz : Envz) (entries : List (List UInt8)) (str with_ : List UInt8) (count : UInt32)
        (alloc : Nat → Realloc), Holds argz entries → str ≠ [] → 0 ∉ with_ →
        ∀ argz' st, argzReplace argz (some str) with_ (some count) alloc = some (argz', st) →
          st.err = 0 →
          st.count = some (count + UInt32.ofNat (entries.map (occurrences str 0)).sum) := by
  intro counts
  have twice := counts ⟨some [97, 97, 0], 3⟩ [[97, 97]] [97] [98] 0 (fun _ => some fun _ => 0)
    ⟨rfl, rfl, by simp⟩ (by simp) (by simp) ⟨some [98, 98, 0], 3⟩
    ⟨0, false, ⟨some [98, 98, 0], 3⟩, some 1, 6⟩ (by decide) rfl
  exact absurd twice (by decide)

end Nglibc.Strings.Argz
