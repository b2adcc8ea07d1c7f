import Nglibc.Strings.Envz

/-! An environment vector is a map from names to values or null. The vector is first read as a
list of entries with different names; every operation is then one on that list.
-/

namespace Nglibc.Strings

open List

/-- An entry: its name, and its value unless it is a null entry. -/
structure EnvzEntry where
  name : List UInt8
  value : Option (List UInt8)

def EndsName (c : UInt8) : Prop := c = 0 ∨ c = sep

def PlainName (name : List UInt8) : Prop := ∀ c ∈ name, ¬EndsName c

namespace EnvzEntry

def text (e : EnvzEntry) : List UInt8 :=
  match e.value with
  | none => e.name
  | some value => e.name ++ sep :: value

/-- The bytes of the entry in the vector, with the null terminator. -/
def record (e : EnvzEntry) : List UInt8 := e.text ++ [0]

/-- An entry whose null terminator is its first null byte and whose separator ends the name. -/
structure Valid (e : EnvzEntry) : Prop where
  name : PlainName e.name
  value : ∀ value, e.value = some value → 0 ∉ value

end EnvzEntry

def flat (entries : List EnvzEntry) : List UInt8 := entries.flatMap EnvzEntry.record

theorem flat_cons (e : EnvzEntry) (entries : List EnvzEntry)
    : flat (e :: entries) = e.record ++ flat entries := rfl

def position (name : List UInt8) : List EnvzEntry → Option Nat
  | [] => none
  | e :: entries =>
    if e.name = name then some 0 else (position name entries).map (· + e.record.length)

variable {e : EnvzEntry} {entries : List EnvzEntry} {name : List UInt8}

/-! Scanning the bytes -/

/-- The first loop on two names: it stops behind both when they are equal, and before a byte that
is not the end of a name otherwise.
-/
theorem matchLoop_names {n m : List UInt8} (plainN : PlainName n) (plainM : PlainName m)
    {c d : UInt8} (endC : EndsName c) (endD : EndsName d) (t r : List UInt8) {len : Nat}
    (fits : m.length < len)
    : ∃ a p b q k, matchLoop (n ++ c :: t) (m ++ d :: r) len = some (a :: p, b :: q, len - k)
      ∧ k ≤ m.length ∧ b :: q = m.drop k ++ d :: r
      ∧ ((EndsName b ∧ EndsName a) ↔ n = m) := by
  induction m generalizing n len with
  | nil =>
    obtain ⟨len, rfl⟩ := Nat.exists_eq_add_of_lt fits
    cases n with
    | nil =>
      refine ⟨c, t, d, r, 0, ?_, le_rfl, rfl, by simp [endC, endD]⟩
      have stop : ¬(c = d ∧ c ≠ 0 ∧ c ≠ sep) := by
        rintro ⟨_, notZero, notSep⟩
        exact endC.elim notZero notSep
      simp [matchLoop, stop]
    | cons a n =>
      have notEnd := plainN a mem_cons_self
      have stop : ¬(a = d ∧ a ≠ 0 ∧ a ≠ sep) := by
        rintro ⟨rfl, _⟩
        exact notEnd endD
      refine ⟨a, n ++ c :: t, d, r, 0, ?_, le_rfl, rfl, ?_⟩
      · simp [matchLoop, stop]
      · simp [notEnd]
  | cons b m ih =>
    obtain ⟨len, rfl⟩ := Nat.exists_eq_add_of_lt fits
    have notEnd := plainM b mem_cons_self
    have plainTail : PlainName m := fun x inM => plainM x (mem_cons_of_mem b inM)
    cases n with
    | nil =>
      have stop : ¬(c = b ∧ c ≠ 0 ∧ c ≠ sep) := by
        rintro ⟨rfl, _⟩
        exact notEnd endC
      refine ⟨c, t, b, m ++ d :: r, 0, ?_, Nat.zero_le _, rfl, ?_⟩
      · simp [matchLoop, stop]
      · simp [notEnd]
    | cons a n =>
      have notEndA := plainN a mem_cons_self
      by_cases same : a = b
      · have go : a = b ∧ a ≠ 0 ∧ a ≠ sep :=
          ⟨same, fun zero => notEndA (.inl zero), fun sign => notEndA (.inr sign)⟩
        have plainN : PlainName n := fun x inN => plainN x (mem_cons_of_mem a inN)
        obtain ⟨a', p, b', q, k, found, le, split, ends⟩ :=
          ih plainN plainTail (show m.length < m.length + 1 + len by omega)
        refine ⟨a', p, b', q, k + 1, ?_, Nat.succ_le_succ le, split, ?_⟩
        · have step : (b :: m).length + len + 1 = (m.length + 1 + len) + 1 := by
            simp
          rw [step, cons_append, cons_append, matchLoop, if_pos go, found]
          simp
        · rw [ends, same]
          simp
      · have stop : ¬(a = b ∧ a ≠ 0 ∧ a ≠ sep) := fun go => same go.1
        refine ⟨a, n ++ c :: t, b, m ++ d :: r, 0, ?_, Nat.zero_le _, rfl, ?_⟩
        · simp [matchLoop, stop]
        · simp [notEnd, same]

theorem skipLoop_text {x : List UInt8} (noZero : 0 ∉ x) (r : List UInt8) {len : Nat}
    (fits : x.length < len) : skipLoop (x ++ 0 :: r) len = some (0 :: r, len - x.length) := by
  induction x generalizing len with
  | nil =>
    obtain ⟨len, rfl⟩ := Nat.exists_eq_add_of_lt fits
    simp [skipLoop]
  | cons b x ih =>
    obtain ⟨len, rfl⟩ := Nat.exists_eq_add_of_lt fits
    have nonzero : b ≠ 0 := fun zero => noZero (by simp [zero])
    have later : 0 ∉ x := fun inX => noZero (mem_cons_of_mem b inX)
    have step : (b :: x).length + len + 1 = (x.length + 1 + len) + 1 := by simp
    rw [cons_append, skipLoop, if_pos nonzero, ih later (by omega)]
    simp

theorem EnvzEntry.length_record (e : EnvzEntry) : e.record.length = e.text.length + 1 := by
  simp [EnvzEntry.record]

theorem EnvzEntry.record_eq (e : EnvzEntry)
    : ∃ d r, EndsName d ∧ e.record = e.name ++ d :: r := by
  unfold EnvzEntry.record EnvzEntry.text
  cases e.value with
  | none => exact ⟨0, [], .inl rfl, rfl⟩
  | some value => exact ⟨sep, value ++ [0], .inr rfl, by simp⟩

theorem EnvzEntry.Valid.zero_not_mem (valid : e.Valid) : 0 ∉ e.text := by
  have name : 0 ∉ e.name := fun inName => valid.name 0 inName (.inl rfl)
  unfold EnvzEntry.text
  cases value : e.value with
  | none => exact name
  | some v =>
    have noZero := valid.value v value
    simp [name, noZero, sep]

theorem strlen_text {x : List UInt8} (noZero : 0 ∉ x) (r : List UInt8)
    : strlen (x ++ 0 :: r) = some x.length := by
  induction x with
  | nil => rfl
  | cons b x ih =>
    have nonzero : b ≠ 0 := fun zero => noZero (by simp [zero])
    have later : 0 ∉ x := fun inX => noZero (mem_cons_of_mem b inX)
    rw [cons_append, strlen, if_neg nonzero, ih later]
    rfl

theorem EnvzEntry.Valid.strlen_record (valid : e.Valid) (r : List UInt8)
    : strlen (e.record ++ r) = some e.text.length := by
  rw [EnvzEntry.record, append_assoc]
  exact strlen_text valid.zero_not_mem r

/-- One round of `envz_entry`. -/
theorem entryLoop_record (plain : PlainName name) {c : UInt8} (endC : EndsName c)
    (t : List UInt8) (valid : e.Valid) (fuel offset : Nat) (r : List UInt8) (len : Nat)
    : entryLoop (name ++ c :: t) (fuel + 1) offset (e.record ++ r) (e.record.length + len)
      = if e.name = name then some (some offset)
        else entryLoop (name ++ c :: t) fuel (offset + e.record.length) r len := by
  obtain ⟨d, tail, endD, split⟩ := e.record_eq
  have length : e.record.length = e.name.length + (tail.length + 1) := by simp [split]
  obtain ⟨a, p, b, q, k, found, le, rest, ends⟩ :=
    matchLoop_names plain valid.name endC endD t (tail ++ r)
      (show e.name.length < e.record.length + len by omega)
  have bytes : e.record ++ r = e.name ++ d :: (tail ++ r) := by rw [split]; simp
  obtain ⟨total, total_eq⟩ : ∃ total, e.record.length + len = total + 1 :=
    ⟨e.name.length + tail.length + len, by omega⟩
  rw [total_eq, entryLoop, ← total_eq, bytes, found]
  swap
  · exact Nat.succ_ne_zero total
  dsimp only [Option.bind_eq_bind, Option.bind_some, head?_cons]
  have ends : ((b = 0 ∨ b = sep) ∧ (a = 0 ∨ a = sep)) ↔ name = e.name := ends
  by_cases same : e.name = name
  · rw [if_pos (ends.mpr same.symm), if_pos same]
    rfl
  · rw [if_neg (fun both => same (ends.mp both).symm), if_neg same]
    have textLength := e.length_record
    have behind : b :: q = e.text.drop k ++ 0 :: r := by
      have drop : b :: q = (e.record ++ r).drop k := by
        rw [rest, bytes, drop_append_of_le_length le]
      rw [drop, EnvzEntry.record, append_assoc, drop_append_of_le_length (by omega)]
      rfl
    have noZero : 0 ∉ e.text.drop k :=
      fun inDrop => valid.zero_not_mem (mem_of_mem_drop inDrop)
    have left : e.record.length + len - k - (e.text.drop k).length = len + 1 := by
      rw [length_drop]
      omega
    have next : offset + (e.record.length + len - len) = offset + e.record.length := by omega
    rw [behind, skipLoop_text noZero r (by rw [length_drop]; omega), left]
    dsimp only [Option.bind_some, tail_cons]
    rw [next]

private theorem entryLoop_flat (plain : PlainName name) {c : UInt8} (endC : EndsName c) (t : List UInt8)
    (valid : ∀ e ∈ entries, e.Valid) {fuel : Nat} (enough : entries.length ≤ fuel) (offset : Nat)
    (r : List UInt8)
    : entryLoop (name ++ c :: t) fuel offset (flat entries ++ r) (flat entries).length
      = some ((position name entries).map (offset + ·)) := by
  induction entries generalizing fuel offset with
  | nil => cases fuel <;> rfl
  | cons e entries ih =>
    obtain ⟨first, later⟩ := forall_mem_cons.mp valid
    obtain ⟨fuel, rfl⟩ : ∃ n, fuel = n + 1 :=
      ⟨fuel - 1, by simp only [length_cons] at enough; omega⟩
    have enough : entries.length ≤ fuel := by simpa using enough
    rw [flat_cons, append_assoc, length_append,
      entryLoop_record plain endC t first fuel offset, position]
    split
    · rfl
    · rw [ih later enough, Option.map_map]
      congr 2
      funext i
      simp
      omega

/-! The entries of a vector -/

/-- The vector holds these entries, all with different names. -/
structure Envz.Holds (v : Envz) (entries : List EnvzEntry) : Prop where
  bytes : v.bytes.take v.len = flat entries
  len : v.len = (flat entries).length
  valid : ∀ e ∈ entries, e.Valid
  nodup : (entries.map EnvzEntry.name).Nodup

variable {v : Envz}

theorem Envz.Holds.bytes_eq (holds : v.Holds entries)
    : ∃ rest, v.bytes = flat entries ++ rest := by
  refine ⟨v.bytes.drop v.len, ?_⟩
  rw [← holds.bytes, take_append_drop]

theorem flat_append (left right : List EnvzEntry)
    : flat (left ++ right) = flat left ++ flat right :=
  flatMap_append

theorem length_le_length_flat (entries : List EnvzEntry)
    : entries.length ≤ (flat entries).length := by
  induction entries with
  | nil => exact le_rfl
  | cons e entries ih =>
    rw [flat_cons, length_append, length_cons, e.length_record]
    omega

theorem envzEntry_holds (holds : v.Holds entries) (plain : PlainName name) {c : UInt8}
    (endC : EndsName c) (t : List UInt8)
    : envzEntry v (name ++ c :: t) = some (position name entries) := by
  unfold envzEntry
  have enough : entries.length ≤ v.len := by
    rw [holds.len]
    exact length_le_length_flat entries
  obtain ⟨rest, bytes⟩ := holds.bytes_eq
  have found := entryLoop_flat plain endC t holds.valid enough 0 rest
  rw [← bytes, ← holds.len] at found
  rw [found]
  simp

theorem position_some {i : Nat} (found : position name entries = some i)
    : ∃ pre e post, entries = pre ++ e :: post ∧ e.name = name ∧ i = (flat pre).length := by
  induction entries generalizing i with
  | nil => exact absurd found (by simp [position])
  | cons e entries ih =>
    unfold position at found
    split at found
    case isTrue same => exact ⟨[], e, entries, rfl, same, (Option.some.inj found).symm⟩
    case isFalse =>
      obtain ⟨j, later, rfl⟩ := Option.map_eq_some_iff.mp found
      obtain ⟨pre, e', post, rfl, same, rfl⟩ := ih later
      refine ⟨e :: pre, e', post, rfl, same, ?_⟩
      rw [flat_cons, length_append]
      omega

theorem position_none (absent : position name entries = none)
    : ∀ e ∈ entries, e.name ≠ name := by
  induction entries with
  | nil => exact fun e inNil => absurd inNil not_mem_nil
  | cons e entries ih =>
    unfold position at absent
    split at absent
    case isTrue => exact absurd absent (by simp)
    case isFalse differs =>
      exact forall_mem_cons.mpr ⟨differs, ih (Option.map_eq_none_iff.mp absent)⟩

def without (name : List UInt8) (entries : List EnvzEntry) : List EnvzEntry :=
  entries.filter (·.name ≠ name)

theorem without_of_absent (absent : ∀ e ∈ entries, e.name ≠ name)
    : without name entries = entries :=
  filter_eq_self.mpr fun e inEntries => decide_eq_true (absent e inEntries)

theorem without_eq {pre post : List EnvzEntry}
    (nodup : ((pre ++ e :: post).map EnvzEntry.name).Nodup)
    : without e.name (pre ++ e :: post) = pre ++ post := by
  have others : ∀ e' ∈ pre ++ post, e'.name ≠ e.name := by
    rw [map_append] at nodup
    have perm := (nodup_middle.mp nodup)
    rw [← map_append] at perm
    intro e' inOthers same
    exact (nodup_cons.mp perm).1 (same ▸ mem_map_of_mem inOthers)
  have kept := without_of_absent others
  unfold without at kept ⊢
  rw [filter_append] at kept ⊢
  rw [filter_cons_of_neg (by simp)]
  exact kept

theorem holds_of_bytes {block : List UInt8} {len : Nat} (valid : ∀ e ∈ entries, e.Valid)
    (nodup : (entries.map EnvzEntry.name).Nodup) (length : len = (flat entries).length)
    (rest : List UInt8) (bytes : block = flat entries ++ rest)
    : Envz.Holds { block := some block, len } entries where
  bytes := by
    rw [length]
    show block.take _ = _
    rw [bytes, take_left' rfl]
  len := length
  valid := valid
  nodup := nodup

/-- `argz_delete` takes one entry out. -/
theorem argzDelete_holds {pre post : List EnvzEntry} (holds : v.Holds (pre ++ e :: post))
    : ∃ after, argzDelete v (flat pre).length = some after ∧ after.Holds (pre ++ post) := by
  obtain ⟨rest, bytes⟩ := holds.bytes_eq
  have len := holds.len
  rw [flat_append, flat_cons, append_assoc, append_assoc] at bytes
  rw [flat_append, flat_cons, length_append, length_append] at len
  have valid : e.Valid := holds.valid e (by simp)
  have validRest : ∀ e' ∈ pre ++ post, e'.Valid := by
    intro e' inRest
    apply holds.valid
    simp only [mem_append, mem_cons] at inRest ⊢
    tauto
  have nodup : ((pre ++ post).map EnvzEntry.name).Nodup := by
    have nodup := holds.nodup
    rw [map_append] at nodup
    rw [map_append]
    exact (nodup_cons.mp (nodup_middle.mp nodup)).2
  have newLen : v.len - e.record.length = (flat (pre ++ post)).length := by
    rw [flat_append, length_append]
    omega
  have moved : memmove v.bytes (flat pre).length ((flat pre).length + e.record.length)
      ((flat (pre ++ post)).length - (flat pre).length)
      = some (flat (pre ++ post) ++ (e.record ++ (flat post ++ rest)).drop (flat post).length) := by
    have count : (flat (pre ++ post)).length - (flat pre).length = (flat post).length := by
      omega
    have total : v.bytes.length = (flat pre).length + (e.record.length
        + ((flat post).length + rest.length)) := by
      rw [bytes]
      simp
    unfold memmove
    rw [count, if_pos (by omega), bytes, take_left' rfl, ← drop_drop,
      drop_left' rfl, drop_left' rfl, take_left' rfl, ← drop_drop,
      drop_left' rfl, flat_append]
  have length := valid.strlen_record (flat post ++ rest)
  have dropped : v.bytes.drop (flat pre).length = e.record ++ (flat post ++ rest) := by
    rw [bytes, drop_left' rfl]
  unfold argzDelete
  rw [dropped, length]
  dsimp only [Option.bind_eq_bind, Option.bind_some]
  rw [← e.length_record, newLen, moved]
  split
  case isTrue empty =>
    refine ⟨_, rfl, ?_⟩
    exact ⟨by simp [Envz.bytes, eq_nil_of_length_eq_zero empty], rfl, validRest, nodup⟩
  case isFalse => exact ⟨_, rfl, holds_of_bytes validRest nodup rfl _ rfl⟩

theorem envzRemove_holds (holds : v.Holds entries) (plain : PlainName name) {c : UInt8}
    (endC : EndsName c) (t : List UInt8)
    : ∃ after, envzRemove v (name ++ c :: t) = some after ∧ after.Holds (without name entries) := by
  unfold envzRemove
  rw [envzEntry_holds holds plain endC t]
  cases found : position name entries with
  | none =>
    refine ⟨v, rfl, ?_⟩
    rw [without_of_absent (position_none found)]
    exact holds
  | some i =>
    obtain ⟨pre, e, post, rfl, rfl, rfl⟩ := position_some found
    rw [without_eq holds.nodup]
    exact argzDelete_holds holds

/-- `argz_append` of a new entry. -/
theorem argzAppend_holds (holds : v.Holds entries) (valid : e.Valid)
    (absent : ∀ e' ∈ entries, e'.name ≠ e.name) (realloc : Realloc)
    : realloc = none ∧ argzAppend v e.record realloc = (enomem, v) ∨ realloc.isSome
        ∧ ∃ after, argzAppend v e.record realloc = (0, after) ∧ after.Holds (entries ++ [e]) := by
  cases realloc with
  | none => exact .inl ⟨rfl, rfl⟩
  | some fresh =>
    refine .inr ⟨rfl, _, rfl, ?_⟩
    have single : flat (entries ++ [e]) = flat entries ++ e.record := by
      simp [flat]
    have kept : ((List.range (v.len + e.record.length)).map
        fun i => (v.bytes[i]?).getD (fresh i)).take v.len = flat entries := by
      obtain ⟨rest, bytes⟩ := holds.bytes_eq
      have len := holds.len
      apply ext_getElem
      · simp [len]
      · intro i low high
        have cell : v.bytes[i]? = some (flat entries)[i] := by
          rw [bytes, getElem?_append_left high, getElem?_eq_getElem high]
        simp [cell]
    apply holds_of_bytes _ _ _ []
    · rw [kept, single, append_nil]
    · exact forall_mem_append.mpr
        ⟨holds.valid, forall_mem_singleton.mpr valid⟩
    · rw [map_append, nodup_append]
      refine ⟨holds.nodup, by simp, ?_⟩
      intro n inNames m inSingle
      obtain ⟨e', inEntries, rfl⟩ := mem_map.mp inNames
      obtain rfl : m = e.name := by simpa using inSingle
      exact absent e' inEntries
    · rw [single, length_append, holds.len]

theorem mem_without {e : EnvzEntry} : e ∈ without name entries ↔ e ∈ entries ∧ e.name ≠ name := by
  simp [without]

theorem envzAdd_holds (holds : v.Holds entries) (value : Option (List UInt8))
    (valid : EnvzEntry.Valid { name, value }) (realloc : Realloc)
    : ∃ code after, envzAdd v name value realloc = some (code, after)
      ∧ (realloc = none ∧ code = enomem ∧ after.Holds (without name entries)
        ∨ realloc.isSome ∧ code = 0 ∧ after.Holds (without name entries ++ [⟨name, value⟩])) := by
  obtain ⟨removed, same, holdsRemoved⟩ := envzRemove_holds holds valid.name (.inl rfl) []
  have absent : ∀ e' ∈ without name entries, e'.name ≠ name :=
    fun e' inOthers => (mem_without.mp inOthers).2
  have adds : envzAdd v name value realloc
      = some (argzAppend removed (EnvzEntry.record { name, value }) realloc) := by
    unfold envzAdd
    rw [same]
    cases value with
    | none => rfl
    | some value => simp [EnvzEntry.record, EnvzEntry.text]
  rw [adds]
  rcases argzAppend_holds holdsRemoved valid absent realloc with
    ⟨refused, fails⟩ | ⟨given, after, same, next⟩
  · rw [fails]
    exact ⟨enomem, removed, rfl, .inl ⟨refused, rfl, holdsRemoved⟩⟩
  · rw [same]
    exact ⟨0, after, rfl, .inr ⟨given, rfl, next⟩⟩

/-- What `envz_merge` does with one entry of the other vector. -/
def mergeEntry (override : Bool) (entries : List EnvzEntry) (e : EnvzEntry) : List EnvzEntry :=
  if (∃ e' ∈ entries, e'.name = e.name) ∧ override = false then entries
  else without e.name entries ++ [e]

/-- One round of `envz_merge`; after a failure the other names are still there. -/
theorem mergeRound_holds (holds : v.Holds entries) (valid : e.Valid) (override : Bool)
    (realloc : Realloc) (r : List UInt8)
    : ∃ old code after, envzEntry v (e.record ++ r) = some old
      ∧ mergeOne v override old e.record realloc = some (code, after)
      ∧ (realloc = none ∧ code = enomem
          ∧ (after.Holds entries ∨ after.Holds (without e.name entries))
        ∨ code = 0 ∧ after.Holds (mergeEntry override entries e)) := by
  obtain ⟨d, tail, endD, split⟩ := e.record_eq
  have entry : envzEntry v (e.record ++ r) = some (position e.name entries) := by
    rw [split, append_assoc]
    exact envzEntry_holds holds valid.name endD (tail ++ r)
  refine ⟨position e.name entries, ?_⟩
  cases found : position e.name entries with
  | none =>
    have absent := position_none found
    have merged : mergeEntry override entries e = entries ++ [e] := by
      unfold mergeEntry
      rw [if_neg, without_of_absent absent]
      rintro ⟨⟨e', inEntries, same⟩, _⟩
      exact absent e' inEntries same
    rcases argzAppend_holds holds valid absent realloc with ⟨refused, fails⟩ | ⟨-, after, same, next⟩
    · exact ⟨enomem, v, found ▸ entry, congrArg some fails, .inl ⟨refused, rfl, .inl holds⟩⟩
    · exact ⟨0, after, found ▸ entry, congrArg some same, .inr ⟨rfl, merged ▸ next⟩⟩
  | some i =>
    obtain ⟨pre, e', post, rfl, same, rfl⟩ := position_some found
    have present : ∃ x ∈ pre ++ e' :: post, x.name = e.name := ⟨e', by simp, same⟩
    cases override with
    | false =>
      refine ⟨0, v, found ▸ entry, rfl, .inr ⟨rfl, ?_⟩⟩
      rw [mergeEntry, if_pos ⟨present, rfl⟩]
      exact holds
    | true =>
      obtain ⟨deleted, delete, holdsDeleted⟩ := argzDelete_holds holds
      have others := without_eq holds.nodup
      rw [same] at others
      rw [← others] at holdsDeleted
      have absent : ∀ x ∈ without e.name (pre ++ e' :: post), x.name ≠ e.name :=
        fun x inOthers => (mem_without.mp inOthers).2
      have merged : mergeEntry true (pre ++ e' :: post) e
          = without e.name (pre ++ e' :: post) ++ [e] := by
        rw [mergeEntry, if_neg (by simp)]
      rcases argzAppend_holds holdsDeleted valid absent realloc with
        ⟨refused, fails⟩ | ⟨-, after, same, next⟩
      · exact ⟨enomem, deleted, found ▸ entry, by simp [mergeOne, delete, fails],
          .inl ⟨refused, rfl, .inr holdsDeleted⟩⟩
      · exact ⟨0, after, found ▸ entry, by simp [mergeOne, delete, same],
          .inr ⟨rfl, merged ▸ next⟩⟩

/-! Maps -/

/-- A map from names to values or null; `none` is a name without an entry. -/
abbrev EnvzMap := List UInt8 → Option (Option (List UInt8))

def mapOf (entries : List EnvzEntry) : EnvzMap := fun name =>
  (entries.find? (·.name = name)).map EnvzEntry.value

def EnvzMap.add (m : EnvzMap) (name : List UInt8) (value : Option (List UInt8)) : EnvzMap :=
  fun n => if n = name then some value else m n

def EnvzMap.remove (m : EnvzMap) (name : List UInt8) : EnvzMap :=
  fun n => if n = name then none else m n

/-- The map with the names of another one, whose values come first when `override` is set. -/
def EnvzMap.merge (m m2 : EnvzMap) (override : Bool) : EnvzMap := fun n =>
  match m2 n with
  | none => m n
  | some value => if (m n).isSome ∧ override = false then m n else some value

def EnvzMap.strip (m : EnvzMap) : EnvzMap := fun n => (m n).bind fun value => value.map some

theorem mapOf_cons (e : EnvzEntry) (entries : List EnvzEntry) (n : List UInt8)
    : mapOf (e :: entries) n = if e.name = n then some e.value else mapOf entries n := by
  unfold mapOf
  by_cases same : e.name = n
  · simp [same]
  · simp [same]

theorem mapOf_eq_none {n : List UInt8} : mapOf entries n = none ↔ ∀ e ∈ entries, e.name ≠ n := by
  simp [mapOf]

theorem mapOf_without (name : List UInt8) (entries : List EnvzEntry)
    : mapOf (without name entries) = (mapOf entries).remove name := by
  funext n
  unfold EnvzMap.remove
  induction entries with
  | nil => simp [without, mapOf]
  | cons e entries ih =>
    rw [mapOf_cons]
    unfold without at ih ⊢
    by_cases same : e.name = name
    · grind
    · rw [filter_cons_of_pos (by simp [same]), mapOf_cons]
      grind

theorem mapOf_append (entries : List EnvzEntry) (e : EnvzEntry)
    (absent : ∀ e' ∈ entries, e'.name ≠ e.name)
    : mapOf (entries ++ [e]) = (mapOf entries).add e.name e.value := by
  funext n
  unfold EnvzMap.add
  induction entries with
  | nil =>
    simp [mapOf, eq_comm]
  | cons e' entries ih =>
    obtain ⟨first, later⟩ := forall_mem_cons.mp absent
    rw [cons_append, mapOf_cons, mapOf_cons]
    grind

theorem mapOf_added (name : List UInt8) (value : Option (List UInt8)) (entries : List EnvzEntry)
    : mapOf (without name entries ++ [⟨name, value⟩]) = (mapOf entries).add name value := by
  rw [mapOf_append _ ⟨name, value⟩ (fun e' inOthers => (mem_without.mp inOthers).2), mapOf_without]
  funext n
  unfold EnvzMap.add EnvzMap.remove
  grind

theorem mapOf_mergeEntry (override : Bool) (entries : List EnvzEntry) (e : EnvzEntry)
    (n : List UInt8)
    : mapOf (mergeEntry override entries e) n = if e.name = n then
          if (mapOf entries n).isSome ∧ override = false then mapOf entries n else some e.value
        else mapOf entries n := by
  have added := congrFun (mapOf_added e.name e.value entries) n
  have present : (mapOf entries e.name).isSome ↔ ∃ e' ∈ entries, e'.name = e.name := by
    simp [mapOf]
  unfold EnvzMap.add at added
  unfold mergeEntry
  split
  case isTrue keep =>
    split
    case isTrue same =>
      subst same
      rw [if_pos ⟨present.mpr keep.1, keep.2⟩]
    case isFalse => rfl
  case isFalse goes =>
    rw [added]
    by_cases same : e.name = n
    · subst same
      rw [if_pos rfl, if_pos rfl, if_neg (fun both => goes ⟨present.mp both.1, both.2⟩)]
    · rw [if_neg (fun other => same other.symm), if_neg same]

variable {others : List EnvzEntry}

theorem mapOf_merge (override : Bool) (nodup : (others.map EnvzEntry.name).Nodup)
    (entries : List EnvzEntry)
    : mapOf (others.foldl (mergeEntry override) entries)
      = (mapOf entries).merge (mapOf others) override := by
  induction others generalizing entries with
  | nil => rfl
  | cons e others ih =>
    rw [map_cons, nodup_cons] at nodup
    rw [foldl_cons, ih nodup.2]
    funext n
    unfold EnvzMap.merge
    rw [mapOf_cons, mapOf_mergeEntry]
    by_cases same : e.name = n
    · have absent : mapOf others n = none := by
        rw [mapOf_eq_none]
        intro e' inOthers sameName
        exact nodup.1 (mem_map.mpr ⟨e', inOthers, sameName.trans same.symm⟩)
      rw [absent, if_pos same, if_pos same]
    · rw [if_neg same, if_neg same]

private theorem mapOf_strip (entries : List EnvzEntry) (nodup : (entries.map EnvzEntry.name).Nodup)
    : mapOf (entries.filter (·.value.isSome)) = (mapOf entries).strip := by
  induction entries with
  | nil => rfl
  | cons e entries ih =>
    rw [map_cons, nodup_cons] at nodup
    have later := ih nodup.2
    funext n
    have later := congrFun later n
    unfold EnvzMap.strip at later ⊢
    have absent : e.name = n → mapOf entries n = none := by
      intro same
      rw [mapOf_eq_none]
      intro e' inEntries sameName
      exact nodup.1 (mem_map.mpr ⟨e', inEntries, sameName.trans same.symm⟩)
    rw [mapOf_cons]
    cases value : e.value with
    | none =>
      grind
    | some v =>
      rw [filter_cons_of_pos (by simp [value]), mapOf_cons]
      grind

/-! The loops of merge and strip -/

/-- `envz_merge` merges the entries in their order; when memory is refused the names that the
other vector does not have are as before.
-/
theorem mergeLoop_flat (override : Bool) (realloc : Nat → Realloc) (valid : ∀ e ∈ others, e.Valid)
    {fuel : Nat} (enough : others.length ≤ fuel) (round : Nat) (holds : v.Holds entries) (r : List UInt8)
    : ∃ code after, mergeLoop override realloc fuel round v (flat others ++ r)
        (flat others).length = some (code, after)
      ∧ ((code = enomem ∧ (∃ k, realloc k = none) ∧ ∃ left, after.Holds left
          ∧ ∀ n, mapOf others n = none → mapOf left n = mapOf entries n)
        ∨ (code = 0 ∧ after.Holds (others.foldl (mergeEntry override) entries))) := by
  induction others generalizing fuel round v entries with
  | nil => exact ⟨0, v, by cases fuel <;> rfl, .inr ⟨rfl, holds⟩⟩
  | cons e others ih =>
    obtain ⟨first, later⟩ := forall_mem_cons.mp valid
    obtain ⟨fuel, rfl⟩ : ∃ n, fuel = n + 1 :=
      ⟨fuel - 1, by simp only [length_cons] at enough; omega⟩
    have enough : others.length ≤ fuel := by simpa using enough
    have length : (flat (e :: others)).length = e.record.length + (flat others).length := by
      rw [flat_cons, length_append]
    obtain ⟨old, code, after, entry, round_eq, outcome⟩ :=
      mergeRound_holds holds first override (realloc round) (flat others ++ r)
    obtain ⟨total, total_eq⟩ : ∃ total, (flat (e :: others)).length = total + 1 :=
      ⟨e.text.length + (flat others).length, by rw [length, e.length_record]; omega⟩
    rw [total_eq, mergeLoop, ← total_eq, flat_cons, append_assoc, entry,
      first.strlen_record (flat others ++ r)]
    swap
    · exact Nat.succ_ne_zero total
    dsimp only [Option.bind_eq_bind, Option.bind_some]
    rw [← e.length_record, take_left' rfl, round_eq, drop_left' rfl,
      length_append, Nat.add_sub_cancel_left]
    dsimp only [Option.bind_some]
    rcases outcome with ⟨refused, rfl, left⟩ | ⟨rfl, next⟩
    · refine ⟨enomem, after, rfl, .inl ⟨rfl, ⟨round, refused⟩, ?_⟩⟩
      rcases left with same | removed
      · exact ⟨entries, same, fun _ _ => rfl⟩
      · refine ⟨_, removed, ?_⟩
        intro n absent
        rw [mapOf_without, EnvzMap.remove, if_neg]
        rintro rfl
        exact mapOf_eq_none.mp absent e mem_cons_self rfl
    · obtain ⟨code, after, same, outcome⟩ := ih later enough (round + 1) next
      refine ⟨code, after, same, ?_⟩
      rcases outcome with ⟨failed, refused, left, holdsLeft, frame⟩ | done
      · refine .inl ⟨failed, refused, left, holdsLeft, ?_⟩
        intro n absent
        rw [mapOf_cons] at absent
        split at absent
        case isTrue => exact absurd absent (by simp)
        case isFalse differs =>
          rw [frame n absent, mapOf_mergeEntry, if_neg differs]
      · exact .inr done

theorem envzMerge_holds {v2 : Envz} (holds : v.Holds entries) (holds2 : v2.Holds others) (override : Bool)
    (realloc : Nat → Realloc)
    : ∃ code after, envzMerge v v2 override realloc = some (code, after)
      ∧ ((code = enomem ∧ (∃ k, realloc k = none) ∧ ∃ left, after.Holds left
          ∧ ∀ n, mapOf others n = none → mapOf left n = mapOf entries n)
        ∨ (code = 0 ∧ after.Holds (others.foldl (mergeEntry override) entries))) := by
  obtain ⟨rest, bytes⟩ := holds2.bytes_eq
  have enough : others.length ≤ v2.len := by
    rw [holds2.len]
    exact length_le_length_flat others
  have merged := mergeLoop_flat override realloc holds2.valid enough 0 holds rest
  rwa [← bytes, ← holds2.len] at merged

theorem sep_mem_text_iff (valid : e.Valid) : sep ∈ e.text ↔ e.value.isSome := by
  have name : sep ∉ e.name := fun inName => valid.name sep inName (.inr rfl)
  unfold EnvzEntry.text
  cases e.value with
  | none => simp [name]
  | some v => simp

/-- `envz_strip` moves the entries with a value together. -/
theorem stripLoop_flat (valid : ∀ e ∈ entries, e.Valid) {fuel : Nat}
    (enough : entries.length ≤ fuel) (done r : List UInt8)
    : ∃ r', stripLoop fuel (done ++ (flat entries ++ r)) done.length (flat entries).length
      = some (done ++ flat (entries.filter (·.value.isSome)) ++ r',
          (done ++ flat (entries.filter (·.value.isSome))).length) := by
  induction entries generalizing fuel done r with
  | nil => exact ⟨r, by cases fuel <;> simp [stripLoop, flat]⟩
  | cons e entries ih =>
    obtain ⟨first, later⟩ := forall_mem_cons.mp valid
    obtain ⟨fuel, rfl⟩ : ∃ n, fuel = n + 1 :=
      ⟨fuel - 1, by simp only [length_cons] at enough; omega⟩
    have enough : entries.length ≤ fuel := by simpa using enough
    have length : (flat (e :: entries)).length = e.record.length + (flat entries).length := by
      rw [flat_cons, length_append]
    obtain ⟨total, total_eq⟩ : ∃ total, (flat (e :: entries)).length = total + 1 :=
      ⟨e.text.length + (flat entries).length, by rw [length, e.length_record]; omega⟩
    have text : (e.record ++ (flat entries ++ r)).take (e.record.length - 1) = e.text := by
      rw [e.length_record, Nat.add_sub_cancel, EnvzEntry.record, append_assoc,
        take_left' rfl]
    rw [total_eq, stripLoop, ← total_eq, flat_cons, append_assoc, drop_left' rfl,
      first.strlen_record (flat entries ++ r)]
    swap
    · exact Nat.succ_ne_zero total
    dsimp only [Option.bind_eq_bind, Option.bind_some]
    rw [← e.length_record, text, length_append, Nat.add_sub_cancel_left]
    have sign := sep_mem_text_iff first
    cases value : e.value with
    | none =>
      rw [if_pos (by simp [sign, value]), filter_cons_of_neg (by simp [value])]
      have moved : memmove (done ++ (e.record ++ (flat entries ++ r))) done.length
          (done.length + e.record.length) (flat entries).length
          = some (done ++ (flat entries
            ++ (e.record ++ (flat entries ++ r)).drop (flat entries).length)) := by
        unfold memmove
        rw [if_pos (by simp; omega), take_left' rfl, ← drop_drop,
          drop_left' rfl, drop_left' rfl, take_left' rfl,
          ← drop_drop, drop_left' rfl, append_assoc]
      rw [moved]
      exact ih later enough done _
    | some v =>
      rw [if_neg (by simp [sign, value]), filter_cons_of_pos (by simp [value])]
      obtain ⟨r', same⟩ := ih later enough (done ++ e.record) r
      refine ⟨r', ?_⟩
      have kept : flat (e :: entries.filter (·.value.isSome))
          = e.record ++ flat (entries.filter (·.value.isSome)) := rfl
      rw [kept, ← append_assoc done e.record (flat _ ++ r), ← length_append]
      rw [same]
      simp

/-- Entries without a value are gone, the others keep their order. -/
theorem envzStrip_holds (holds : v.Holds entries)
    : ∃ after, envzStrip v = some after ∧ after.Holds (entries.filter (·.value.isSome)) := by
  obtain ⟨rest, bytes⟩ := holds.bytes_eq
  have enough : entries.length ≤ v.len := by
    rw [holds.len]
    exact length_le_length_flat entries
  have valid : ∀ e ∈ entries.filter (·.value.isSome), e.Valid :=
    fun e inFilter => holds.valid e (mem_of_mem_filter inFilter)
  have nodup : ((entries.filter (·.value.isSome)).map EnvzEntry.name).Nodup :=
    holds.nodup.sublist (filter_sublist.map EnvzEntry.name)
  obtain ⟨r', stripped⟩ := stripLoop_flat holds.valid enough [] rest
  have start : stripLoop v.len v.bytes 0 v.len = some (flat (entries.filter (·.value.isSome)) ++ r',
          (flat (entries.filter (·.value.isSome))).length) := by
    rw [bytes]
    nth_rewrite 2 [holds.len]
    exact stripped
  unfold envzStrip
  rw [start]
  refine ⟨_, rfl, ?_⟩
  cases block : v.block with
  | some _ => exact holds_of_bytes valid nodup rfl r' rfl
  | none =>
    have empty : entries = [] := by
      have noBytes : v.bytes = [] := by simp [Envz.bytes, block]
      have zero : (flat entries).length = 0 := by
        rw [noBytes] at bytes
        simp [(append_eq_nil_iff.mp bytes.symm).1]
      have le := length_le_length_flat entries
      exact eq_nil_of_length_eq_zero (by omega)
    rw [empty]
    exact ⟨rfl, rfl, by simp, by simp⟩

theorem valueLoop_name {n : List UInt8} (plain : PlainName n) (r : List UInt8)
    : valueLoop (n ++ r) = valueLoop r := by
  induction n with
  | nil => rfl
  | cons b n ih =>
    have notEnd := plain b mem_cons_self
    have later : PlainName n := fun x inN => plain x (mem_cons_of_mem b inN)
    rw [cons_append, valueLoop, if_neg (fun zero => notEnd (.inl zero)),
      if_neg (fun sign => notEnd (.inr sign)), ih later]

/-- `envz_get` reads the value of the entry. -/
theorem valueLoop_record (valid : e.Valid) (r : List UInt8)
    : valueLoop (e.record ++ r) = some e.value := by
  rw [EnvzEntry.record]
  unfold EnvzEntry.text
  cases value : e.value with
  | none =>
    rw [append_assoc, valueLoop_name valid.name]
    rfl
  | some v =>
    have noZero := valid.value v value
    rw [append_assoc, append_assoc, valueLoop_name valid.name, cons_append,
      valueLoop, if_neg (by decide), if_pos rfl]
    have length := strlen_text noZero r
    rw [singleton_append, length, Option.map_some, take_left' rfl]

theorem position_eq_none : position name entries = none ↔ mapOf entries name = none := by
  induction entries with
  | nil => simp [position, mapOf]
  | cons e entries ih =>
    rw [mapOf_cons, position]
    split
    · simp
    · rw [Option.map_eq_none_iff, ih]

theorem mapOf_mem (nodup : (entries.map EnvzEntry.name).Nodup) (inEntries : e ∈ entries)
    : mapOf entries e.name = some e.value := by
  induction entries with
  | nil => exact absurd inEntries not_mem_nil
  | cons e' entries ih =>
    rw [map_cons, nodup_cons] at nodup
    rw [mapOf_cons]
    rcases mem_cons.mp inEntries with rfl | later
    · rw [if_pos rfl]
    · rw [if_neg, ih nodup.2 later]
      intro same
      exact nodup.1 (same ▸ mem_map_of_mem later)

/-- What `envz_entry` and `envz_get` return for a name: nothing, or the entry that the map has. -/
def Reads (v : Envz) (n : List UInt8) : Option (Option (List UInt8)) → Prop
  | none => envzEntry v (n ++ [0]) = some none ∧ envzGet v (n ++ [0]) = some none
  | some value => ∃ entry rest, envzEntry v (n ++ [0]) = some (some entry)
      ∧ v.bytes.drop entry = EnvzEntry.record ⟨n, value⟩ ++ rest
      ∧ envzGet v (n ++ [0]) = some value

theorem reads_holds (holds : v.Holds entries) (plain : PlainName name)
    : Reads v name (mapOf entries name) := by
  have entry := envzEntry_holds holds plain (.inl rfl) []
  cases found : position name entries with
  | none =>
    rw [found] at entry
    rw [position_eq_none.mp found]
    refine ⟨entry, ?_⟩
    rw [envzGet, entry]
    rfl
  | some i =>
    rw [found] at entry
    obtain ⟨pre, e, post, rfl, rfl, rfl⟩ := position_some found
    obtain ⟨rest, bytes⟩ := holds.bytes_eq
    have dropped : v.bytes.drop (flat pre).length = e.record ++ (flat post ++ rest) := by
      rw [bytes, flat_append, flat_cons, append_assoc, append_assoc, drop_left' rfl]
    have member : e ∈ pre ++ e :: post := by simp
    rw [mapOf_mem holds.nodup member]
    refine ⟨(flat pre).length, flat post ++ rest, entry, dropped, ?_⟩
    rw [envzGet, entry]
    dsimp only [Option.bind_eq_bind, Option.bind_some]
    rw [dropped]
    exact valueLoop_record (holds.valid e member) _

private theorem reads_unique {x y : Option (Option (List UInt8))} (readsX : Reads v name x)
    (readsY : Reads v name y) : x = y := by
  cases x with
  | none =>
    cases y with
    | none => rfl
    | some value =>
      obtain ⟨entry, rest, found, _⟩ := readsY
      rw [readsX.1] at found
      exact absurd found (by simp)
  | some value =>
    obtain ⟨entry, rest, found, _, get⟩ := readsX
    cases y with
    | none =>
      rw [readsY.1] at found
      exact absurd found (by simp)
    | some value' =>
      obtain ⟨_, _, _, _, get'⟩ := readsY
      rw [get'] at get
      rw [Option.some.inj get]

/-! Sequences of operations -/

/-- `envz_entry` and `envz_get` agree with the map on all names. -/
def Agrees (v : Envz) (m : EnvzMap) : Prop := ∀ n, PlainName n → Reads v n (m n)

/-- The vectors that a sequence of operations makes of the empty vector, with the map that the
same operations make of the empty map. A merge for which memory is refused may stop behind any entry.
-/
inductive Built : Envz → EnvzMap → Prop where
  | empty : Built { block := none, len := 0 } fun _ => none
  | add {v after : Envz} {m : EnvzMap} {name : List UInt8} {value : Option (List UInt8)}
      {fresh : Nat → UInt8} {code : Nat} (built : Built v m) (valid : EnvzEntry.Valid { name, value })
      (done : envzAdd v name value (some fresh) = some (code, after)) : Built after (m.add name value)
  | addFails {v after : Envz} {m : EnvzMap} {name : List UInt8} {value : Option (List UInt8)}
      {code : Nat} (built : Built v m) (valid : EnvzEntry.Valid { name, value })
      (done : envzAdd v name value none = some (code, after)) : Built after (m.remove name)
  | remove {v after : Envz} {m : EnvzMap} {name : List UInt8} (built : Built v m)
      (plain : PlainName name) (done : envzRemove v (name ++ [0]) = some after)
      : Built after (m.remove name)
  | merge {v v2 after : Envz} {m m2 : EnvzMap} {override : Bool} {realloc : Nat → Realloc}
      {code : Nat} (built : Built v m) (built2 : Built v2 m2) (given : ∀ k, (realloc k).isSome)
      (done : envzMerge v v2 override realloc = some (code, after))
      : Built after (m.merge m2 override)
  | mergeRefused {v v2 after : Envz} {m m2 m' : EnvzMap} {override : Bool}
      {realloc : Nat → Realloc} {code : Nat} (built : Built v m) (built2 : Built v2 m2)
      (done : envzMerge v v2 override realloc = some (code, after)) (reads : Agrees after m')
      : Built after m'
  | strip {v after : Envz} {m : EnvzMap} (built : Built v m)
      (done : envzStrip v = some after) : Built after m.strip

def SameMap (entries : List EnvzEntry) (m : EnvzMap) : Prop :=
  ∀ n, PlainName n → mapOf entries n = m n

/-- By induction on the calls. -/
theorem Built.holds {m : EnvzMap} (built : Built v m)
    : ∃ entries, v.Holds entries ∧ SameMap entries m := by
  induction built with
  | empty => exact ⟨[], ⟨rfl, rfl, by simp, by simp⟩, fun _ _ => rfl⟩
  | @add v after m name value fresh code _ valid done ih =>
    obtain ⟨entries, holds, same⟩ := ih
    obtain ⟨code, after', step, outcome⟩ := envzAdd_holds holds value valid (some fresh)
    rw [done] at step
    obtain ⟨rfl, rfl⟩ := Prod.mk.inj (Option.some.inj step)
    rcases outcome with ⟨refused, _⟩ | ⟨_, _, next⟩
    · cases refused
    · refine ⟨_, next, ?_⟩
      intro n plain
      rw [mapOf_added, EnvzMap.add, EnvzMap.add, same n plain]
  | @addFails v after m name value code _ valid done ih =>
    obtain ⟨entries, holds, same⟩ := ih
    obtain ⟨code, after', step, outcome⟩ := envzAdd_holds holds value valid none
    rw [done] at step
    obtain ⟨rfl, rfl⟩ := Prod.mk.inj (Option.some.inj step)
    rcases outcome with ⟨_, _, next⟩ | ⟨given, _⟩
    · refine ⟨_, next, ?_⟩
      intro n plain
      rw [mapOf_without, EnvzMap.remove, EnvzMap.remove, same n plain]
    · cases given
  | remove _ plain done ih =>
    obtain ⟨entries, holds, same⟩ := ih
    obtain ⟨after', step, next⟩ := envzRemove_holds holds plain (.inl rfl) []
    rw [done] at step
    obtain rfl := Option.some.inj step
    refine ⟨_, next, ?_⟩
    intro n plain
    rw [mapOf_without, EnvzMap.remove, EnvzMap.remove, same n plain]
  | @merge v v2 after m m2 override realloc code _ _ given done ih ih2 =>
    obtain ⟨entries, holds, same⟩ := ih
    obtain ⟨others, holds2, same2⟩ := ih2
    obtain ⟨code, after', step, outcome⟩ := envzMerge_holds holds holds2 override realloc
    rw [done] at step
    obtain ⟨rfl, rfl⟩ := Prod.mk.inj (Option.some.inj step)
    rcases outcome with ⟨_, ⟨k, refused⟩, _⟩ | ⟨_, next⟩
    · exact absurd refused (Option.isSome_iff_ne_none.mp (given k))
    · refine ⟨_, next, ?_⟩
      intro n plain
      rw [mapOf_merge override holds2.nodup, EnvzMap.merge, EnvzMap.merge, same n plain,
        same2 n plain]
  | @mergeRefused v v2 after m m2 m' override realloc code _ _ done reads ih ih2 =>
    obtain ⟨entries, holds, same⟩ := ih
    obtain ⟨others, holds2, same2⟩ := ih2
    obtain ⟨code, after', step, outcome⟩ := envzMerge_holds holds holds2 override realloc
    rw [done] at step
    obtain ⟨rfl, rfl⟩ := Prod.mk.inj (Option.some.inj step)
    obtain ⟨left, next⟩ : ∃ left, after.Holds left :=
      outcome.elim (fun failed => failed.2.2.imp fun _ left => left.1) fun done => ⟨_, done.2⟩
    refine ⟨left, next, ?_⟩
    intro n plain
    exact reads_unique (reads_holds next plain) (reads n plain)
  | strip _ done ih =>
    obtain ⟨entries, holds, same⟩ := ih
    obtain ⟨after', step, next⟩ := envzStrip_holds holds
    rw [done] at step
    obtain rfl := Option.some.inj step
    refine ⟨_, next, ?_⟩
    intro n plain
    rw [mapOf_strip entries holds.nodup, EnvzMap.strip, EnvzMap.strip, same n plain]

/-- A vector of entries, each with a null terminator and no two with one name, that are together
`envz_len` bytes.
-/
def WellFormed (v : Envz) : Prop := ∃ entries, v.Holds entries

/-- Every vector that a sequence of operations makes has one entry for each name of the map and
reads as the map. Each further operation works on its bytes only, fails with `ENOMEM` only where memory
is refused, ends with a well-formed vector and leaves the names it is not about.
-/
theorem envz_agrees {m : EnvzMap} (built : Built v m)
    : WellFormed v ∧ Agrees v m ∧ (∀ name value realloc, EnvzEntry.Valid { name, value }
        → ∃ code after, envzAdd v name value realloc = some (code, after)
          ∧ code = (if realloc.isSome then 0 else enomem) ∧ WellFormed after
          ∧ ∀ n, PlainName n → n ≠ name → Reads after n (m n))
      ∧ (∀ name, PlainName name → ∃ after, envzRemove v (name ++ [0]) = some after
          ∧ WellFormed after ∧ ∀ n, PlainName n → n ≠ name → Reads after n (m n))
      ∧ (∀ v2 m2 override realloc, Built v2 m2
        → ∃ code after, envzMerge v v2 override realloc = some (code, after)
          ∧ (code = 0 ∧ Agrees after (m.merge m2 override) ∨ code = enomem ∧ ∃ k, realloc k = none)
          ∧ WellFormed after ∧ ∀ n, PlainName n → m2 n = none → Reads after n (m n))
      ∧ ∃ after, envzStrip v = some after ∧ WellFormed after := by
  obtain ⟨entries, holds, same⟩ := built.holds
  refine ⟨⟨entries, holds⟩, ?_, ?_, ?_, ?_, ?_⟩
  · intro n plain
    rw [← same n plain]
    exact reads_holds holds plain
  · intro name value realloc valid
    obtain ⟨code, after, step, outcome⟩ := envzAdd_holds holds value valid realloc
    refine ⟨code, after, step, ?_⟩
    rcases outcome with ⟨rfl, failed, next⟩ | ⟨given, success, next⟩
    · refine ⟨failed, ⟨_, next⟩, ?_⟩
      intro n plain differs
      have read := reads_holds next plain
      rwa [mapOf_without, EnvzMap.remove, if_neg differs, same n plain] at read
    · refine ⟨success.trans (if_pos given).symm, ⟨_, next⟩, ?_⟩
      intro n plain differs
      have read := reads_holds next plain
      rwa [mapOf_added, EnvzMap.add, if_neg differs, same n plain] at read
  · intro name plainName
    obtain ⟨after, step, next⟩ := envzRemove_holds holds plainName (.inl rfl) []
    refine ⟨after, step, ⟨_, next⟩, ?_⟩
    intro n plain differs
    have read := reads_holds next plain
    rwa [mapOf_without, EnvzMap.remove, if_neg differs, same n plain] at read
  · intro v2 m2 override realloc built2
    obtain ⟨others, holds2, same2⟩ := built2.holds
    obtain ⟨code, after, step, outcome⟩ := envzMerge_holds holds holds2 override realloc
    refine ⟨code, after, step, ?_⟩
    rcases outcome with ⟨failed, refused, left, next, frame⟩ | ⟨success, next⟩
    · refine ⟨.inr ⟨failed, refused⟩, ⟨_, next⟩, ?_⟩
      intro n plain absent
      have read := reads_holds next plain
      rwa [frame n ((same2 n plain).trans absent), same n plain] at read
    · have agrees : Agrees after (m.merge m2 override) := by
        intro n plain
        have read := reads_holds next plain
        rwa [mapOf_merge override holds2.nodup, EnvzMap.merge, same2 n plain, same n plain] at read
      refine ⟨.inl ⟨success, agrees⟩, ⟨_, next⟩, ?_⟩
      intro n plain absent
      have read := agrees n plain
      rwa [EnvzMap.merge, absent] at read
  · obtain ⟨after, step, next⟩ := envzStrip_holds holds
    exact ⟨after, step, ⟨_, next⟩⟩

theorem sampleEntry_valid : EnvzEntry.Valid { name := [65], value := some [49] } where
  name := by
    intro c inName
    obtain rfl : c = 65 := by simpa using inName
    rintro (zero | sign)
    · exact absurd zero (by decide)
    · exact absurd sign (by decide)
  value := by
    rintro value same
    obtain rfl := Option.some.inj same
    decide

/-- `A=1` added to the empty vector. -/
theorem envz_agrees_added
    : Agrees { block := some [65, 61, 49, 0], len := 4 }
        (EnvzMap.add (fun _ => none) [65] (some [49])) := by
  have done : envzAdd { block := none, len := 0 } [65] (some [49]) (some fun _ => 0)
      = some (0, { block := some [65, 61, 49, 0], len := 4 }) := by decide
  exact (envz_agrees (.add .empty sampleEntry_valid done)).2.1

end Nglibc.Strings
