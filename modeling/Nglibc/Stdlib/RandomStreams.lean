import Nglibc.Stdlib.Random

/-! Every state array goes on with its own stream of numbers, whatever happens to the others. -/

namespace Nglibc.Stdlib

/-- Quotient, remainder and their combination stay in the range of their types. -/
theorem schrage_bounds (word : BitVec 32)
    : 127773 * schrageHi word + schrageLo word = word.toInt
      ∧ (-16807 ≤ schrageHi word ∧ schrageHi word ≤ 16807)
      ∧ (-127772 ≤ schrageLo word ∧ schrageLo word ≤ 127772)
      ∧ (0 ≤ schrageLo word ∧ 0 ≤ schrageHi word ∨ schrageLo word ≤ 0 ∧ schrageHi word ≤ 0) := by
  have low := BitVec.le_toInt word
  have high := @BitVec.toInt_lt 32 word
  unfold schrageHi schrageLo
  generalize word.toInt = w at low high
  rcases Int.le_total 0 w with positive | negative
  · rw [Int.tdiv_eq_ediv_of_nonneg positive, Int.tmod_eq_emod_of_nonneg positive]
    omega
  · obtain ⟨u, rfl⟩ : ∃ u, w = -u := ⟨-w, by omega⟩
    rw [Int.neg_tdiv, Int.neg_tmod, Int.tdiv_eq_ediv_of_nonneg (by omega),
      Int.tmod_eq_emod_of_nonneg (by omega)]
    omega

theorem toInt_ofInt_of_small {x : Int} (low : -2147483648 ≤ x) (high : x < 2147483648)
    : (BitVec.ofInt 32 x).toInt = x := by
  rw [BitVec.toInt_ofInt]
  apply Int.bmod_eq_of_le <;> omega

/-- The seeding step is a multiplication modulo 2^31 - 1. -/
theorem schrage_eq (word : BitVec 32)
    : schrage word = BitVec.ofInt 32 (16807 * word.toInt % 2147483647) := by
  obtain ⟨whole, hi, lo, sign⟩ := schrage_bounds word
  unfold schrage
  generalize schrageHi word = h at *
  generalize schrageLo word = l at *
  have value := @toInt_ofInt_of_small (16807 * l - 2836 * h) (by omega) (by omega)
  dsimp only
  split
  case isTrue negative =>
    rw [BitVec.slt_iff_toInt_lt, value] at negative
    have below : 16807 * l - 2836 * h < 0 := negative
    rw [show (2147483647 : BitVec 32) = BitVec.ofInt 32 2147483647 from rfl, ← BitVec.ofInt_add]
    congr 1
    omega
  case isFalse positive =>
    rw [BitVec.slt_iff_toInt_lt, value] at positive
    have above : ¬ 16807 * l - 2836 * h < 0 := positive
    congr 1
    omega

/-- A generator by itself: its words and the position of its rear pointer. -/
structure Generator where
  words : Nat → BitVec 32
  rear : Nat

def Generator.next (type : Nat) (g : Generator) : BitVec 32 × Generator :=
  if type = 0 then
    let val := (g.words 0 * 1103515245 + 12345) &&& 0x7fffffff
    (val, { g with words := Function.update g.words 0 val })
  else
    let front := (g.rear + seps type) % degrees type
    let val := g.words front + g.words g.rear
    (val >>> 1, ⟨Function.update g.words front val, (g.rear + 1) % degrees type⟩)

/-- A generator behind its next `n` numbers. -/
def Generator.drop (type n : Nat) (g : Generator) : Generator :=
  (fun g => (Generator.next type g).2)^[n] g

def seedWord (seed : BitVec 32) : Nat → BitVec 32
  | 0 => seed
  | i + 1 => BitVec.ofInt 32 (16807 * (seedWord seed i).toInt % 2147483647)

def Generator.start (type : Nat) (seed : BitVec 32) : Generator :=
  Generator.drop type (degrees type * 10) ⟨seedWord (if seed = 0 then 1 else seed), 0⟩

/-- The last seeding of an array, and how many numbers were drawn from it since. -/
structure Seeding where
  type : Nat
  seed : BitVec 32
  drawn : Nat

def Seeding.generator (s : Seeding) : Generator :=
  Generator.drop s.type s.drawn (Generator.start s.type s.seed)

/-- The number with the index `drawn` of the stream of a seeding. -/
def Seeding.number (s : Seeding) : BitVec 32 := (Generator.next s.type s.generator).1

/-- Arrays with streams of their own, and the current one. -/
structure Streams where
  seeding : Nat → Option Seeding
  current : Option Nat

def Streams.empty : Streams := ⟨fun _ => none, none⟩

def Streams.seed (s : Streams) (array : Nat) (seeding : Seeding) : Streams :=
  ⟨Function.update s.seeding array (some seeding), some array⟩

/-- What a call is to do, where an array with the number `a` has `size a` bytes. None for calls
that may not be made: with more bytes than the array has, without a current array, or for a
change to an array that was never seeded.
-/
def Streams.step (size : Nat → Nat) (s : Streams)
    : RandomCall → Option ((Int × Option (BitVec 32)) × Streams)
  | .initstate seed array n =>
    if n > size array then none
    else
      match chooseType n with
      | none => some ((-1, none), s)
      | some type => some ((0, none), s.seed array ⟨type, seed, 0⟩)
  | .setstate array => do
    let _ ← s.current
    let _ ← s.seeding array
    pure ((0, none), { s with current := some array })
  | .srandom seed => do
    let array ← s.current
    let old ← s.seeding array
    pure ((0, none), s.seed array ⟨old.type, seed, 0⟩)
  | .random => do
    let array ← s.current
    let old ← s.seeding array
    pure ((0, some old.number), s.seed array { old with drawn := old.drawn + 1 })

def Streams.run (size : Nat → Nat) (s : Streams)
    : List RandomCall → Option (List (Int × Option (BitVec 32)) × Streams)
  | [] => some ([], s)
  | call :: calls => do
    let (out, s) ← s.step size call
    let (outs, s) ← s.run size calls
    pure (out :: outs, s)

def wordCount (type : Nat) : Nat := if type = 0 then 1 else degrees type

/-- The words and the rear pointer of a generator are those of a state. -/
structure Generator.StoredIn (type : Nat) (g : Generator) (words : Nat → BitVec 32) : Prop where
  words : ∀ i < wordCount type, words i = g.words i
  rear : type ≠ 0 → g.rear < degrees type

/-- A `random_data` that is set up for an array. -/
structure Random.SetUp (r : Random) (a type : Nat) : Prop where
  small : type < maxTypes
  state : r.buf.state = some a
  randType : r.buf.randType = type
  randDeg : r.buf.randDeg = degrees type
  randSep : r.buf.randSep = seps type
  endPtr : r.buf.endPtr = ⟨a, degrees type⟩

/-- The current array is `a`, with a generator of some type. -/
structure Random.Current (r : Random) (a type : Nat) (g : Generator) : Prop
    extends Random.SetUp r a type where
  stored : g.StoredIn type (r.arrays a).words
  rptr : type ≠ 0 → r.buf.rptr = ⟨a, g.rear⟩
  fptr : type ≠ 0 → r.buf.fptr = ⟨a, (g.rear + seps type) % degrees type⟩

variable {r : Random} {a type : Nat} {g : Generator}

theorem seps_bounds (small : type < maxTypes) (other : type ≠ 0)
    : 0 < seps type ∧ seps type < degrees type := by
  have bound : maxTypes = 5 := rfl
  match type, other with
  | 1, _ => decide
  | 2, _ => decide
  | 3, _ => decide
  | 4, _ => decide
  | n + 5, _ => omega

/-- A position of the ring, from one that is less than a round further. -/
theorem mod_once {x deg : Nat} (below : x < 2 * deg) : x % deg = if x < deg then x else x - deg := by
  split
  case isTrue less => exact Nat.mod_eq_of_lt less
  case isFalse above =>
    rw [Nat.mod_eq_sub_mod (by omega), Nat.mod_eq_of_lt (by omega)]

theorem StoredIn.update {words : Nat → BitVec 32} (stored : g.StoredIn type words)
    {i : Nat} (val : BitVec 32) {rear : Nat} (inside : type ≠ 0 → rear < degrees type)
    : Generator.StoredIn type ⟨Function.update g.words i val, rear⟩
        (Function.update words i val) := by
  refine ⟨fun j less => ?_, inside⟩
  dsimp only
  by_cases same : j = i
  · rw [same, Function.update_self, Function.update_self]
  · rw [Function.update_of_ne same, Function.update_of_ne same, stored.words j less]

/-- Both pointers move to the next word of the ring. -/
theorem advance_ring {rear sep deg : Nat} (inside : rear < deg) (positive : 0 < sep)
    (less : sep < deg)
    : advance a ⟨a, deg⟩ ⟨a, (rear + sep) % deg⟩ ⟨a, rear⟩
      = (⟨a, ((rear + 1) % deg + sep) % deg⟩, ⟨a, (rear + 1) % deg⟩) := by
  have front := @mod_once (rear + sep) deg (by omega)
  have step := @mod_once (rear + 1) deg (by omega)
  have bound : (rear + 1) % deg < deg := Nat.mod_lt _ (by omega)
  have both := @mod_once ((rear + 1) % deg + sep) deg (by omega)
  unfold advance WordPtr.next
  dsimp only
  split
  case isTrue wraps =>
    refine Prod.ext ?_ ?_ <;> simp only [WordPtr.mk.injEq, true_and]
    · split at front <;> split at step <;> split at both <;> omega
    · split at front <;> split at step <;> omega
  case isFalse stays =>
    split
    case isTrue wraps =>
      refine Prod.ext ?_ ?_ <;> simp only [WordPtr.mk.injEq, true_and]
      · split at front <;> split at step <;> split at both <;> omega
      · split at step <;> omega
    case isFalse staysToo =>
      refine Prod.ext ?_ ?_ <;> simp only [WordPtr.mk.injEq, true_and]
      · split at front <;> split at step <;> split at both <;> omega
      · split at step <;> omega

@[simp] theorem setWord_buf (r : Random) (p : WordPtr) (val : BitVec 32)
    : (r.setWord p val).buf = r.buf := rfl

theorem setWord_self (r : Random) (a i : Nat) (val : BitVec 32)
    : ((r.setWord ⟨a, i⟩ val).arrays a).words = Function.update (r.arrays a).words i val := by
  simp [Random.setWord]

theorem setWord_of_ne (r : Random) {b : Nat} (p : WordPtr) (val : BitVec 32) (other : b ≠ p.array)
    : (r.setWord p val).arrays b = r.arrays b := by
  simp [Random.setWord, Function.update_of_ne other]

/-- A number drawn from the current array is the next one of its generator. -/
theorem Random.Current.next (current : r.Current a type g)
    : ∃ r', randomR r = some ((g.next type).1, r') ∧ r'.Current a type (g.next type).2
      ∧ ∀ b, b ≠ a → r'.arrays b = r.arrays b := by
  have stored := current.stored
  unfold randomR
  simp only [current.state, current.randType]
  by_cases zero : type = 0
  · subst zero
    have word : r.word ⟨a, 0⟩ = g.words 0 := stored.words 0 (by decide)
    simp only [if_true, word]
    refine ⟨_, rfl, ?_, fun b other => setWord_of_ne _ _ _ other⟩
    refine ⟨{ current.toSetUp with }, ?_, fun h => absurd rfl h, fun h => absurd rfl h⟩
    rw [setWord_self]
    exact StoredIn.update stored _ (fun h => absurd rfl h)
  · obtain ⟨positive, less⟩ := seps_bounds current.small zero
    have inside := stored.rear zero
    have front : (g.rear + seps type) % degrees type < degrees type := Nat.mod_lt _ (by omega)
    have count : wordCount type = degrees type := if_neg zero
    have rearWord : r.word ⟨a, g.rear⟩ = g.words g.rear := stored.words _ (by rw [count]; exact inside)
    have frontWord : r.word ⟨a, (g.rear + seps type) % degrees type⟩
        = g.words ((g.rear + seps type) % degrees type) := stored.words _ (by rw [count]; exact front)
    simp only [if_neg zero, current.fptr zero, current.rptr zero, frontWord, rearWord, setWord_buf,
      current.endPtr, advance_ring inside positive less, Generator.next]
    refine ⟨_, rfl, ?_, fun b other => setWord_of_ne _ _ _ other⟩
    refine ⟨{ current.toSetUp with endPtr := rfl }, ?_, fun _ => rfl, fun _ => rfl⟩
    rw [setWord_self]
    exact StoredIn.update stored _ (fun _ => Nat.mod_lt _ (by omega))

theorem Generator.drop_succ' (type n : Nat) (g : Generator)
    : Generator.drop type (n + 1) g = ((Generator.drop type n g).next type).2 :=
  Function.iterate_succ_apply' _ n g

/-- By induction on the numbers that are thrown away. -/
theorem Random.Current.discard (n : Nat) (current : r.Current a type g)
    : ∃ r', discardLoop n r = some r' ∧ r'.Current a type (g.drop type n)
      ∧ ∀ b, b ≠ a → r'.arrays b = r.arrays b := by
  induction n generalizing r g with
  | zero => exact ⟨r, rfl, current, fun _ _ => rfl⟩
  | succ n ih =>
    obtain ⟨r₁, drawn, current₁, frame₁⟩ := current.next
    obtain ⟨r₂, discarded, current₂, frame₂⟩ := ih current₁
    refine ⟨r₂, ?_, current₂, fun b other => (frame₂ b other).trans (frame₁ b other)⟩
    rw [discardLoop, drawn]
    exact discarded

private theorem seedLoop_words (n : Nat) {seed : BitVec 32} {d : Nat} (a : Nat) (r : Random)
    (before : ∀ i ≤ d, (r.arrays a).words i = seedWord seed i)
    : (seedLoop n ⟨a, d⟩ (seedWord seed d) r).buf = r.buf
      ∧ (∀ i ≤ d + n, ((seedLoop n ⟨a, d⟩ (seedWord seed d) r).arrays a).words i = seedWord seed i)
      ∧ ∀ b, b ≠ a → (seedLoop n ⟨a, d⟩ (seedWord seed d) r).arrays b = r.arrays b := by
  induction n generalizing d r with
  | zero => exact ⟨rfl, before, fun _ _ => rfl⟩
  | succ n ih =>
    have word : schrage (seedWord seed d) = seedWord seed (d + 1) := schrage_eq _
    simp only [seedLoop, word]
    obtain ⟨buf, words, frame⟩ := ih (r.setWord ⟨a, d + 1⟩ (seedWord seed (d + 1))) (d := d + 1) (by
        intro i bound
        rw [setWord_self]
        by_cases same : i = d + 1
        · rw [same, Function.update_self]
        · rw [Function.update_of_ne same, before i (by omega)])
    refine ⟨buf, fun i bound => words i (by omega), fun b other => ?_⟩
    rw [frame b other, setWord_of_ne _ _ _ other]

/-- Seeding starts a new stream. -/
theorem Random.SetUp.srandom (setUp : r.SetUp a type) (seed : BitVec 32)
    : ∃ r', srandomR seed r = some (0, r') ∧ r'.Current a type (Generator.start type seed)
      ∧ ∀ b, b ≠ a → r'.arrays b = r.arrays b := by
  unfold srandomR Generator.start
  generalize (if seed = 0 then 1 else seed) = s
  have first : ∀ i ≤ 0, ((r.setWord ⟨a, 0⟩ s).arrays a).words i = seedWord s i := by
    intro i bound
    rw [Nat.le_zero.mp bound, setWord_self]
    rfl
  rw [if_neg (by rw [setUp.randType]; exact not_le.mpr setUp.small), setUp.state]
  simp only [Option.bind_eq_bind, Option.bind_some, setWord_buf, setUp.randType]
  by_cases zero : type = 0
  · subst zero
    refine ⟨_, rfl, ⟨{ setUp with }, ⟨fun i less => ?_, fun h => absurd rfl h⟩,
      fun h => absurd rfl h, fun h => absurd rfl h⟩, fun b other => setWord_of_ne _ _ _ other⟩
    exact first i (Nat.le_of_lt_succ less)
  · obtain ⟨positive, less⟩ := seps_bounds setUp.small zero
    obtain ⟨buf, words, frame⟩ := seedLoop_words (degrees type - 1) a _ first
    rw [show seedWord s 0 = s from rfl] at buf words frame
    rw [if_neg zero, setUp.randDeg]
    generalize seedLoop (degrees type - 1) ⟨a, 0⟩ s (r.setWord ⟨a, 0⟩ s) = r₁ at buf words frame
    have seeded : Random.Current
        { r₁ with buf := { r₁.buf with fptr := ⟨a, r₁.buf.randSep⟩, rptr := ⟨a, 0⟩ } } a type
        ⟨seedWord s, 0⟩ := by
      refine ⟨⟨setUp.small, ?_, ?_, ?_, ?_, ?_⟩, ⟨?_, fun _ => by dsimp only; omega⟩, fun _ => rfl, ?_⟩
      · exact (congrArg RandomData.state buf).trans setUp.state
      · exact (congrArg RandomData.randType buf).trans setUp.randType
      · exact (congrArg RandomData.randDeg buf).trans setUp.randDeg
      · exact (congrArg RandomData.randSep buf).trans setUp.randSep
      · exact (congrArg RandomData.endPtr buf).trans setUp.endPtr
      · intro i inside
        rw [wordCount, if_neg zero] at inside
        exact words i (by omega)
      · intro _
        rw [buf, setWord_buf, setUp.randSep, Nat.zero_add, Nat.mod_eq_of_lt less]
    obtain ⟨r₂, discarded, current, frame₂⟩ := seeded.discard (degrees type * 10)
    refine ⟨r₂, ?_, current, fun b other => ?_⟩
    · rw [discarded]
      rfl
    · rw [frame₂ b other]
      exact (frame b other).trans (setWord_of_ne _ _ _ other)

/-- The type and the rear pointer can be read back from the word in front of a state. -/
theorem infoWord_read (small : type < maxTypes) (rear : Nat)
    : (infoWord type rear).tmod maxTypes = type
      ∧ (type ≠ 0 → (infoWord type rear).tdiv maxTypes = rear) := by
  have bound : maxTypes = 5 := rfl
  unfold infoWord
  split
  case isTrue zero =>
    subst zero
    exact ⟨rfl, fun h => absurd rfl h⟩
  case isFalse other =>
    have positive : (0 : Int) ≤ maxTypes * rear + type := by rw [bound]; omega
    rw [Int.tmod_eq_emod_of_nonneg positive, Int.tdiv_eq_ediv_of_nonneg positive, bound]
    omega

@[simp] theorem setInfo_words (r : Random) (b : Nat) (info : Int)
    : ((r.setInfo b info).arrays a).words = (r.arrays a).words := by
  by_cases same : a = b
  · simp [Random.setInfo, same]
  · simp [Random.setInfo, Function.update_of_ne same]

theorem setInfo_self (r : Random) (a : Nat) (info : Int)
    : ((r.setInfo a info).arrays a).info = info := by
  simp [Random.setInfo]

theorem setInfo_of_ne (r : Random) {b : Nat} (other : a ≠ b) (info : Int)
    : (r.setInfo b info).arrays a = r.arrays a := by
  simp [Random.setInfo, Function.update_of_ne other]

/-- A generator in an array, with its rear pointer in the word in front of the state. -/
structure StateArray.Parked (array : StateArray) (type : Nat) (g : Generator) : Prop where
  small : type < maxTypes
  stored : g.StoredIn type array.words
  info : array.info = infoWord type g.rear

theorem Random.Current.save (current : r.Current a type g)
    : ((r.saveInfo a).arrays a).Parked type g := by
  refine ⟨current.small, ?_, ?_⟩
  · rw [Random.saveInfo, setInfo_words]
    exact current.stored
  · rw [Random.saveInfo, setInfo_self, current.randType]
    by_cases zero : type = 0
    · rw [zero]
      rfl
    · rw [current.rptr zero]

theorem StateArray.Parked.setstate {st : Nat} (state : r.buf.state = some st)
    (parked : ((r.saveInfo st).arrays a).Parked type g)
    : ∃ r', setstateR a r = some (0, r') ∧ r'.Current a type g
      ∧ r'.arrays = (r.saveInfo st).arrays := by
  obtain ⟨readType, readRear⟩ := infoWord_read parked.small g.rear
  have bound : maxTypes = 5 := rfl
  have small := parked.small
  unfold setstateR
  rw [state, Option.bind_eq_bind, Option.bind_some]
  simp only [parked.info, readType]
  rw [if_neg (by omega)]
  refine ⟨_, rfl, ⟨⟨small, rfl, ?_, ?_, ?_, rfl⟩, parked.stored, ?_, ?_⟩, rfl⟩
  · split <;> rfl
  · split <;> rfl
  · split <;> rfl
  · intro other
    simp only [if_pos other, readRear other, Int.toNat_natCast]
  · intro other
    simp only [if_pos other, readRear other, Int.toNat_natCast]

theorem chooseType_fits {n : Nat} (chosen : chooseType n = some type)
    : type < maxTypes ∧ 4 * (wordCount type + 1) ≤ n := by
  unfold chooseType at chosen
  have sizes : wordCount 0 = 1 ∧ wordCount 1 = 7 ∧ wordCount 2 = 15 ∧ wordCount 3 = 31
      ∧ wordCount 4 = 63 := by decide
  have bound : maxTypes = 5 := rfl
  split at chosen
  · split at chosen <;> (cases chosen; omega)
  · split at chosen
    · split at chosen
      · cases chosen
      · cases chosen
        omega
    · split at chosen <;> (cases chosen; omega)

/-- The arrays hold the streams: the current one with the pointers, the others parked. -/
structure Random.Follows (size : Nat → Nat) (r : Random) (s : Streams) : Prop where
  state : r.buf.state = s.current
  fits : ∀ b seeding, s.seeding b = some seeding →
    seeding.type < maxTypes ∧ 4 * (wordCount seeding.type + 1) ≤ size b
  current : ∀ b, s.current = some b →
    ∃ seeding, s.seeding b = some seeding ∧ r.Current b seeding.type seeding.generator
  parked : ∀ b seeding, s.seeding b = some seeding → s.current ≠ some b →
    (r.arrays b).Parked seeding.type seeding.generator

variable {size : Nat → Nat} {s s' : Streams} {out : Int × Option (BitVec 32)} {call : RandomCall}

theorem Streams.seed_self {seeding : Seeding} : (s.seed a seeding).seeding a = some seeding :=
  Function.update_self ..

variable {seeding : Seeding}

theorem Streams.seed_of_ne {b : Nat} (other : b ≠ a)
    : (s.seed a seeding).seeding b = s.seeding b :=
  Function.update_of_ne other ..

/-- An array becomes current with another seeding, and the others are left alone. -/
theorem Random.Follows.seed {r' : Random}
    (fits : ∀ b seeding, s.seeding b = some seeding →
      seeding.type < maxTypes ∧ 4 * (wordCount seeding.type + 1) ≤ size b)
    (parked : ∀ b, b ≠ a → ∀ seeding, s.seeding b = some seeding →
      (r'.arrays b).Parked seeding.type seeding.generator)
    (room : 4 * (wordCount seeding.type + 1) ≤ size a)
    (current : r'.Current a seeding.type seeding.generator)
    : r'.Follows size (s.seed a seeding) := by
  refine ⟨current.state, ?_, ?_, ?_⟩
  · intro b other found
    by_cases same : b = a
    · subst same
      rw [Streams.seed_self] at found
      cases found
      exact ⟨current.small, room⟩
    · rw [Streams.seed_of_ne same] at found
      exact fits b other found
  · intro b isCurrent
    cases isCurrent
    exact ⟨seeding, Streams.seed_self, current⟩
  · intro b other found elsewhere
    have different : b ≠ a := by
      rintro rfl
      exact elsewhere rfl
    rw [Streams.seed_of_ne different] at found
    exact parked b different other found

theorem Random.Follows.save (follows : r.Follows size s) {st : Nat} (state : r.buf.state = some st)
    {b : Nat} (found : s.seeding b = some seeding)
    : ((r.saveInfo st).arrays b).Parked seeding.type seeding.generator := by
  have isCurrent : s.current = some st := follows.state.symm.trans state
  by_cases same : b = st
  · subst same
    obtain ⟨seeding', found', current⟩ := follows.current b isCurrent
    rw [found] at found'
    cases found'
    exact current.save
  · rw [Random.saveInfo, setInfo_of_ne _ same]
    refine follows.parked b seeding found ?_
    rw [isCurrent]
    exact fun equal => same (Option.some.inj equal).symm

theorem Random.Follows.others (follows : r.Follows size s) (isCurrent : s.current = some a)
    {r' : Random} (frame : ∀ b, b ≠ a → r'.arrays b = r.arrays b)
    : ∀ b, b ≠ a → ∀ seeding, s.seeding b = some seeding →
      (r'.arrays b).Parked seeding.type seeding.generator := by
  intro b different seeding found
  rw [frame b different]
  refine follows.parked b seeding found ?_
  rw [isCurrent]
  exact fun equal => different (Option.some.inj equal).symm

theorem Random.Current.setInfo (current : r.Current a type g) (b : Nat) (info : Int)
    : (r.setInfo b info).Current a type g := by
  refine ⟨{ current.toSetUp with }, ?_, current.rptr, current.fptr⟩
  rw [setInfo_words]
  exact current.stored

theorem Random.Follows.saveCurrent (follows : r.Follows size s)
    : r.saveCurrent.Follows size s ∧ ∀ b seeding, s.seeding b = some seeding →
      (r.saveCurrent.arrays b).Parked seeding.type seeding.generator := by
  unfold Random.saveCurrent
  cases state : r.buf.state with
  | none =>
    have nothing : s.current = none := follows.state.symm.trans state
    refine ⟨follows, fun b seeding found => follows.parked b seeding found ?_⟩
    rw [nothing]
    simp
  | some st =>
    have parked : ∀ b seeding, s.seeding b = some seeding →
        ((r.saveInfo st).arrays b).Parked seeding.type seeding.generator :=
      fun b seeding found => follows.save state found
    refine ⟨⟨follows.state, follows.fits, ?_, fun b seeding found _ => parked b seeding found⟩,
      parked⟩
    intro b isCurrent
    obtain ⟨seeding, found, current⟩ := follows.current b isCurrent
    exact ⟨seeding, found, current.setInfo _ _⟩

/-- Every call does what it is to do. -/
theorem Random.Follows.step (follows : r.Follows size s) (legal : s.step size call = some (out, s'))
    : ∃ r', r.step call = some (out, r') ∧ r'.Follows size s' := by
  cases call with
  | initstate seed array n =>
    obtain ⟨followsSaved, parked⟩ := follows.saveCurrent
    simp only [Streams.step] at legal
    split at legal
    · cases legal
    · rw [Random.step, initstateR]
      cases chosen : chooseType n with
      | none =>
        rw [chosen] at legal
        cases legal
        exact ⟨_, rfl, followsSaved⟩
      | some type =>
        rw [chosen] at legal
        cases legal
        obtain ⟨small, room⟩ := chooseType_fits chosen
        have setUp : (r.saveCurrent.useArray array type).SetUp array type :=
          ⟨small, rfl, rfl, rfl, rfl, rfl⟩
        obtain ⟨r', seeded, current, frame⟩ := setUp.srandom seed
        dsimp only
        rw [seeded]
        refine ⟨_, rfl, ?_⟩
        refine Random.Follows.seed follows.fits ?_ (by dsimp only; omega) (current.setInfo _ _)
        intro b different seeding found
        rw [setInfo_of_ne _ different, frame b different]
        exact parked b seeding found
  | setstate array =>
    simp only [Streams.step, bind, Option.bind_eq_some_iff] at legal
    obtain ⟨st, isCurrent, seeding, found, done⟩ := legal
    cases done
    have state := follows.state.trans isCurrent
    obtain ⟨r', set, current, same⟩ := StateArray.Parked.setstate state (follows.save state found)
    refine ⟨r', by rw [Random.step, set]; rfl, current.state, follows.fits, ?_, ?_⟩
    · intro b isNow
      cases isNow
      exact ⟨seeding, found, current⟩
    · intro b other found' _
      rw [same]
      exact follows.save state found'
  | srandom seed =>
    simp only [Streams.step, bind, Option.bind_eq_some_iff] at legal
    obtain ⟨st, isCurrent, old, found, done⟩ := legal
    cases done
    obtain ⟨seeding, found', current⟩ := follows.current st isCurrent
    rw [found] at found'
    cases found'
    obtain ⟨r', seeded, current', frame⟩ := current.toSetUp.srandom seed
    refine ⟨r', by rw [Random.step, seeded]; rfl, ?_⟩
    exact Random.Follows.seed follows.fits (follows.others isCurrent frame)
      (follows.fits st old found).2 current'
  | random =>
    simp only [Streams.step, bind, Option.bind_eq_some_iff] at legal
    obtain ⟨st, isCurrent, old, found, done⟩ := legal
    cases done
    obtain ⟨seeding, found', current⟩ := follows.current st isCurrent
    rw [found] at found'
    cases found'
    obtain ⟨r', drawn, current', frame⟩ := current.next
    refine ⟨r', by rw [Random.step, drawn]; rfl, ?_⟩
    rw [Seeding.generator, ← Generator.drop_succ'] at current'
    exact Random.Follows.seed follows.fits (follows.others isCurrent frame)
      (follows.fits st old found).2 current'

theorem Random.Follows.run {calls : List RandomCall} {outs : List (Int × Option (BitVec 32))}
    (follows : r.Follows size s) (legal : s.run size calls = some (outs, s'))
    : ∃ r', r.run calls = some (outs, r') ∧ r'.Follows size s' := by
  induction calls generalizing r s outs with
  | nil =>
    cases legal
    exact ⟨r, rfl, follows⟩
  | cons call calls ih =>
    simp only [Streams.run, bind, Option.bind_eq_some_iff] at legal
    obtain ⟨⟨out, s₁⟩, step, ⟨outs₁, s₂⟩, rest, done⟩ := legal
    cases done
    obtain ⟨r₁, stepped, follows₁⟩ := follows.step step
    obtain ⟨r₂, ran, follows₂⟩ := ih follows₁ rest
    refine ⟨r₂, ?_, follows₂⟩
    simp only [Random.run, stepped, ran, bind, Option.bind_some]
    rfl

/-- The pointers of the current state are inside of its array, the front pointer ahead of the rear
pointer by the separation.
-/
def Random.PointersInside (size : Nat → Nat) (r : Random) : Prop :=
  ∀ a, r.buf.state = some a → r.buf.randType ≠ 0 →
    ∃ rear < degrees r.buf.randType, r.buf.rptr = ⟨a, rear⟩
      ∧ r.buf.fptr = ⟨a, (rear + seps r.buf.randType) % degrees r.buf.randType⟩
      ∧ 4 * (degrees r.buf.randType + 1) ≤ size a

theorem Random.Follows.pointersInside (follows : r.Follows size s) : r.PointersInside size := by
  intro a state other
  obtain ⟨seeding, found, current⟩ := follows.current a (follows.state.symm.trans state)
  have type := current.randType
  rw [type] at other ⊢
  have room := (follows.fits a seeding found).2
  rw [wordCount, if_neg other] at room
  exact ⟨seeding.generator.rear, current.stored.rear other, current.rptr other, current.fptr other,
    room⟩

/-- Whatever calls are made on one `random_data`, every number is the next one of the stream of
the current array, the pointers stay inside of it, and seeding multiplies modulo 2^31 - 1 without
leaving the range of `int32_t`.
-/
theorem random_streams (size : Nat → Nat) (r : Random) (unset : r.buf.state = none)
    : (∀ calls outs s, Streams.empty.run size calls = some (outs, s) →
        ∃ r', r.run calls = some (outs, r') ∧ r'.PointersInside size)
      ∧ ∀ word : BitVec 32, (-2147483648 ≤ 16807 * schrageLo word - 2836 * schrageHi word
          ∧ 16807 * schrageLo word - 2836 * schrageHi word < 2147483647)
        ∧ (schrage word).toInt = 16807 * word.toInt % 2147483647 := by
  constructor
  · intro calls outs s legal
    have start : r.Follows size .empty := by
      refine ⟨unset, ?_, ?_, ?_⟩
      · intro b seeding found
        cases found
      · intro b isCurrent
        cases isCurrent
      · intro b seeding found
        cases found
    obtain ⟨r', ran, follows⟩ := start.run legal
    exact ⟨r', ran, follows.pointersInside⟩
  · intro word
    obtain ⟨whole, hi, lo, sign⟩ := schrage_bounds word
    refine ⟨by omega, ?_⟩
    rw [schrage_eq, toInt_ofInt_of_small] <;> omega

/-- Two arrays, and a `random_data` that is all zero. -/
def twoArrays : Random := ⟨fun _ => ⟨0, fun _ => 0⟩, ⟨⟨0, 0⟩, ⟨0, 0⟩, none, 0, 0, 0, ⟨0, 0⟩⟩⟩

set_option maxRecDepth 20000 in
/-- A trinomial stream in 32 bytes, interrupted by a linear congruential one in eight. -/
theorem random_streams_interrupted
    : ∃ r', twoArrays.run [.initstate 1 0 32, .random, .initstate 2 1 8, .random, .setstate 0, .random]
        = some ([(0, none), (0, some 964237963), (0, none), (0, some 59559187), (0, none),
          (0, some 406111040)], r')
      ∧ r'.PointersInside fun b => if b = 0 then 32 else 8 :=
  (random_streams (fun b => if b = 0 then 32 else 8) twoArrays rfl).1 _ _ _ rfl

end Nglibc.Stdlib
