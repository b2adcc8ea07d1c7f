import Nglibc.Stdio.ScanAllocation

/-! What the conversions with the modifier `m` do with their blocks is in order, but for `%mc` of
`__vfwscanf` with a width of one or two.
-/

namespace Nglibc.Stdio

variable {W S α : Type}

/-! Order -/

/-- The trace of a call is in order, and a call that returns has no block left. -/
def ScanResult.InOrder (r : ScanResult) : Prop :=
  ∃ held, Custody.nothing.after r.events = some held ∧ (r.ret.isSome → held = .nothing)

/-- A conversion that is in order: one that fails has no block left, and one that succeeds has just handed
over its block, if it assigns.
-/
def Keeps (conv : ScanConversion α) (r : Converted S) : Prop :=
  ∃ held, Custody.nothing.after r.heap.events = some held ∧ match r.verdict with
      | .running => True
      | .converted =>
        if conv.assigns then held.next (.count : BlockEvent UInt8) = some .nothing else held = .nothing
      | _ => held = .nothing

def EveryStep (convert : ScanConversion α → S → Nat → Converted S)
    (P : ScanConversion α → S → Nat → Prop)
    : List (ScanConversion α) → S → Nat → Prop
  | [], _, _ => True
  | conv :: rest, input, calls =>
    P conv input calls
    ∧ ((convert conv input calls).verdict = .converted →
      EveryStep convert P rest (convert conv input calls).input (convert conv input calls).heap.calls)

theorem scanAll_events (convert : ScanConversion α → S → Nat → Converted S) (conv : ScanConversion α)
    (rest : List (ScanConversion α)) (matched : Nat) (input : S) (calls : Nat)
    : (convert conv input calls).heap.events
      <+: (scanAll convert (conv :: rest) matched input calls).events := by
  rw [scanAll]
  cases (convert conv input calls).verdict with
  | running => exact List.prefix_rfl
  | matchFail => exact List.prefix_rfl
  | inputFail => exact List.prefix_rfl
  | converted =>
    simp only
    split
    · exact List.prefix_append _ _
    · exact List.prefix_append _ _

/-- A call is in order if and only if the condition holds before each conversion that is reached, where it
decides on the order of one conversion. By induction on the conversions.
-/
theorem scanAll_inOrder_iff {convert : ScanConversion α → S → Nat → Converted S}
    {P : ScanConversion α → S → Nat → Prop}
    (keeps : ∀ conv input calls, P conv input calls → Keeps conv (convert conv input calls))
    (breaks : ∀ conv input calls, ¬ P conv input calls →
      Custody.nothing.after (convert conv input calls).heap.events = none)
    (conversions : List (ScanConversion α)) (matched : Nat) (input : S) (calls : Nat)
    : (scanAll convert conversions matched input calls).InOrder
      ↔ EveryStep convert P conversions input calls := by
  induction conversions generalizing matched input calls with
  | nil => exact ⟨fun _ => trivial, fun _ => ⟨.nothing, rfl, fun _ => rfl⟩⟩
  | cons conv rest ih =>
    rw [EveryStep]
    by_cases fits : P conv input calls
    · obtain ⟨held, trace, goes⟩ := keeps conv input calls fits
      rw [scanAll]
      cases verdict : (convert conv input calls).verdict with
      | running => exact ⟨fun _ => ⟨fits, nofun⟩, fun _ => ⟨held, trace, nofun⟩⟩
      | matchFail =>
        simp only [verdict] at goes
        exact ⟨fun _ => ⟨fits, nofun⟩, fun _ => ⟨held, trace, fun _ => goes⟩⟩
      | inputFail =>
        simp only [verdict] at goes
        exact ⟨fun _ => ⟨fits, nofun⟩, fun _ => ⟨held, trace, fun _ => goes⟩⟩
      | converted =>
        simp only [verdict] at goes
        by_cases assigns : conv.assigns
        · rw [if_pos assigns] at goes
          have later (events : List (BlockEvent UInt8))
              : Custody.nothing.after ((convert conv input calls).heap.events ++ .count :: events)
                = Custody.nothing.after events := by
            rw [Custody.after_append_some trace]
            exact (@Custody.after_append _ held [.count] events).trans
              (by rw [Custody.after_singleton, goes, Option.bind_some])
          simp only [if_pos assigns, ScanResult.InOrder, later]
          exact (ih _ _ _).trans ⟨fun all => ⟨fits, fun _ => all⟩, fun both => both.2 trivial⟩
        · rw [if_neg assigns] at goes
          rw [goes] at trace
          simp only [if_neg assigns, ScanResult.InOrder, Custody.after_append_some trace]
          exact (ih _ _ _).trans ⟨fun all => ⟨fits, fun _ => all⟩, fun both => both.2 trivial⟩
    · refine ⟨fun order => ?_, fun both => absurd both.1 fits⟩
      obtain ⟨held, trace, -⟩ := order
      rw [Custody.after_prefix_none (scanAll_events convert conv rest matched input calls)
        (breaks conv input calls fits)] at trace
      cases trace

/-! Blocks -/

def Filling.holding (unit : Nat) (fill : Filling) : Custody :=
  match fill.block with
  | none => .nothing
  | some block => .building block (fill.k * unit)

/-- A block that is filled, if something is assigned, with room for `margin` more elements. -/
structure Roomy (assigns : Bool) (unit margin : Nat) (fill : Filling) : Prop where
  assigned : fill.block.isSome = assigns
  held : Custody.nothing.after fill.heap.events = some (fill.holding unit)
  room : assigns → fill.i + margin ≤ fill.k
  small : assigns → fill.k * unit < 2 ^ 63

def Droppable (fill : Filling) : Prop := Custody.nothing.after fill.drop.events = some .nothing

variable {assigns : Bool} {unit margin n : Nat} {fill : Filling} {full : Nat → Nat → Bool}
  {bytes : List UInt8}

theorem droppable_building {block size : Nat} (pointer : fill.block = some block)
    (held : Custody.nothing.after fill.heap.events = some (.building block size))
    : Droppable fill := by
  rw [Droppable, Filling.drop, pointer]
  exact (Custody.after_snoc held).trans (if_pos rfl)

theorem droppable_null (pointer : fill.block = none)
    (held : Custody.nothing.after fill.heap.events = some .nothing)
    : Droppable fill := by
  rw [Droppable, Filling.drop, pointer]
  exact held

theorem Roomy.droppable (roomy : Roomy assigns unit margin fill) : Droppable fill := by
  have held := roomy.held
  rw [Filling.holding] at held
  match pointer : fill.block with
  | none =>
    rw [pointer] at held
    exact droppable_null pointer held
  | some block =>
    rw [pointer] at held
    exact droppable_building pointer held

/-- A test that asks for a larger block once there is no room for `margin` more elements. -/
def Tests (full : Nat → Nat → Bool) (margin : Nat) : Prop :=
  ∀ i k, i ≤ k → margin ≤ k → k < 2 ^ 63 → (full i k = true ↔ k < i + margin)

/-- The result of a store: the block keeps room, or it can be freed. -/
def PutKeeps (assigns : Bool) (unit margin : Nat) : Bool × Filling → Prop
  | (true, fill) => Roomy assigns unit margin fill
  | (false, fill) => Droppable fill

/-- Elements stored where there is room for them. -/
theorem Roomy.put (roomy : Roomy assigns unit margin fill) (grants : Nat → Bool)
    (size : unit = 1 ∨ unit = 4) (tests : Tests full margin) (fits : n ≤ margin)
    (length : bytes.length = n * unit)
    : PutKeeps assigns unit margin (fill.put grants unit full n bytes) := by
  have held := roomy.held
  have assigned := roomy.assigned
  rw [Filling.holding] at held
  match pointer : fill.block with
  | none =>
    rw [pointer] at held assigned
    simp only [Filling.put, pointer]
    have off : assigns = false := assigned.symm
    rw [off]
    refine ⟨assigned.trans off, ?_, nofun, nofun⟩
    exact held
  | some block =>
    rw [pointer] at held assigned
    have on : assigns = true := assigned.symm
    have room := roomy.room on
    have small := roomy.small on
    have below : fill.k < 2 ^ 63 := by
      rcases size with rfl | rfl <;> omega
    have inside : fill.i * unit + bytes.length ≤ fill.k * unit := by
      rw [length, ← Nat.add_mul]
      exact Nat.mul_le_mul_right unit (by omega)
    have stored : Custody.nothing.after (fill.heap.store (some block) (fill.i * unit) bytes).events
        = some (.building block (fill.k * unit)) :=
      (Custody.after_snoc held).trans (Custody.next_store inside)
    simp only [Filling.put, pointer]
    by_cases more : full (fill.i + n) fill.k = true
    · -- the sizes do not wrap around
      have next : (fill.k + (fill.k + 1)) % 2 ^ 64 = fill.k + (fill.k + 1) :=
        Nat.mod_eq_of_lt (by omega)
      have bytes' : (fill.k + (fill.k + 1)) * unit % 2 ^ 64 = (fill.k + (fill.k + 1)) * unit := by
        apply Nat.mod_eq_of_lt
        rcases size with rfl | rfl <;> omega
      simp only [if_pos more, next, bytes', ScanHeap.realloc]
      by_cases granted : (fill.k + (fill.k + 1)) * unit < 2 ^ 63
          ∧ grants (fill.heap.store (some block) (fill.i * unit) bytes).calls = true
      · simp only [if_pos granted]
        refine ⟨on.symm, ?_, fun _ => ?_, fun _ => granted.1⟩
        · exact (Custody.after_snoc stored).trans (if_pos rfl)
        · simp only
          omega
      · simp only [if_neg granted]
        exact droppable_building rfl stored
    · simp only [if_neg more]
      have left := mt (tests (fill.i + n) fill.k (by omega) (by omega) below).mpr more
      exact ⟨on.symm, stored, fun _ => Nat.le_of_not_lt left, roomy.small⟩

/-- The first allocation. -/
theorem begin_keeps (grants : Nat → Bool) (conv : ScanConversion α) (calls : Nat)
    (room : conv.assigns = true → grants calls = true → margin ≤ conv.start)
    : PutKeeps conv.assigns conv.unit margin (Filling.begin grants conv calls) := by
  have few : conv.start < 2 ^ 32 := by
    rw [ScanConversion.start]
    split
    · exact Nat.mod_lt _ (by decide)
    · decide
  have small : conv.start * conv.unit < 2 ^ 63 := by
    rw [ScanConversion.unit]
    split <;> omega
  have size : conv.start * conv.unit % 2 ^ 64 = conv.start * conv.unit := Nat.mod_eq_of_lt (by omega)
  rw [Filling.begin]
  by_cases assigns : conv.assigns = true
  · rw [if_pos assigns, size, ScanHeap.malloc]
    by_cases granted : conv.start * conv.unit < 2 ^ 63 ∧ grants calls = true
    · simp only [if_pos granted]
      refine ⟨assigns.symm, rfl, fun _ => ?_, fun _ => small⟩
      simp only [Nat.zero_add]
      exact room assigns granted.2
    · simp only [if_neg granted]
      exact droppable_null rfl rfl
  · rw [if_neg assigns]
    exact ⟨(Bool.not_eq_true _ ▸ assigns : conv.assigns = false).symm, rfl, fun on => absurd on assigns,
      fun on => absurd on assigns⟩

/-- The end of a conversion that succeeds. -/
theorem Roomy.finish {conv : ScanConversion α} (roomy : Roomy conv.assigns conv.unit margin fill)
    (some_ : 1 ≤ margin) (input : S)
    : Keeps conv ⟨.converted, input, fill.finish conv⟩ := by
  have held := roomy.held
  have assigned := roomy.assigned
  rw [Filling.holding] at held
  match pointer : fill.block with
  | none =>
    rw [pointer] at held assigned
    have off : ¬ conv.assigns = true := by
      rw [← assigned]
      exact Bool.false_ne_true
    refine ⟨.nothing, ?_, (if_neg off).mpr rfl⟩
    rw [Filling.finish, pointer]
    split
    · exact held
    · exact held
  | some block =>
    rw [pointer] at held assigned
    have on : conv.assigns = true := assigned.symm
    have given : Custody.nothing.after (fill.heap.handOver (some block)).events
        = some (.handedOver block (fill.k * conv.unit)) :=
      (Custody.after_snoc held).trans (if_pos rfl)
    refine ⟨.handedOver block (fill.k * conv.unit), ?_, (if_pos on).mpr rfl⟩
    rw [Filling.finish, pointer]
    split
    · exact given
    · have room := roomy.room on
      have inside : fill.i * conv.unit + (List.replicate conv.unit (0 : UInt8)).length
          ≤ fill.k * conv.unit := by
        rw [List.length_replicate, ← Nat.succ_mul]
        exact Nat.mul_le_mul_right conv.unit (by omega)
      exact (Custody.after_snoc given).trans (if_pos ⟨rfl, inside⟩)

theorem Droppable.keeps (droppable : Droppable fill) (conv : ScanConversion α) (input : S)
    {verdict : Verdict} (fails : verdict = .matchFail ∨ verdict = .inputFail)
    : Keeps conv ⟨verdict, input, fill.drop⟩ := by
  refine ⟨.nothing, droppable, ?_⟩
  rcases fails with rfl | rfl
  · rfl
  · rfl

theorem keeps_inputFail (conv : ScanConversion α) (input : S) (calls : Nat)
    : Keeps conv ⟨.inputFail, input, ⟨calls, []⟩⟩ :=
  ⟨.nothing, rfl, rfl⟩

theorem Roomy.running (roomy : Roomy assigns unit margin fill) (conv : ScanConversion α) (input : S)
    : Keeps conv ⟨.running, input, fill.heap⟩ :=
  ⟨_, roomy.held, trivial⟩

/-! __vfscanf -/

/-- The end of a loop: a failure leaves a block that can be freed, any other end one with room. -/
def LoopKeeps {ρ : Type} (assigns : Bool) (unit margin : Nat) (r : LoopEnd ρ × Filling × S) : Prop :=
  match r.1 with
  | .failed => Droppable r.2.1
  | _ => Roomy assigns unit margin r.2.1

theorem tests_last : Tests (fun i k => decide (i = k)) 1 := by
  intro i k inside some_ small
  rw [decide_eq_true_eq]
  omega

/-- The loops of `__vfscanf`. By induction on the bytes read. -/
theorem narrowLoop_keeps (uflow : Streambuf W → Int × Streambuf W) (grants : Nat → Bool)
    (conv : ScanConversion α) (set : UInt8 → Bool) (fuel : Nat) (st : BitVec 32) (f : Scanbuf W)
    (roomy : Roomy conv.assigns conv.unit 1 fill)
    : LoopKeeps conv.assigns conv.unit 1 (narrowLoop uflow grants conv.long set fuel st fill f) := by
  induction fuel generalizing st fill f with
  | zero => exact roomy
  | succ fuel ih =>
    rw [narrowLoop]
    generalize shgetc uflow f = next
    obtain ⟨c, f⟩ := next
    have go {unit : Nat} (same : conv.unit = unit) (bytes : List UInt8) (st : BitVec 32)
        (length : bytes.length = 1 * unit)
        : LoopKeeps conv.assigns conv.unit 1
            (match fill.put grants unit (fun i k => i = k) 1 bytes with
            | (true, fill) => narrowLoop uflow grants conv.long set fuel st fill f
            | (false, fill) => (.failed, fill, f)) := by
      subst same
      have size : conv.unit = 1 ∨ conv.unit = 4 := by
        rw [ScanConversion.unit]
        split <;> simp
      have stored := roomy.put grants size tests_last (Nat.le_refl 1) length
      generalize fill.put grants conv.unit (fun i k => i = k) 1 bytes = result at stored ⊢
      obtain ⟨ok, fill'⟩ := result
      cases ok with
      | true => exact ih st f stored
      | false => exact stored
    simp only
    split
    · exact roomy
    · split
      next long =>
        split
        · exact roomy.droppable
        · split
          · exact ih _ f roomy
          · exact go (if_pos long) (wcharBytes _) _ rfl
      next short =>
        exact go (if_neg short) [_] _ rfl

private theorem narrowEnd_keeps {conv : ScanConversion UInt8} {r : LoopEnd (BitVec 32) × Filling × Scanbuf W}
    (loop : LoopKeeps conv.assigns conv.unit 1 r)
    : Keeps conv (narrowEnd conv r) := by
  obtain ⟨end_, fill, f⟩ := r
  cases end_ with
  | running => exact Roomy.running loop conv f
  | failed => exact Droppable.keeps loop conv f (.inr rfl)
  | ended st =>
    rw [narrowEnd]
    split
    · exact (Roomy.droppable loop).keeps conv f (.inr rfl)
    · simp only
      split
      · exact (Roomy.droppable loop).keeps conv (shunget f) (.inl rfl)
      · exact Roomy.finish loop (Nat.le_refl 1) (shunget f)

private theorem narrowConversion_keeps (uflow : Streambuf W → Int × Streambuf W) (grants : Nat → Bool)
    (fuel : Nat) (conv : ScanConversion UInt8) (f : Scanbuf W) (calls : Nat)
    : Keeps conv (narrowConversion uflow grants fuel conv f calls) := by
  have room (_ : conv.assigns = true) (_ : grants calls = true) : 1 ≤ conv.start := by
    have small := conv.small
    rw [ScanConversion.start, ScanConversion.charWidth]
    split <;> omega
  have began := @begin_keeps _ _ grants conv calls room
  rw [narrowConversion]
  match narrowFirst uflow fuel conv f with
  | none => exact ⟨.nothing, rfl, trivial⟩
  | some (false, f) => exact keeps_inputFail conv f calls
  | some (true, f) =>
    match scanset conv.kind with
    | none => exact keeps_inputFail conv f calls
    | some set =>
      generalize Filling.begin grants conv calls = result at began
      obtain ⟨granted, fill⟩ := result
      cases granted with
      | false => exact Droppable.keeps began conv f (.inr rfl)
      | true => exact narrowEnd_keeps (narrowLoop_keeps uflow grants conv set fuel 0 f began)

theorem vfscanfBlocks_inOrder (uflow : Streambuf W → Int × Streambuf W) (grants : Nat → Bool)
    (fuel : Nat) (conversions : List (ScanConversion UInt8)) (f : Scanbuf W)
    : (vfscanfBlocks uflow grants fuel conversions f).InOrder := by
  have every (conversions : List (ScanConversion UInt8)) (f : Scanbuf W) (calls : Nat)
      : EveryStep (narrowConversion uflow grants fuel) (fun _ _ _ => True) conversions f calls := by
    induction conversions generalizing f calls with
    | nil => trivial
    | cons conv rest ih => exact ⟨trivial, fun _ => ih _ _⟩
  apply (scanAll_inOrder_iff ?_ ?_ conversions 0 f 0).mpr (every conversions f 0)
  · exact fun conv f calls _ => narrowConversion_keeps uflow grants fuel conv f calls
  · exact fun conv f calls never => absurd trivial never

/-! __vfwscanf -/

/-- The elements that the loop of `__vfwscanf` needs room for: a wide character, or four bytes. -/
def wideMargin (long : Bool) : Nat := if long then 1 else 4

theorem wc2mb_length {c : BitVec 32} (valid : (wc2mb c).1 ≠ ilseqValue)
    : (wc2mb c).2.length = (wc2mb c).1 ∧ (wc2mb c).1 ≤ 4 ∧ 1 ≤ (wc2mb c).1 := by
  unfold wc2mb at valid ⊢
  split
  · split
    · exact ⟨rfl, by simp, by simp⟩
    · split
      · exact ⟨rfl, by simp, by simp⟩
      · split
        · exact ⟨rfl, by simp, by simp⟩
        · simp_all
  · exact ⟨rfl, by simp, by simp⟩

private theorem wideEncode_length {long : Bool} {c : BitVec 32} {l : Nat} {bytes : List UInt8}
    (encodes : wideEncode long c = some (l, bytes))
    : l ≤ wideMargin long ∧ bytes.length = l * if long then 4 else 1 := by
  rw [wideEncode] at encodes
  rw [wideMargin]
  split at encodes
  next wide =>
    cases encodes
    rw [if_pos wide, if_pos wide]
    exact ⟨Nat.le_refl 1, rfl⟩
  next narrow =>
    split at encodes
    next => cases encodes
    next valid =>
      obtain ⟨length, most, -⟩ := wc2mb_length valid
      rw [Option.some.inj encodes] at length most
      rw [if_neg narrow, if_neg narrow, Nat.mul_one]
      exact ⟨most, length⟩

theorem tests_wide (long : Bool) : Tests (wideFull long) (wideMargin long) := by
  intro i k inside some_ small
  rw [wideMargin] at some_ ⊢
  rw [wideFull]
  cases long with
  | true =>
    simp only [if_true, decide_eq_true_eq] at some_ ⊢
    omega
  | false =>
    simp only [Bool.false_eq_true, if_false, decide_eq_true_eq] at some_ ⊢
    omega

/-- The loop of `__vfwscanf`. By induction on the characters read. -/
theorem wideLoop_keeps (input : WideInput W) (grants : Nat → Bool) (conv : ScanConversion α)
    (keep : BitVec 32 → Bool) (fuel : Nat) (width : Option Nat) (got : Bool) (s : Streambuf W)
    (roomy : Roomy conv.assigns conv.unit (wideMargin conv.long) fill)
    : LoopKeeps conv.assigns conv.unit (wideMargin conv.long)
        (wideLoop input grants conv.long keep fuel width got fill s) := by
  induction fuel generalizing width got fill s with
  | zero => exact roomy
  | succ fuel ih =>
    rw [wideLoop]
    split
    · exact roomy
    · generalize input.getwc s = next
      obtain ⟨c, s⟩ := next
      simp only
      split
      · exact roomy
      · split
        next => exact roomy.droppable
        next l bytes encodes =>
          obtain ⟨most, length⟩ := wideEncode_length encodes
          have size : conv.unit = 1 ∨ conv.unit = 4 := by
            rw [ScanConversion.unit]
            split <;> simp
          have stored := roomy.put grants size (tests_wide conv.long) most length
          rw [ScanConversion.unit] at stored
          generalize fill.put grants (if conv.long then 4 else 1) (wideFull conv.long) l bytes
            = result at stored ⊢
          obtain ⟨ok, fill'⟩ := result
          cases ok with
          | true => exact ih _ true s stored
          | false => exact stored

theorem wideMargin_some (long : Bool) : 1 ≤ wideMargin long := by
  rw [wideMargin]
  split
  · exact Nat.le_refl 1
  · decide

variable {conv : ScanConversion (BitVec 32)}

theorem wideEnd_keeps (input : WideInput W)
    {r : LoopEnd (Option (BitVec 32 × Bool)) × Filling × Streambuf W}
    (loop : LoopKeeps conv.assigns conv.unit (wideMargin conv.long) r)
    : Keeps conv (wideEnd input conv r) := by
  obtain ⟨end_, fill, s⟩ := r
  match end_ with
  | .running => exact Roomy.running loop conv s
  | .failed => exact Droppable.keeps loop conv s (.inr rfl)
  | .ended none => exact Roomy.finish loop (wideMargin_some conv.long) s
  | .ended (some (c, got)) =>
    rw [wideEnd]
    split
    · exact (Roomy.droppable loop).keeps conv (input.unget c s) (.inl rfl)
    · exact Roomy.finish loop (wideMargin_some conv.long) (input.unget c s)

private theorem wideConversion_keeps (input : WideInput W) (grants : Nat → Bool) (fuel : Nat)
    (conv : ScanConversion (BitVec 32)) (s : Streambuf W) (calls : Nat)
    (room : conv.assigns = true → grants calls = true → wideMargin conv.long ≤ conv.start)
    : Keeps conv (wideConversion input grants fuel conv s calls) := by
  have began := @begin_keeps _ _ grants conv calls room
  rw [wideConversion]
  match wideFirst input fuel conv s with
  | none => exact ⟨.nothing, rfl, trivial⟩
  | some (c, s) =>
    simp only
    split
    · exact keeps_inputFail conv s calls
    · match wideSet conv.kind with
      | none => exact keeps_inputFail conv (input.unget c s) calls
      | some (invert, set) =>
        generalize Filling.begin grants conv calls = result at began
        obtain ⟨granted, fill⟩ := result
        cases granted with
        | false => exact Droppable.keeps began conv (input.unget c s) (.inr rfl)
        | true =>
          exact wideEnd_keeps input (wideLoop_keeps input grants conv _ fuel conv.limit false _ began)

/-! Blocks of two or three bytes -/

/-- The bytes to which the next `n` characters encode, up to the end or to one that has none. -/
def charBytes (input : WideInput W) : Nat → Streambuf W → Nat
  | 0, _ => 0
  | n + 1, s =>
    let (c, s) := input.getwc s
    if c.toInt < 0 ∨ (wc2mb c).1 = ilseqValue then 0 else (wc2mb c).1 + charBytes input n s

/-- The characters that `%mc` of a width of one or two reads encode to one byte more than the width, at
most.
-/
def CharFits (input : WideInput W) (grants : Nat → Bool) (conv : ScanConversion (BitVec 32))
    (s : Streambuf W) (calls : Nat)
    : Prop :=
  conv.kind.isChar = true → conv.long = false → conv.assigns = true → conv.width ≤ 2 →
    grants calls = true → 0 ≤ (input.getwc s).1.toInt →
    charBytes input conv.charWidth (input.unget (input.getwc s).1 (input.getwc s).2)
      ≤ conv.charWidth + 1

theorem touch_extends (h : ScanHeap) (block : Option Nat) (event : Nat → BlockEvent UInt8)
    : h.events <+: (h.touch block event).events := by
  match block with
  | none => exact List.prefix_rfl
  | some block => exact List.prefix_append _ _

private theorem put_extends (grants : Nat → Bool) (unit : Nat) (full : Nat → Nat → Bool) (n : Nat)
    (bytes : List UInt8) (fill : Filling)
    : fill.heap.events <+: (fill.put grants unit full n bytes).2.heap.events := by
  match pointer : fill.block with
  | none =>
    simp only [Filling.put, pointer]
    exact List.prefix_rfl
  | some block =>
    have stored := touch_extends fill.heap (some block) fun b => .store b (fill.i * unit) bytes
    simp only [Filling.put, pointer, ScanHeap.realloc]
    split
    · split
      next fresh heap granted =>
        split at granted
        · cases granted
          exact stored.trans (List.prefix_append _ _)
        · cases granted
      next heap refused =>
        split at refused
        · cases refused
        · cases refused
          exact stored
    · exact stored

/-- The loop only adds to the trace. By induction on the characters read. -/
theorem wideLoop_extends (input : WideInput W) (grants : Nat → Bool) (long : Bool)
    (keep : BitVec 32 → Bool) (fuel : Nat) (width : Option Nat) (got : Bool) (fill : Filling)
    (s : Streambuf W)
    : fill.heap.events <+: (wideLoop input grants long keep fuel width got fill s).2.1.heap.events := by
  induction fuel generalizing width got fill s with
  | zero => exact List.prefix_rfl
  | succ fuel ih =>
    rw [wideLoop]
    split
    · exact List.prefix_rfl
    · generalize input.getwc s = next
      obtain ⟨c, s⟩ := next
      simp only
      split
      · exact List.prefix_rfl
      · split
        next => exact List.prefix_rfl
        next l bytes _ =>
          have stored := put_extends grants (if long then 4 else 1) (wideFull long) l bytes fill
          generalize fill.put grants (if long then 4 else 1) (wideFull long) l bytes = result
            at stored ⊢
          obtain ⟨ok, fill'⟩ := result
          cases ok with
          | true => exact stored.trans (ih _ true fill' s)
          | false => exact stored

private theorem wideEnd_extends (input : WideInput W) (conv : ScanConversion (BitVec 32))
    (r : LoopEnd (Option (BitVec 32 × Bool)) × Filling × Streambuf W)
    : r.2.1.heap.events <+: (wideEnd input conv r).heap.events := by
  have finish (fill : Filling) : fill.heap.events <+: (fill.finish conv).events := by
    have given := touch_extends fill.heap fill.block .handOver
    rw [Filling.finish]
    split
    · exact given
    · exact given.trans (touch_extends _ _ _)
  obtain ⟨end_, fill, s⟩ := r
  match end_ with
  | .running => exact List.prefix_rfl
  | .failed => exact touch_extends _ _ _
  | .ended none => exact finish fill
  | .ended (some (c, got)) =>
    rw [wideEnd]
    split
    · exact touch_extends _ _ _
    · exact finish fill

theorem put_tiny {block l : Nat} (pointer : fill.block = some block) (tiny : fill.k < 4)
    (inside : fill.i ≤ fill.k) (short : l ≤ 4) (grants : Nat → Bool) (bytes : List UInt8)
    : fill.put grants 1 (wideFull false) l bytes
      = (true, ⟨fill.i + l, fill.k, some block, fill.heap.store (some block) (fill.i * 1) bytes⟩) := by
  have never : ¬ wideFull false (fill.i + l) fill.k = true := by
    simp only [wideFull, Bool.false_eq_true, if_false, decide_eq_true_eq]
    omega
  simp only [Filling.put, pointer, if_neg never]

/-- The loop of a block below four bytes stays inside if and only if the characters fit. By induction on
the width.
-/
theorem wideLoop_tiny (input : WideInput W) (grants : Nat → Bool) {keep : BitVec 32 → Bool}
    (all : ∀ c, keep c = true) (fill : Filling) {block n fuel : Nat} (rounds : n ≤ fuel)
    (pointer : fill.block = some block)
    (held : Custody.nothing.after fill.heap.events = some (.building block fill.k))
    (tiny : fill.k < 4) (inside : fill.i ≤ fill.k) (got : Bool) (s : Streambuf W)
    : (fill.i + charBytes input n s ≤ fill.k →
        ∃ end_ i heap s', wideLoop input grants false keep fuel (some n) got fill s
            = (end_, ⟨i, fill.k, some block, heap⟩, s')
          ∧ Custody.nothing.after heap.events = some (.building block fill.k))
      ∧ (fill.k < fill.i + charBytes input n s → Custody.nothing.after
          (wideLoop input grants false keep fuel (some n) got fill s).2.1.heap.events = none) := by
  have stays (end_ : LoopEnd (Option (BitVec 32 × Bool))) (s' : Streambuf W)
      : ∃ end' i heap s'', (end_, fill, s') = (end', (⟨i, fill.k, some block, heap⟩ : Filling), s'')
        ∧ Custody.nothing.after heap.events = some (.building block fill.k) :=
    ⟨end_, fill.i, fill.heap, s', by rw [← pointer], held⟩
  induction n generalizing fuel fill got s with
  | zero =>
    rw [charBytes]
    refine ⟨fun _ => ?_, fun outside => by omega⟩
    cases fuel with
    | zero => exact stays .running s
    | succ fuel => exact stays (.ended none) s
  | succ n ih =>
    obtain ⟨fuel, rfl⟩ : ∃ m, fuel = m + 1 := ⟨fuel - 1, by omega⟩
    have open_ : ¬ some (n + 1) = some 0 := by simp
    rw [wideLoop, charBytes]
    generalize input.getwc s = next
    obtain ⟨c, s⟩ := next
    simp only [all, Bool.not_true, Bool.false_eq_true, or_false]
    by_cases ended : c.toInt < 0
    · rw [if_pos ended, if_pos (.inl ended)]
      exact ⟨fun _ => stays (.ended (some (c, got))) s, fun outside => by omega⟩
    · rw [if_neg ended, wideEncode]
      simp only [Bool.false_eq_true, if_false]
      by_cases valid : (wc2mb c).1 = ilseqValue
      · rw [if_pos valid, if_pos (.inr valid)]
        exact ⟨fun _ => stays .failed s, fun outside => by omega⟩
      · rw [if_neg valid, if_neg fun either => either.elim ended valid]
        obtain ⟨length, short, -⟩ := wc2mb_length valid
        generalize wc2mb c = encoded at length short valid
        obtain ⟨l, bytes⟩ := encoded
        simp only [put_tiny pointer tiny inside short] at length ⊢
        by_cases fits : fill.i + l ≤ fill.k
        · have stored : Custody.nothing.after
              (fill.heap.store (some block) (fill.i * 1) bytes).events
              = some (.building block fill.k) :=
            (Custody.after_snoc held).trans (Custody.next_store (by omega))
          have later := @ih ⟨fill.i + l, fill.k, some block,
            fill.heap.store (some block) (fill.i * 1) bytes⟩ fuel (by omega) rfl stored tiny fits true s
            fun end_ s' => ⟨end_, _, _, s', rfl, stored⟩
          rw [← Nat.add_assoc]
          exact later
        · refine ⟨fun inside' => by omega, fun _ => ?_⟩
          have broken : Custody.nothing.after
              (fill.heap.store (some block) (fill.i * 1) bytes).events = none :=
            (Custody.after_snoc held).trans (Custody.next_store_none (by omega))
          exact Custody.after_prefix_none (wideLoop_extends input grants false keep fuel _ true _ s)
            broken

private theorem wideEnd_char (input : WideInput W) (char : conv.kind.isChar = true) (assigns : conv.assigns = true)
    {block size : Nat} {fill : Filling} (pointer : fill.block = some block)
    (held : Custody.nothing.after fill.heap.events = some (.building block size))
    (end_ : LoopEnd (Option (BitVec 32 × Bool))) (s : Streambuf W)
    : Keeps conv (wideEnd input conv (end_, fill, s)) := by
  have dropped := droppable_building pointer held
  match end_ with
  | .running => exact ⟨_, held, trivial⟩
  | .failed => exact dropped.keeps conv s (.inr rfl)
  | .ended none =>
    refine ⟨.handedOver block size, ?_, (if_pos assigns).mpr rfl⟩
    rw [wideEnd, Filling.finish, if_pos char, pointer]
    exact (Custody.after_snoc held).trans (if_pos rfl)
  | .ended (some (c, got)) =>
    rw [wideEnd, if_pos (.inl char)]
    exact dropped.keeps conv (input.unget c s) (.inl rfl)

/-- `%mc` of `__vfwscanf` with a width of one or two is in order if and only if its characters fit. -/
theorem wideConversion_tiny (input : WideInput W) (grants : Nat → Bool) {fuel : Nat} (enough : 2 ≤ fuel)
    (char : conv.kind = .c) (narrow : conv.long = false) (assigns : conv.assigns = true)
    (tiny : conv.width ≤ 2) (s : Streambuf W) {calls : Nat} (granted : grants calls = true)
    (there : 0 ≤ (input.getwc s).1.toInt)
    : (charBytes input conv.charWidth (input.unget (input.getwc s).1 (input.getwc s).2)
          ≤ conv.charWidth + 1 →
        Keeps conv (wideConversion input grants fuel conv s calls))
      ∧ (conv.charWidth + 1
          < charBytes input conv.charWidth (input.unget (input.getwc s).1 (input.getwc s).2) →
        Custody.nothing.after (wideConversion input grants fuel conv s calls).heap.events = none) := by
  have isChar : conv.kind.isChar = true := by rw [char]; rfl
  have few : conv.charWidth ≤ 2 := by
    rw [ScanConversion.charWidth]
    omega
  have start : conv.start = conv.charWidth + 1 := by
    rw [ScanConversion.start, if_pos isChar]
    omega
  have limit : conv.limit = some conv.charWidth := if_pos isChar
  have unit : conv.unit = 1 := if_neg (by rw [narrow]; exact Bool.false_ne_true)
  have began : Filling.begin grants conv calls = (true, ⟨0, conv.charWidth + 1, some calls,
          ⟨calls + 1, [.malloc calls (conv.charWidth + 1)]⟩⟩) := by
    have size : (conv.charWidth + 1) * 1 % 2 ^ 64 = conv.charWidth + 1 := by omega
    have fits : conv.charWidth + 1 < 2 ^ 63 ∧ grants calls = true := ⟨by omega, granted⟩
    rw [Filling.begin, if_pos assigns, start, unit, size, ScanHeap.malloc, if_pos fits]
    rfl
  have run : wideConversion input grants fuel conv s calls = wideEnd input conv
          (wideLoop input grants false (fun c => inSet [] c != true) fuel (some conv.charWidth) false
            ⟨0, conv.charWidth + 1, some calls, ⟨calls + 1, [.malloc calls (conv.charWidth + 1)]⟩⟩
            (input.unget (input.getwc s).1 (input.getwc s).2)) := by
    have first : wideFirst input fuel conv s = some (input.getwc s) := by rw [wideFirst, char]
    rw [wideConversion, first]
    simp only [if_neg (Int.not_lt.mpr there), char, wideSet, began, narrow, limit]
    rfl
  have loop := wideLoop_tiny input grants (fun c => (rfl : (inSet [] c != true) = true))
    ⟨0, conv.charWidth + 1, some calls, ⟨calls + 1, [.malloc calls (conv.charWidth + 1)]⟩⟩
    (Nat.le_trans few enough) rfl rfl (by simp only; omega) (Nat.zero_le _) false
    (input.unget (input.getwc s).1 (input.getwc s).2)
  simp only [Nat.zero_add] at loop
  rw [run]
  constructor
  · intro fits
    obtain ⟨end_, i, heap, s', ends, held⟩ := loop.1 fits
    rw [ends]
    exact wideEnd_char input isChar assigns rfl held end_ s'
  · intro outside
    exact Custody.after_prefix_none (wideEnd_extends input conv _) (loop.2 outside)

theorem isChar_c {kind : ScanKind α} (char : kind.isChar = true) : kind = .c := by
  cases kind with
  | c => rfl
  | s => cases char
  | set text => cases char

private theorem start_room (other : ¬ (conv.kind.isChar = true ∧ conv.long = false ∧ conv.width ≤ 2))
    : wideMargin conv.long ≤ conv.start := by
  have small := conv.small
  rw [wideMargin, ScanConversion.start, ScanConversion.charWidth]
  cases long : conv.long with
  | true =>
    simp only [if_true]
    split <;> omega
  | false =>
    simp only [Bool.false_eq_true, if_false]
    split
    next char =>
      have wide : ¬ conv.width ≤ 2 := fun tiny => other ⟨char, long, tiny⟩
      omega
    next => omega

/-- A conversion of `__vfwscanf` is in order if its characters fit, and else it is not. -/
theorem wideConversion_fits (input : WideInput W) (grants : Nat → Bool) {fuel : Nat} (enough : 2 ≤ fuel)
    (conv : ScanConversion (BitVec 32)) (s : Streambuf W) (calls : Nat)
    : (CharFits input grants conv s calls → Keeps conv (wideConversion input grants fuel conv s calls))
      ∧ (¬ CharFits input grants conv s calls →
        Custody.nothing.after (wideConversion input grants fuel conv s calls).heap.events = none) := by
  constructor
  · intro fits
    have roomy := wideConversion_keeps input grants fuel conv s calls
    by_cases tiny : conv.kind.isChar = true ∧ conv.long = false ∧ conv.width ≤ 2
    · obtain ⟨isChar, narrow, small⟩ := tiny
      by_cases allocates : conv.assigns = true ∧ grants calls = true
      · have char := isChar_c isChar
        by_cases there : 0 ≤ (input.getwc s).1.toInt
        · exact (wideConversion_tiny input grants enough char narrow allocates.1 small s allocates.2
            there).1 (fits isChar narrow allocates.1 small allocates.2 there)
        · have first : wideFirst input fuel conv s = some (input.getwc s) := by rw [wideFirst, char]
          rw [wideConversion, first]
          simp only [if_pos (Int.not_le.mp there)]
          exact keeps_inputFail conv _ calls
      · exact roomy fun assigns granted => absurd ⟨assigns, granted⟩ allocates
    · exact roomy fun _ _ => start_room tiny
  · intro broken
    simp only [CharFits, Classical.not_imp, Nat.not_le] at broken
    obtain ⟨isChar, narrow, assigns, small, granted, there, outside⟩ := broken
    exact (wideConversion_tiny input grants enough (isChar_c isChar) narrow assigns small s granted
      there).2 outside

/-- `__vfscanf` does what it does with its blocks in order, on every format of such conversions.
`__vfwscanf` does so if and only if the characters of each `%mc` of a width of one or two fit in a block of
one byte more than the width.
-/
theorem scanf_blocks_iff (grants : Nat → Bool) (fuel : Nat)
    : (∀ (uflow : Streambuf W → Int × Streambuf W) conversions f,
        (vfscanfBlocks uflow grants fuel conversions f).InOrder)
      ∧ ∀ (input : WideInput W) conversions s,
        (vfwscanfBlocks input grants (fuel + 2) conversions s).InOrder
          ↔ EveryStep (wideConversion input grants (fuel + 2)) (CharFits input grants) conversions s 0 := by
  refine ⟨fun uflow conversions f => vfscanfBlocks_inOrder uflow grants fuel conversions f,
    fun input conversions s => ?_⟩
  have enough : 2 ≤ fuel + 2 := Nat.le_add_left 2 fuel
  exact scanAll_inOrder_iff (fun conv s calls => (wideConversion_fits input grants enough conv s calls).1)
    (fun conv s calls => (wideConversion_fits input grants enough conv s calls).2) conversions 0 s 0

def euroStream : Streambuf Unit :=
  { Streambuf.finit false true false false (Memory.store (fun _ => 0) 24 [0xE2, 0x82, 0xAC]) () 16 256 with
    gptr := 24
    egptr := 27 }

/-- `%mc` -/
def charConversion : ScanConversion (BitVec 32) := ⟨.c, false, true, 0, by decide⟩

def euroInput : WideInput Unit :=
  streamInput ⟨fun s _ => (0, [], s), fun s _ => (0, s), fun s _ _ => (-1, 0, s)⟩
    (fun s => (eofValue, s)) 0 fun c => c = 32

/-- `%mc` stores three bytes in a block of two. -/
theorem scanf_blocks_euro
    : ¬ (vfwscanfBlocks euroInput (fun _ => true) 8 [charConversion] euroStream).InOrder := by
  rintro ⟨held, trace, -⟩
  cases trace

end Nglibc.Stdio
