import Mathlib.Tactic

/-! The exit handler list of `stdlib/exit.h` and the registration functions that fill it.
A chain is the list of blocks in `next` order; a block pointer is the number of blocks from
that block to the end of the chain, so it survives the prepending of newer blocks and 0 is
the null pointer.
-/

namespace Nglibc.Exit

open List

/-- The registration functions a program may call, with the arguments besides the function:
`atexit` is compiled with the `__dso_handle` of the object it is linked into.
-/
inductive Registrar where
  | atexit (dsoHandle : Nat)
  | onExit (arg : Nat)
  | cxaAtexit (arg d : Nat)
  | cxaAtQuickExit (d : Nat)
  deriving DecidableEq, Repr

/-- What the main program or a handler does: a finite sequence of registrations and
`__cxa_finalize` calls. `name` is the address of the registered function, `fn` its code.
-/
inductive Program where
  | ret
  | register (registrar : Registrar) (name : Nat) (fn next : Program)
  | cxaFinalize (d : Nat) (next : Program)
  deriving DecidableEq, Repr

inductive Flavor where
  | efFree
  | efUs
  | efOn
  | efAt
  | efCxa
  deriving DecidableEq, Repr

/-- `struct exit_function`: the members of its union share the function and the argument,
only `cxa` has a `dso_handle`, and the other flavors leave the old one in place.
-/
structure ExitFunction where
  flavor : Flavor
  name : Nat
  fn : Program
  arg : Nat
  dsoHandle : Nat
  deriving DecidableEq, Repr

/-- An entry as `calloc` and static initialization leave it. -/
def ExitFunction.zero : ExitFunction :=
  { flavor := .efFree, name := 0, fn := .ret, arg := 0, dsoHandle := 0 }

/-- The number of entries of `fns` in `struct exit_function_list`. -/
def blockSize : Nat := 32

theorem blockSize_pos : 0 < blockSize := by decide

/-- `struct exit_function_list`, without `next`. -/
structure Block where
  idx : Nat
  fns : List ExitFunction
  size : fns.length = blockSize
  idxLe : idx ≤ blockSize
  deriving DecidableEq, Repr

def Block.zero : Block :=
  { idx := 0, fns := List.replicate blockSize .zero, size := by simp, idxLe := by simp }

/-- The entry `fns[i]`. -/
def Block.fnAt (b : Block) (i : Nat) : ExitFunction := b.fns.getD i .zero

/-- A store into the entry `fns[i]`. -/
def Block.modifyFn (b : Block) (i : Nat) (f : ExitFunction → ExitFunction) : Block :=
  { b with fns := b.fns.modify i f, size := by simp [b.size] }

/-- A store into `idx`. -/
def Block.setIdx (b : Block) (i : Nat) (h : i ≤ blockSize) : Block :=
  { b with idx := i, idxLe := h }

/-- `idx = 0`. -/
def Block.clear (b : Block) : Block := b.setIdx 0 (Nat.zero_le _)

abbrev Chain := List Block

/-- The block that `ptr` points to. -/
def Chain.get? : Chain → Nat → Option Block
  | [], _ => none
  | b :: rest, ptr => if ptr = rest.length + 1 then some b else Chain.get? rest ptr

/-- A store through `ptr`. -/
def Chain.modify : Chain → Nat → (Block → Block) → Chain
  | [], _, _ => []
  | b :: rest, ptr, f =>
    if ptr = rest.length + 1 then f b :: rest else b :: Chain.modify rest ptr f

theorem Chain.get?_append (newer : Chain) (b : Block) (older : Chain)
    : Chain.get? (newer ++ b :: older) (older.length + 1) = some b := by
  induction newer with
  | nil => simp [Chain.get?]
  | cons first rest ih =>
    have apart : older.length + 1 ≠ (rest ++ b :: older).length + 1 := by
      simp
      omega
    simp only [cons_append, Chain.get?, if_neg apart, ih]

theorem Chain.modify_append (newer : Chain) (b : Block) (older : Chain) (f : Block → Block)
    : Chain.modify (newer ++ b :: older) (older.length + 1) f = newer ++ f b :: older := by
  induction newer with
  | nil => simp [Chain.modify]
  | cons first rest ih =>
    have apart : older.length + 1 ≠ (rest ++ b :: older).length + 1 := by
      simp
      omega
    simp only [cons_append, Chain.modify, if_neg apart, ih]

variable {chain : Chain}

/-- A pointer into a chain splits it at the block it points to, by chain induction. -/
theorem Chain.split_of_ptr {ptr : Nat} (pos : 0 < ptr) (le : ptr ≤ chain.length)
    : ∃ newer b older, chain = newer ++ b :: older ∧ older.length + 1 = ptr := by
  induction chain with
  | nil => simp at le; omega
  | cons first rest ih =>
    by_cases here : ptr = rest.length + 1
    · exact ⟨[], first, rest, rfl, here.symm⟩
    · simp only [length_cons] at le
      obtain ⟨newer, b, older, split, size⟩ := ih (by omega)
      exact ⟨first :: newer, b, older, by simp [split], size⟩

/-- The uncalled handlers of a block, newest first. -/
def Block.live (b : Block) : List ExitFunction :=
  ((b.fns.take b.idx).filter (fun f => f.flavor ≠ .efFree)).reverse

/-- The uncalled handlers of a chain, newest first. -/
def Chain.pending (chain : Chain) : List ExitFunction := chain.flatMap Block.live

@[simp] theorem Chain.pending_nil : Chain.pending [] = [] := rfl

@[simp] theorem Chain.pending_cons (b : Block) (rest : Chain)
    : Chain.pending (b :: rest) = b.live ++ Chain.pending rest := rfl

@[simp] theorem Chain.pending_append (left right : Chain)
    : Chain.pending (left ++ right) = Chain.pending left ++ Chain.pending right :=
  flatMap_append

@[simp] theorem Block.live_clear (b : Block) : b.clear.live = [] := by
  simp [Block.live, Block.clear, Block.setIdx]

/-- The inner loop of `__new_exitfn`: one past the last used entry among the first `i`. -/
def usedUpTo (fns : List ExitFunction) : Nat → Nat
  | 0 => 0
  | i + 1 => if (fns.getD i .zero).flavor ≠ .efFree then i + 1 else usedUpTo fns i

/-- The value of `i` after the inner loop of `__new_exitfn` on this block. -/
def Block.lastUsed (b : Block) : Nat := usedUpTo b.fns b.idx

/-- The outer loop of `__new_exitfn`: completely unused blocks get `idx = 0` and are
skipped; the second component starts at the block `l` on which the loop stops.
-/
def skipUnused : Chain → Chain × Chain
  | [] => ([], [])
  | l :: next =>
    if l.lastUsed > 0 then ([], l :: next)
    else (l.clear :: (skipUnused next).1, (skipUnused next).2)

/-- What `__new_exitfn` does: the entry returned is `fns[slot]` of the block `ptr`. -/
inductive NewExitfn where
  | entry (chain : Chain) (ptr slot : Nat)
  | noMemory (chain : Chain)
  | assertFailed

/-- Marks `fns[i]` as used with a flavor still unknown, and makes it the last one. -/
def Block.claim (b : Block) (i : Fin blockSize) : Block :=
  (b.modifyFn i (fun r => { r with flavor := .efUs })).setIdx (i + 1) i.isLt

/-- `__new_exitfn` on a list whose `__exit_funcs_done` is false; `memory` says whether its
`calloc` succeeds.
-/
def newExitfn (memory : Bool) (chain : Chain) : NewExitfn :=
  let skipped := (skipUnused chain).1
  let usePrevious (rest : Chain) : NewExitfn :=
    .entry (Chain.modify (skipped ++ rest) (rest.length + 1) (fun p => p.claim ⟨0, by decide⟩))
      (rest.length + 1) 0
  match (skipUnused chain).2 with
  | [] => if skipped = [] then .assertFailed else usePrevious []
  | l :: next =>
    if room : l.lastUsed < blockSize then
      .entry (skipped ++ l.claim ⟨l.lastUsed, room⟩ :: next) (next.length + 1) l.lastUsed
    else if skipped = [] then
      -- the last entry in the first block is used and there is no block before it
      if memory then
        .entry (Block.zero.claim ⟨0, by decide⟩ :: l :: next) (next.length + 2) 0
      else .noMemory (l :: next)
    else usePrevious (l :: next)

/-- The entries from the last used one on are free, by induction on the scanned prefix. -/
theorem filter_take_usedUpTo (fns : List ExitFunction) (i : Nat)
    : (fns.take i).filter (fun f => f.flavor ≠ .efFree)
      = (fns.take (usedUpTo fns i)).filter (fun f => f.flavor ≠ .efFree) := by
  induction i with
  | zero => rfl
  | succ i ih =>
    by_cases used : (fns.getD i .zero).flavor ≠ .efFree
    · simp only [usedUpTo, if_pos used]
    · simp only [usedUpTo, if_neg used]
      rw [← ih]
      by_cases bound : i < fns.length
      · have free : fns[i].flavor = .efFree := by
          simpa [getElem?_eq_getElem bound] using used
        rw [take_add_one, getElem?_eq_getElem bound, filter_append]
        simp [free]
      · rw [take_of_length_le (by omega), take_of_length_le (by omega)]

theorem Block.live_eq (b : Block)
    : b.live = ((b.fns.take b.lastUsed).filter (fun f => f.flavor ≠ .efFree)).reverse := by
  rw [Block.live, filter_take_usedUpTo, Block.lastUsed]

theorem Block.live_of_lastUsed_zero {b : Block} (unused : b.lastUsed = 0) : b.live = [] := by
  simp [Block.live_eq, unused]

/-- The walk of `__new_exitfn` clears a prefix without uncalled handlers and stops at the
end or at a block that has some, by chain induction.
-/
theorem skipUnused_spec (chain : Chain)
    : ∃ unused rest, chain = unused ++ rest ∧ skipUnused chain = (unused.map Block.clear, rest)
        ∧ Chain.pending unused = []
        ∧ ∀ l next, rest = l :: next → 0 < l.lastUsed := by
  induction chain with
  | nil => exact ⟨[], [], rfl, rfl, rfl, by simp⟩
  | cons l next ih =>
    by_cases used : l.lastUsed > 0
    · refine ⟨[], l :: next, rfl, by simp [skipUnused, used], rfl, ?_⟩
      rintro _ _ ⟨rfl, rfl⟩
      exact used
    · obtain ⟨unused, rest, split, skip, empty, stop⟩ := ih
      refine ⟨l :: unused, rest, by simp [split], ?_, ?_, stop⟩
      · simp [skipUnused, used, skip]
      · simp [empty, Block.live_of_lastUsed_zero (Nat.eq_zero_of_not_pos used)]

@[simp] theorem Chain.pending_map_clear (chain : Chain)
    : Chain.pending (chain.map Block.clear) = [] := by
  induction chain with
  | nil => rfl
  | cons b rest ih => simp [ih]

theorem Block.take_claim_fill (b : Block) (i : Fin blockSize)
    (fill : ExitFunction → ExitFunction)
    : ((b.claim i).modifyFn i fill).fns.take (i + 1)
      = b.fns.take i ++ [fill { b.fnAt i with flavor := .efUs }] := by
  have bound : (i : Nat) < b.fns.length := by
    rw [b.size]
    exact i.isLt
  simp only [Block.claim, Block.modifyFn, Block.setIdx]
  apply ext_getElem?
  intro j
  rcases Nat.lt_trichotomy j i with before | rfl | after
  · have apart : (i : Nat) ≠ j := by omega
    simp [apart, before, Nat.lt_succ_of_lt before, Nat.min_eq_left bound.le]
  · simp [Block.fnAt, Nat.min_eq_left bound.le, bound]
  · have past : ¬ j < i + 1 := by omega
    rw [getElem?_take, if_neg past]
    simp [Nat.min_eq_left bound.le]
    omega

/-- Filling the claimed entry with a used one puts it above the entries kept below it. -/
theorem Block.live_claim_fill (b : Block) (i : Fin blockSize)
    (fill : ExitFunction → ExitFunction)
    (used : ∀ r, (fill r).flavor ≠ .efFree)
    : ((b.claim i).modifyFn i fill).live = fill { b.fnAt i with flavor := .efUs }
        :: ((b.fns.take i).filter (fun f => f.flavor ≠ .efFree)).reverse := by
  have slot := Block.take_claim_fill b i fill
  have idx : ((b.claim i).modifyFn i fill).idx = i + 1 := rfl
  rw [Block.live, idx, slot]
  simp [filter_append, used]

/-- The block `l'` replaces a block of the chain with no uncalled handler above it, or is a
new first block; `kept` are the uncalled handlers that stay in it.
-/
structure Placed (chain : Chain) (newer : Chain) (kept : List ExitFunction) (older : Chain)
    : Prop where
  idle : Chain.pending newer = []
  pending : Chain.pending chain = kept ++ Chain.pending older
  place : chain = older ∨ ∃ unused l, chain = unused ++ l :: older ∧ Chain.pending unused = []
  size : chain.length ≤ newer.length + older.length + 1

/-- An entry was claimed: nothing uncalled lies above it and the handlers below it are those that were
uncalled before.
-/
def Entered (chain chain' : Chain) (ptr slot : Nat) : Prop :=
  ∃ (newer : Chain) (b : Block) (older : Chain) (i : Fin blockSize), slot = i
    ∧ ptr = older.length + 1
    ∧ chain' = newer ++ b.claim i :: older
    ∧ Placed chain newer ((b.fns.take i).filter (fun f => f.flavor ≠ .efFree)).reverse older

/-- By the cases of the outer loop. -/
theorem newExitfn_entry {memory : Bool} {chain chain' : Chain} {ptr slot : Nat}
    (result : newExitfn memory chain = .entry chain' ptr slot)
    : Entered chain chain' ptr slot := by
  obtain ⟨unused, rest, split, skip, empty, stop⟩ := skipUnused_spec chain
  -- both branches that reuse the block before `l` end the cleared prefix with it
  have previous {tail : Chain} (nonempty : unused ≠ []) (eq : NewExitfn.entry
        (Chain.modify (unused.map Block.clear ++ tail) (tail.length + 1)
          (fun p => p.claim ⟨0, by decide⟩)) (tail.length + 1) 0
        = .entry chain' ptr slot)
      (tailEq : tail = rest)
      : Entered chain chain' ptr slot := by
    obtain ⟨front, p, rfl⟩ := eq_nil_or_concat unused |>.resolve_left nonempty
    rw [concat_eq_append] at eq split empty
    simp only [map_append, map_cons, map_nil, append_assoc,
      singleton_append, Chain.modify_append, NewExitfn.entry.injEq] at eq
    obtain ⟨rfl, rfl, rfl⟩ := eq
    refine ⟨front.map Block.clear, p.clear, tail, ⟨0, by decide⟩, rfl, rfl, rfl, by simp, ?_,
      .inr ⟨front, p, by simp [split, tailEq], ?_⟩, by simp [split, tailEq]; omega⟩
    · rw [split, Chain.pending_append, empty, tailEq]
      rfl
    · rw [Chain.pending_append] at empty
      exact (append_eq_nil_iff.mp empty).1
  simp only [newExitfn, skip] at result
  cases rest with
  | nil =>
    by_cases none : unused = []
    · simp [none] at result
    · simp only [map_eq_nil_iff, none, if_false] at result
      exact previous none result rfl
  | cons l next =>
    by_cases room : l.lastUsed < blockSize
    · simp only [room, dif_pos, NewExitfn.entry.injEq] at result
      obtain ⟨rfl, rfl, rfl⟩ := result
      exact ⟨unused.map Block.clear, l, next, ⟨l.lastUsed, room⟩, rfl, rfl, rfl, by simp,
        by simp [split, empty, Block.live_eq], .inr ⟨unused, l, split, empty⟩,
        by simp [split]; omega⟩
    · simp only [room, dif_neg, not_false_eq_true] at result
      by_cases none : unused = []
      · subst none
        cases memory with
        | false => simp at result
        | true =>
          obtain ⟨rfl, rfl, rfl⟩ := result
          exact ⟨[], Block.zero, l :: next, ⟨0, by decide⟩, rfl, by simp, rfl, rfl,
            by simp [split], .inl split, by simp [split]⟩
      · simp only [map_eq_nil_iff, none, if_false] at result
        exact previous none result rfl

/-- When memory runs out the chain only lost its unused entries, so nothing changes. -/
theorem newExitfn_noMemory {memory : Bool} {chain chain' : Chain}
    (result : newExitfn memory chain = .noMemory chain')
    : chain' = chain ∧ memory = false := by
  obtain ⟨unused, rest, split, skip, empty, stop⟩ := skipUnused_spec chain
  simp only [newExitfn, skip] at result
  cases rest with
  | nil => by_cases none : unused = [] <;> simp [none] at result
  | cons l next =>
    by_cases room : l.lastUsed < blockSize
    · simp [room] at result
    · by_cases none : unused = []
      · subst none
        cases memory with
        | false =>
          simp only [room, dif_neg, not_false_eq_true, map_nil, if_true,
            Bool.false_eq_true, if_false, NewExitfn.noMemory.injEq] at result
          exact ⟨by rw [split, ← result, nil_append], rfl⟩
        | true => simp [room] at result
      · simp [room, none] at result

theorem newExitfn_asserts {memory : Bool} (nonempty : chain ≠ [])
    : newExitfn memory chain ≠ .assertFailed := by
  obtain ⟨unused, rest, split, skip, empty, stop⟩ := skipUnused_spec chain
  simp only [newExitfn, skip]
  cases rest with
  | nil =>
    have some : unused ≠ [] := by
      rintro rfl
      exact nonempty split
    simp [some]
  | cons l next =>
    by_cases room : l.lastUsed < blockSize
    · simp [room]
    · by_cases none : unused = [] <;> cases memory <;> simp [room, none]

/-- `__new_exitfn` and the stores `fill` of its caller: the chain and the entry stored, if
there was memory for one; `none` is a failed assertion.
-/
def Chain.add (memory : Bool) (fill : ExitFunction → ExitFunction) (chain : Chain)
    : Option (Chain × Option ExitFunction) :=
  match newExitfn memory chain with
  | .assertFailed => none
  | .noMemory chain => some (chain, none)
  | .entry chain ptr slot =>
    (Chain.get? chain ptr).map fun l =>
      (Chain.modify chain ptr (fun l => l.modifyFn slot fill), some (fill (l.fnAt slot)))

theorem Block.fnAt_claim (b : Block) (i : Fin blockSize)
    : (b.claim i).fnAt i = { b.fnAt i with flavor := .efUs } := by
  have bound : (i : Nat) < b.fns.length := by
    rw [b.size]
    exact i.isLt
  simp [Block.claim, Block.setIdx, Block.modifyFn, Block.fnAt, bound]

variable {fill : ExitFunction → ExitFunction}

/-- A registration on a list that has a block stores its entry above all uncalled handlers
or, without memory, changes nothing.
-/
theorem Chain.add_placed (memory : Bool) (used : ∀ r, (fill r).flavor ≠ .efFree) (nonempty : chain ≠ [])
    : (∃ newer b older kept r,
        Chain.add memory fill chain = some (newer ++ b :: older, some (fill r))
        ∧ b.live = fill r :: kept
        ∧ Placed chain newer kept older)
      ∨ (memory = false ∧ Chain.add memory fill chain = some (chain, none)) := by
  cases result : newExitfn memory chain with
  | assertFailed => exact absurd result (newExitfn_asserts nonempty)
  | noMemory chain' =>
    obtain ⟨rfl, noMemory⟩ := newExitfn_noMemory result
    exact .inr ⟨noMemory, by simp [Chain.add, result]⟩
  | entry chain' ptr slot =>
    obtain ⟨newer, b, older, i, rfl, rfl, rfl, placed⟩ := newExitfn_entry result
    refine .inl ⟨newer, (b.claim i).modifyFn i fill, older, _,
      { b.fnAt i with flavor := .efUs }, ?_, Block.live_claim_fill b i fill used, placed⟩
    simp only [Chain.add, result, Chain.get?_append, Chain.modify_append, Option.map_some,
      Block.fnAt_claim]

/-- The same seen on the uncalled handlers only. -/
theorem Chain.add_spec (memory : Bool) (used : ∀ r, (fill r).flavor ≠ .efFree) (nonempty : chain ≠ [])
    : (∃ chain' r, Chain.add memory fill chain = some (chain', some (fill r))
        ∧ Chain.pending chain' = fill r :: Chain.pending chain
        ∧ chain.length ≤ chain'.length
        ∧ chain' ≠ [])
      ∨ (memory = false ∧ Chain.add memory fill chain = some (chain, none)) := by
  rcases Chain.add_placed memory used nonempty with
    ⟨newer, b, older, kept, r, added, live, placed⟩ | failed
  · have size := placed.size
    exact .inl ⟨_, r, added, by simp [placed.idle, placed.pending, live], by simp; omega, by simp⟩
  · exact .inr failed

/-- A registration made while blocks above `below` hold a handler leaves `below` alone. -/
theorem Chain.add_above (memory : Bool) (used : ∀ r, (fill r).flavor ≠ .efFree) {above : Chain}
    (busy : above.pending ≠ []) (below : Chain)
    : ∃ above' entry, Chain.add memory fill (above ++ below) = some (above' ++ below, entry)
        ∧ above'.pending ≠ []
        ∧ Chain.pending (above' ++ below) = entry.toList ++ Chain.pending (above ++ below)
        ∧ ∀ e ∈ entry, ∃ r, e = fill r := by
  have nonempty : above ++ below ≠ [] := by
    rintro none
    rw [(append_eq_nil_iff.mp none).1] at busy
    exact busy rfl
  rcases Chain.add_placed memory used nonempty with
    ⟨newer, b, older, kept, r, added, live, placed⟩ | ⟨_, failed⟩
  · have pending : Chain.pending (newer ++ b :: older) = fill r :: Chain.pending (above ++ below) := by
      rw [placed.pending]
      simp [placed.idle, live]
    rcases placed.place with same | ⟨unused, l, split, idle⟩
    · have shape : newer ++ b :: older = (newer ++ b :: above) ++ below := by simp [← same]
      exact ⟨newer ++ b :: above, some (fill r), by rw [added, shape], by simp [live],
        by rw [← shape, pending]; rfl, by simp⟩
    · -- the walk stops inside `above`, which has a handler
      rcases append_eq_append_iff.mp split with ⟨more, rfl, _⟩ | ⟨more, rfl, rest⟩
      · rw [Chain.pending_append] at idle
        exact absurd (append_eq_nil_iff.mp idle).1 busy
      · cases more with
        | nil => simp [idle] at busy
        | cons first more =>
          simp only [cons_append, List.cons.injEq] at rest
          obtain ⟨rfl, rfl⟩ := rest
          have shape : newer ++ b :: (more ++ below) = (newer ++ b :: more) ++ below := by simp
          exact ⟨newer ++ b :: more, some (fill r), by rw [added, shape], by simp [live],
            by rw [← shape, pending]; rfl, by simp⟩
  · exact ⟨above, none, failed, busy, rfl, by simp⟩

end Nglibc.Exit
