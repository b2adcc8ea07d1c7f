import Nglibc.Exit.Execution

/-! When `__run_exit_handlers` calls all handlers newest first. Its drain keeps `cur` across
a call, so a handler whose registrations do not fit in the block being drained makes the
next block unreachable: the order holds exactly for the histories that never do this.
-/

namespace Nglibc.Exit

open List

/-- No `__cxa_finalize` call and no quick exit handler, in the program and in the handlers
it registers.
-/
def Program.OnlyRegisters : Program → Prop
  | .ret => True
  | .register registrar _ fn next =>
    (∀ d, registrar ≠ .cxaAtQuickExit d) ∧ fn.OnlyRegisters ∧ next.OnlyRegisters
  | .cxaFinalize _ _ => False

def Program.pushes : Program → List (Nat × Program)
  | .ret => []
  | .register _ name fn next => next.pushes ++ [(name, fn)]
  | .cxaFinalize _ next => next.pushes

/-- The calls that empty a stack of handlers when each call removes the newest handler and
what it registers goes on top.
-/
inductive NewestFirst : List (Nat × Program) → List Nat → Prop
  | nil : NewestFirst [] []
  | call {name fn rest calls} (later : NewestFirst (fn.pushes ++ rest) calls)
    : NewestFirst ((name, fn) :: rest) (name :: calls)

/-- In the newest-first run of a stack, a handler called with `p` others pending registers
at most `32 - p % 32` handlers.
-/
inductive Fits : List (Nat × Program) → Prop
  | nil : Fits []
  | call {name fn rest} (room : rest.length % blockSize + fn.pushes.length ≤ blockSize)
    (later : Fits (fn.pushes ++ rest))
    : Fits ((name, fn) :: rest)

/-- The state of `main` at its call of `exit`, and `__run_exit_handlers` from there: every
handler is called exactly once and newest first before `__exit_funcs_done` is set, and no
block with an uncalled handler leaves the list.
-/
def DrainsNewestFirst (calloc : Nat → Bool) (main : Program) : Prop := ∃ depth fuel atExit final,
    exec calloc (cxaFinalize calloc depth) main .initial = some atExit
    ∧ runExitHandlers calloc depth fuel atExit = some final
    ∧ final.exitFuncsDone = true
    ∧ NewestFirst main.pushes (final.calls.map ExitFunction.name)
    ∧ ∀ b ∈ final.unlinked, b.live = []

theorem Program.OnlyRegisters.of_pushes {p : Program} (only : p.OnlyRegisters)
    : ∀ h ∈ p.pushes, h.2.OnlyRegisters := by
  induction p with
  | ret => simp [Program.pushes]
  | register registrar name fn next _ ih =>
    intro h member
    rcases mem_append.mp member with later | same
    · exact ih only.2.2 h later
    · rw [mem_singleton.mp same]
      exact only.2.1
  | cxaFinalize d next => exact False.elim only

/-- Every entry below `idx` is a handler. -/
def Block.Packed (b : Block) : Prop := ∀ f ∈ b.fns.take b.idx, f.Callable

/-- The handlers fill the blocks from the oldest on, so only the first may have room. -/
def Packed (head : Block) (rest : Chain) : Prop :=
  head.Packed ∧ ∀ b ∈ rest, b.Packed ∧ b.idx = blockSize

theorem Block.Packed.lastUsed {b : Block} (packed : b.Packed) : b.lastUsed = b.idx := by
  cases empty : b.idx with
  | zero => simp [Block.lastUsed, empty, usedUpTo]
  | succ i =>
    have bound : i < b.fns.length := by
      have le := b.idxLe
      rw [b.size]
      omega
    have used : (b.fns.getD i .zero).flavor ≠ .efFree := by
      rw [getD_eq_getElem?_getD, getElem?_eq_getElem bound]
      refine (packed _ (mem_take_iff_getElem.mpr ⟨i, ?_, rfl⟩)).1
      omega
    simp only [Block.lastUsed, empty, usedUpTo, if_pos used]

theorem Block.Packed.live {b : Block} (packed : b.Packed)
    : b.live = (b.fns.take b.idx).reverse := by
  rw [Block.live, filter_eq_self.mpr]
  intro f member
  simpa using (packed f member).1

theorem Block.Packed.live_length {b : Block} (packed : b.Packed) : b.live.length = b.idx := by
  have le := b.idxLe
  simp [packed.live, b.size, Nat.min_eq_left le]

variable {calloc : Nat → Bool} {head : Block} {rest : Chain} {finalize : Nat → Exits → Option Exits}

theorem Packed.pending_length (packed : Packed head rest)
    : (Chain.pending (head :: rest)).length = head.idx + blockSize * rest.length := by
  have full : (Chain.pending rest).length = blockSize * rest.length := by
    have each := packed.2
    clear packed
    induction rest with
    | nil => rfl
    | cons b rest ih =>
      have first := each b (by simp)
      simp only [Chain.pending_cons, length_append, length_cons,
        first.1.live_length, first.2, ih (fun x member => each x (by simp [member]))]
      ring
  simp [packed.1.live_length, full]

/-- Claiming the entry at `idx` and filling it with a handler extends a packed block. -/
theorem Block.Packed.claim {b : Block} (packed : b.Packed) (room : b.idx < blockSize)
    {fill : ExitFunction → ExitFunction} (callable : ∀ r, (fill r).Callable)
    : ((b.claim ⟨b.idx, room⟩).modifyFn b.idx fill).Packed := by
  intro f member
  rw [show ((b.claim ⟨b.idx, room⟩).modifyFn b.idx fill).idx = b.idx + 1 from rfl,
    Block.take_claim_fill b ⟨b.idx, room⟩ fill] at member
  rcases mem_append.mp member with old | new
  · exact packed f old
  · rw [mem_singleton.mp new]
    exact callable _

theorem Block.zero_packed : Block.zero.Packed := by
  simp [Block.Packed, Block.zero]

/-- `__new_exitfn` on a packed chain with room takes the entry at `idx` of the first block,
whether that block is in use or empty.
-/
theorem newExitfn_room {memory : Bool} (packed : Packed head rest) (room : head.idx < blockSize)
    : newExitfn memory (head :: rest)
      = .entry (head.claim ⟨head.idx, room⟩ :: rest) (rest.length + 1) head.idx := by
  have first := packed.1.lastUsed
  by_cases used : 0 < head.idx
  · have skip : skipUnused (head :: rest) = ([], head :: rest) := by
      simp [skipUnused, first, used]
    simp [newExitfn, skip, first, room]
  · have zero : head.idx = 0 := by omega
    have claimed : head.clear.claim ⟨0, by decide⟩ = head.claim ⟨head.idx, room⟩ := by
      simp [Block.clear, Block.claim, Block.setIdx, Block.modifyFn, zero]
    have skip : skipUnused (head :: rest) = ([head.clear], rest) := by
      cases rest with
      | nil => simp [skipUnused, first, zero]
      | cons l next =>
        have full := packed.2 l (by simp)
        have stop : l.lastUsed > 0 := by
          rw [full.1.lastUsed, full.2]
          decide
        simp [skipUnused, first, zero, stop]
    cases rest with
    | nil => simp [newExitfn, skip, Chain.modify, claimed, zero]
    | cons l next =>
      have full := packed.2 l (by simp)
      have stop : ¬ l.lastUsed < blockSize := by
        rw [full.1.lastUsed, full.2]
        exact Nat.lt_irrefl _
      simp [newExitfn, skip, stop, Chain.modify, claimed, zero]

theorem newExitfn_full (packed : Packed head rest) (full : head.idx = blockSize)
    : newExitfn true (head :: rest)
      = .entry (Block.zero.claim ⟨0, by decide⟩ :: head :: rest) (rest.length + 2) 0 := by
  have first := packed.1.lastUsed
  have skip : skipUnused (head :: rest) = ([], head :: rest) := by
    simp [skipUnused, first, full, blockSize]
  simp [newExitfn, skip, first, full]

/-- A registration keeps a chain packed: it goes into the first block while that has room,
and into a new first block otherwise.
-/
theorem Chain.add_packed (packed : Packed head rest) {fill : ExitFunction → ExitFunction}
    (callable : ∀ r, (fill r).Callable)
    : ∃ r head' rest', Chain.add true fill (head :: rest) = some (head' :: rest', some (fill r))
        ∧ Packed head' rest'
        ∧ Chain.pending (head' :: rest') = fill r :: Chain.pending (head :: rest)
        ∧ ((head.idx < blockSize ∧ rest' = rest ∧ head'.idx = head.idx + 1)
          ∨ (head.idx = blockSize ∧ rest' = head :: rest ∧ head'.idx = 1)) := by
  have used := fun r => (callable r).1
  rcases Nat.lt_or_ge head.idx blockSize with room | beyond
  · refine ⟨{ head.fnAt head.idx with flavor := .efUs },
      (head.claim ⟨head.idx, room⟩).modifyFn head.idx fill, rest, ?_,
      ⟨packed.1.claim room callable, packed.2⟩, ?_, .inl ⟨room, rfl, rfl⟩⟩
    · have found := Block.fnAt_claim head ⟨head.idx, room⟩
      simp [Chain.add, newExitfn_room packed room, Chain.get?, Chain.modify, found]
    · have live := Block.live_claim_fill head ⟨head.idx, room⟩ fill used
      rw [Chain.pending_cons, live, Chain.pending_cons, Block.live, cons_append]
  · have full : head.idx = blockSize := Nat.le_antisymm head.idxLe beyond
    refine ⟨{ Block.zero.fnAt 0 with flavor := .efUs },
      (Block.zero.claim ⟨0, by decide⟩).modifyFn 0 fill, head :: rest, ?_,
      ⟨Block.zero_packed.claim (by decide) callable, ?_⟩, ?_, .inr ⟨full, rfl, rfl⟩⟩
    · have found := Block.fnAt_claim Block.zero ⟨0, by decide⟩
      simp [Chain.add, newExitfn_full packed full, Chain.get?, Chain.modify, found]
    · intro b member
      rcases mem_cons.mp member with rfl | below
      · exact ⟨packed.1, full⟩
      · exact packed.2 b below
    · have live := Block.live_claim_fill Block.zero ⟨0, by decide⟩ fill used
      rw [Chain.pending_cons, live]
      simp

/-- The handlers pending in `__exit_funcs`, newest first. -/
def Exits.stack (s : Exits) : List (Nat × Program) := s.exitFuncs.pending.map ExitFunction.handler

/-- A program that only registers keeps the chain packed and pushes its handlers. Its
registrations stay in the first block as long as they fit there, otherwise they leave a
handler in a block above it; by induction on the program.
-/
theorem exec_packed (memory : ∀ n, calloc n = true) (finalize : Nat → Exits → Option Exits) {p : Program}
    (only : p.OnlyRegisters) {s : Exits} (notDone : s.exitFuncsDone = false)
    (shape : s.exitFuncs = head :: rest) (packed : Packed head rest)
    : ∃ s' head' rest', exec calloc finalize p s = some s' ∧ s'.exitFuncs = head' :: rest'
        ∧ Packed head' rest'
        ∧ s'.exitFuncsDone = false
        ∧ s'.calls = s.calls
        ∧ s'.unlinked = s.unlinked
        ∧ s'.stack = p.pushes ++ s.stack
        ∧ ((head.idx + p.pushes.length ≤ blockSize
            ∧ rest' = rest ∧ head'.idx = head.idx + p.pushes.length)
          ∨ (blockSize < head.idx + p.pushes.length
            ∧ ∃ above full, head' :: rest' = above ++ full :: rest
              ∧ Chain.pending above ≠ [])) := by
  induction p generalizing s head rest with
  | ret =>
    refine ⟨s, head, rest, rfl, shape, packed, notDone, rfl, rfl, rfl, .inl ⟨?_, rfl, rfl⟩⟩
    exact head.idxLe
  | cxaFinalize d next => exact False.elim only
  | register registrar name fn next _ ih =>
    have listp : registrar.listp = .exitFuncs := by
      cases registrar with
      | cxaAtQuickExit d => exact absurd rfl (only.1 d)
      | _ => rfl
    obtain ⟨r, head₁, rest₁, added, packed₁, pending₁, grown⟩ :=
      Chain.add_packed packed (Registrar.fill_callable registrar name fn)
    let s₁ : Exits := { s with
      attempts := s.attempts + 1
      exitFuncs := head₁ :: rest₁
      newExitfnCalled := (s.newExitfnCalled + 1) % 2 ^ 64
      registered := s.registered ++ [registrar.fill name fn r] }
    have registered : register calloc registrar name fn s = some (0, s₁) := by
      simp [register_eq, Exits.addExitFunction, notDone, listp, Exits.list, shape, memory,
        added, Exits.setList, s₁]
    obtain ⟨s', head', rest', run, shape', packed', done', calls', unlinked', stack', place⟩ :=
      ih only.2.2 (s := s₁) notDone rfl packed₁
    refine ⟨s', head', rest', ?_, shape', packed', done', calls', unlinked', ?_, ?_⟩
    · simp [exec, registered, run]
    · rw [stack', Exits.stack, pending₁]
      simp [Program.pushes, Exits.stack, shape]
    · have count : (Program.register registrar name fn next).pushes.length
          = next.pushes.length + 1 := by
        simp [Program.pushes]
      rcases grown with ⟨room, rfl, idx₁⟩ | ⟨full, rfl, idx₁⟩
      · rcases place with ⟨fits, same, idx'⟩ | ⟨beyond, above⟩
        · exact .inl ⟨by omega, same, by omega⟩
        · exact .inr ⟨by omega, above⟩
      · -- the first registration already went into a block above `head`
        refine .inr ⟨by omega, ?_⟩
        rcases place with ⟨_, rfl, idx'⟩ | ⟨_, above, top, split, some⟩
        · refine ⟨[head'], head, rfl, ?_⟩
          have size := packed'.1.live_length
          intro none
          simp only [Chain.pending_cons, Chain.pending_nil, append_nil] at none
          rw [none, length_nil] at size
          omega
        · refine ⟨above ++ [top], head, by simp [split], ?_⟩
          simp [some]

section Drain

variable {s : Exits} {above below : Chain} {l : Block}

/-- An iteration on a block with entries takes the last one: a handler is called with the
entry gone from the list, anything else is skipped.
-/
theorem drain_pop (shape : s.exitFuncs = above ++ l :: below) (pos : 0 < l.idx)
    : ((l.fnAt (l.idx - 1)).Callable ∧ ∃ l' : Block, l'.idx = l.idx - 1
          ∧ l'.fns.take l'.idx = l.fns.take l'.idx
          ∧ ∀ callEntry fuel, drain callEntry (fuel + 1) (below.length + 1) s
            = (callEntry (l.fnAt (l.idx - 1)) { s with exitFuncs := above ++ l' :: below }).bind
                (drain callEntry fuel (below.length + 1)))
      ∨ (¬ (l.fnAt (l.idx - 1)).Callable
        ∧ ∀ callEntry fuel, drain callEntry (fuel + 1) (below.length + 1) s
          = drain callEntry fuel (below.length + 1)
              { s with exitFuncs := above ++ l.pop :: below }) := by
  have found : Chain.get? s.exitFuncs (below.length + 1) = some l := by
    rw [shape, Chain.get?_append]
  have popped : Chain.modify s.exitFuncs (below.length + 1) Block.pop
      = above ++ l.pop :: below := by
    rw [shape, Chain.modify_append]
  cases flavor : (l.fnAt (l.idx - 1)).flavor with
  | efFree | efUs =>
    refine .inr ⟨by simp [ExitFunction.Callable, flavor], fun _ fuel => ?_⟩
    simp [drain, found, pos, flavor, popped]
  | efOn | efAt =>
    refine .inl ⟨by simp [ExitFunction.Callable, flavor], l.pop, rfl, rfl, fun _ fuel => ?_⟩
    simp [drain, found, pos, flavor, popped]
  | efCxa =>
    refine .inl ⟨by simp [ExitFunction.Callable, flavor],
      l.pop.modifyFn (l.idx - 1) (fun f => { f with flavor := .efFree }), rfl, ?_, fun _ fuel => ?_⟩
    · simp only [Block.pop, Block.modifyFn, Block.setIdx, take_modify]
      exact modify_eq_self (by simp)
    · simp [drain, found, pos, flavor, popped, Exits.freeEntry, Chain.modify_append]

theorem drain_unlink (callEntry : ExitFunction → Exits → Option Exits) (fuel : Nat)
    (shape : s.exitFuncs = above ++ l :: below) (empty : l.idx = 0)
    : drain callEntry (fuel + 1) (below.length + 1) s = if below = [] then
          some { s with
            exitFuncs := []
            unlinked := s.unlinked ++ (above ++ [l])
            exitFuncsDone := true }
        else drain callEntry fuel below.length
          { s with exitFuncs := below, unlinked := s.unlinked ++ (above ++ [l]) } := by
  have found : Chain.get? s.exitFuncs (below.length + 1) = some l := by
    rw [shape, Chain.get?_append]
  have split : above ++ l :: below = (above ++ [l]) ++ below := by simp
  have cut : (above ++ l :: below).length - (below.length + 1 - 1) = (above ++ [l]).length := by
    simp
    omega
  have next : s.unlink (below.length + 1)
      = { s with exitFuncs := below, unlinked := s.unlinked ++ (above ++ [l]) } := by
    rw [Exits.unlink, shape, cut, split, drop_left, take_left]
  simp only [drain, found, Option.bind_some, empty, Nat.lt_irrefl, if_false, next]
  by_cases last : below = []
  · simp only [last, if_true]
  · simp only [last, if_false]

end Drain

theorem Block.take_pop (l : Block) (pos : 0 < l.idx)
    : l.fns.take l.idx = l.fns.take (l.idx - 1) ++ [l.fnAt (l.idx - 1)] := by
  have bound : l.idx - 1 < l.fns.length := by
    have le := l.idxLe
    rw [l.size]
    omega
  have step := take_add_one (l := l.fns) (i := l.idx - 1)
  rw [Nat.sub_add_cancel pos] at step
  rw [step]
  simp [Block.fnAt, getElem?_eq_getElem bound]

/-- Taking the last entry off a block removes it from the uncalled handlers if it is one. -/
theorem Block.live_pop {l : Block} (pos : 0 < l.idx) {l' : Block}
    (idx : l'.idx = l.idx - 1) (kept : l'.fns.take l'.idx = l.fns.take l'.idx)
    : l.live
      = (if (l.fnAt (l.idx - 1)).flavor ≠ .efFree then [l.fnAt (l.idx - 1)] else []) ++ l'.live := by
  rw [Block.live, Block.live, l.take_pop pos, kept, idx]
  by_cases used : (l.fnAt (l.idx - 1)).flavor ≠ .efFree
  · simp [filter_append, used]
  · simp [filter_append, not_not.mp used]

theorem Block.Packed.pop {l : Block} (packed : l.Packed) (pos : 0 < l.idx) {l' : Block}
    (idx : l'.idx = l.idx - 1) (kept : l'.fns.take l'.idx = l.fns.take l'.idx)
    : (l.fnAt (l.idx - 1)).Callable ∧ l'.Packed := by
  refine ⟨packed _ (by simp [l.take_pop pos]), ?_⟩
  intro f member
  rw [kept, idx] at member
  exact packed f (by simp [l.take_pop pos, member])

theorem unlinked_idle {dropped : List Block} {l : Block}
    (clean : ∀ b ∈ dropped, b.live = []) (idle : l.live = [])
    : ∀ b ∈ dropped ++ ([] ++ [l]), b.live = [] := by
  intro b member
  rcases mem_append.mp member with old | new
  · exact clean b old
  · have same : b = l := by simpa using new
    rw [same]
    exact idle

section Packed

variable {calloc : Nat → Bool} (memory : ∀ n, calloc n = true)
  (finalize : Nat → Exits → Option Exits)

include memory

/-- One call of the drain of a packed chain takes the newest handler and pushes what it
registers, in the block being drained if that has the room and above it otherwise.
-/
theorem drain_packed_call {s : Exits} {name : Nat} {fn : Program} {below : List (Nat × Program)}
    (notDone : s.exitFuncsDone = false) (shape : s.exitFuncs = head :: rest) (packed : Packed head rest)
    (pos : 0 < head.idx) (stack : s.stack = (name, fn) :: below) (only : fn.OnlyRegisters)
    : ∃ s' head' rest', (∀ fuel, drain (call calloc finalize) (fuel + 1) (rest.length + 1) s
          = drain (call calloc finalize) fuel (rest.length + 1) s')
        ∧ s'.exitFuncs = head' :: rest'
        ∧ Packed head' rest'
        ∧ s'.exitFuncsDone = false
        ∧ s'.calls.map ExitFunction.name = s.calls.map ExitFunction.name ++ [name]
        ∧ s'.unlinked = s.unlinked
        ∧ s'.stack = fn.pushes ++ below
        ∧ ((below.length % blockSize + fn.pushes.length ≤ blockSize ∧ rest' = rest)
          ∨ (blockSize < below.length % blockSize + fn.pushes.length
            ∧ ∃ above full, head' :: rest' = above ++ full :: rest
              ∧ Chain.pending above ≠ [])) := by
  have atHead : s.exitFuncs = [] ++ head :: rest := shape
  rcases drain_pop atHead pos with
    ⟨_, l', idx, kept, step⟩ | ⟨skipped, _⟩
  · obtain ⟨callable, packed'⟩ := packed.1.pop pos idx kept
    have live := Block.live_pop pos idx kept
    rw [if_pos callable.1, singleton_append] at live
    simp only [Exits.stack, shape, Chain.pending_cons, live, cons_append, map_cons,
      List.cons.injEq] at stack
    obtain ⟨handler, rfl⟩ := stack
    set f := head.fnAt (head.idx - 1) with newest
    obtain ⟨named, rfl⟩ : f.name = name ∧ f.fn = fn := by
      simpa [ExitFunction.handler] using handler
    let s₁ : Exits := { s with exitFuncs := l' :: rest, calls := s.calls ++ [f] }
    have packed₁ : Packed l' rest := ⟨packed', packed.2⟩
    obtain ⟨s', head', rest', run, shape', packed'', done', calls', unlinked', stack', place⟩ :=
      exec_packed memory finalize only (s := s₁) notDone rfl packed₁
    have called : call calloc finalize f { s with exitFuncs := [] ++ l' :: rest } = some s' := run
    have count : (List.map ExitFunction.handler (l'.live ++ Chain.pending rest)).length % blockSize
        = l'.idx := by
      have total := packed₁.pending_length
      have bound := head.idxLe
      rw [Chain.pending_cons] at total
      rw [length_map, total, Nat.add_mul_mod_self_left, Nat.mod_eq_of_lt (by omega)]
    refine ⟨s', head', rest', ?_, shape', packed'', done', ?_, unlinked', stack', ?_⟩
    · intro fuel
      rw [step _ fuel, called, Option.bind_some]
    · simp [calls', s₁, named]
    · rw [count]
      rcases place with ⟨fits, same, _⟩ | above
      · exact .inl ⟨fits, same⟩
      · exact .inr above
  · exact absurd (packed.1.pop pos (show head.pop.idx = head.idx - 1 from rfl) rfl).1 skipped

/-- The drain of a packed chain follows the newest-first run as long as the registrations
of every handler fit; by induction on that run.
-/
theorem drain_fits {stack : List (Nat × Program)} (fits : Fits stack) {s : Exits}
    (only : ∀ h ∈ stack, h.2.OnlyRegisters) (notDone : s.exitFuncsDone = false)
    (shape : s.exitFuncs = head :: rest) (packed : Packed head rest) (pending : s.stack = stack)
    (clean : ∀ b ∈ s.unlinked, b.live = [])
    : ∃ fuel final calls, drain (call calloc finalize) fuel (rest.length + 1) s = some final
        ∧ final.exitFuncsDone = true
        ∧ NewestFirst stack calls
        ∧ final.calls.map ExitFunction.name = s.calls.map ExitFunction.name ++ calls
        ∧ ∀ b ∈ final.unlinked, b.live = [] := by
  induction fits generalizing s head rest with
  | nil =>
    have total := packed.pending_length
    rw [← shape, ← length_map (f := ExitFunction.handler), show
      s.exitFuncs.pending.map ExitFunction.handler = [] from pending] at total
    simp only [length_nil] at total
    have none : rest = [] := by
      rw [← length_eq_zero_iff]
      have size := blockSize_pos
      nlinarith
    subst none
    have idle : head.live = [] := by
      rw [← length_eq_zero_iff, packed.1.live_length]
      omega
    refine ⟨1, _, [], drain_unlink _ 0 (show s.exitFuncs = [] ++ head :: [] from shape)
      (by omega), rfl, .nil, by simp, unlinked_idle clean idle⟩
  | @call name fn below room later ih =>
    -- a first block that still has handlers makes one call of the run
    have onHandler {s : Exits} {head : Block} {rest : Chain}
        (notDone : s.exitFuncsDone = false) (shape : s.exitFuncs = head :: rest)
        (packed : Packed head rest) (pending : s.stack = (name, fn) :: below)
        (clean : ∀ b ∈ s.unlinked, b.live = []) (pos : 0 < head.idx)
        : ∃ fuel final calls, drain (call calloc finalize) fuel (rest.length + 1) s = some final
            ∧ final.exitFuncsDone = true
            ∧ NewestFirst ((name, fn) :: below) calls
            ∧ final.calls.map ExitFunction.name = s.calls.map ExitFunction.name ++ calls
            ∧ ∀ b ∈ final.unlinked, b.live = [] := by
      have onlyFn : fn.OnlyRegisters := only (name, fn) (by simp)
      obtain ⟨s', head', rest', step, shape', packed', done', calls', unlinked', stack', place⟩ :=
        drain_packed_call memory finalize notDone shape packed pos pending onlyFn
      obtain ⟨_, rfl⟩ : _ ∧ rest' = rest := by
        rcases place with here | ⟨beyond, _⟩
        · exact here
        · omega
      have onlyNext : ∀ h ∈ fn.pushes ++ below, h.2.OnlyRegisters := by
        intro h member
        rcases mem_append.mp member with new | old
        · exact onlyFn.of_pushes h new
        · exact only h (by simp [old])
      obtain ⟨fuel, final, calls, run, done, order, log, clean'⟩ :=
        ih onlyNext done' shape' packed' stack' (unlinked' ▸ clean)
      refine ⟨fuel + 1, final, name :: calls, (step fuel).trans run, done, .call order, ?_, clean'⟩
      rw [log, calls']
      simp
    rcases Nat.eq_zero_or_pos head.idx with empty | pos
    · have idle : head.live = [] := by
        rw [← length_eq_zero_iff, packed.1.live_length, empty]
      cases rest with
      | nil => simp [Exits.stack, shape, idle] at pending
      | cons next older =>
        have full := packed.2 next (by simp)
        have unlink := fun fuel => drain_unlink (call calloc finalize) fuel
          (show s.exitFuncs = [] ++ head :: next :: older from shape) empty
        obtain ⟨fuel, final, calls, run, rest⟩ := onHandler (s := { s with
            exitFuncs := next :: older, unlinked := s.unlinked ++ ([] ++ [head]) })
          notDone rfl ⟨full.1, fun b member => packed.2 b (by simp [member])⟩
          (by simpa [Exits.stack, shape, idle] using pending)
          (unlinked_idle clean idle) (by rw [full.2]; decide)
        refine ⟨fuel + 1, final, calls, ?_, rest⟩
        rw [unlink fuel]
        exact run
    · exact onHandler notDone shape packed pending clean pos

end Packed

/-- Some block above `below` holds a handler, and no handler finalizes anything. -/
structure Stranding (s : Exits) (above below : Chain) : Prop where
  shape : s.exitFuncs = above ++ below
  busy : above.pending ≠ []
  notDone : s.exitFuncsDone = false
  only : ∀ f ∈ s.exitFuncs.pending, f.fn.OnlyRegisters

/-- A body that only registers leaves the stranded blocks behind new ones. -/
theorem exec_stranding {p : Program} (only : p.OnlyRegisters) {s s' : Exits} {above below : Chain}
    (stranding : Stranding s above below) (run : exec calloc finalize p s = some s')
    : ∃ above', Stranding s' above' below := by
  induction p generalizing s above with
  | ret =>
    cases run
    exact ⟨above, stranding⟩
  | cxaFinalize d next => exact False.elim only
  | register registrar name fn next _ ih =>
    have listp : registrar.listp = .exitFuncs := by
      cases registrar with
      | cxaAtQuickExit d => exact absurd rfl (only.1 d)
      | _ => rfl
    obtain ⟨r, registered, later⟩ := Option.bind_eq_some_iff.mp run
    have used := fun r => (Registrar.fill_callable registrar name fn r).1
    obtain ⟨above', entry, added, busy, pending, filled⟩ :=
      Chain.add_above (calloc s.attempts) used stranding.busy below
    have next : Stranding r.2 above' below := by
      have frame := register_frame registered
      simp only [register_eq, Exits.addExitFunction, stranding.notDone, listp, Exits.list,
        stranding.shape, added, Bool.false_eq_true, if_false, Option.map_some,
        Option.some.injEq] at registered
      have shape : r.2.exitFuncs = above' ++ below := by
        subst registered
        cases entry <;> rfl
      refine ⟨shape, busy, frame.done.trans stranding.notDone, ?_⟩
      intro f member
      rw [shape, pending] at member
      rcases mem_append.mp member with new | old
      · obtain ⟨r, rfl⟩ := filled f (by simpa using new)
        have handler := Registrar.fill_handler registrar name fn r
        rw [show (registrar.fill name fn r).fn = fn from congrArg Prod.snd handler]
        exact only.2.1
      · exact stranding.only f (stranding.shape ▸ old)
    exact ih only.2.2 next later

private theorem drain_unlinked {callEntry : ExitFunction → Exits → Option Exits}
    (inner : ∀ {f s s'}, callEntry f s = some s' → Frame s s') {fuel cur : Nat}
    {s final : Exits} (run : drain callEntry fuel cur s = some final)
    : s.unlinked ⊆ final.unlinked := by
  induction fuel generalizing cur s with
  | zero => cases run
  | succ fuel ih =>
    obtain ⟨l, _, run⟩ := Option.bind_eq_some_iff.mp run
    split at run
    · have called {f : ExitFunction} {s₁ : Exits} (same : s₁.unlinked = s.unlinked)
          (run : (callEntry f s₁).bind (drain callEntry fuel cur) = some final)
          : s.unlinked ⊆ final.unlinked := by
        obtain ⟨s₂, one, run⟩ := Option.bind_eq_some_iff.mp run
        have kept := ih run
        rw [(inner one).unlinked, same] at kept
        exact kept
      simp only at run
      split at run
      · have kept := ih run
        exact kept
      · have kept := ih run
        exact kept
      all_goals
        apply called _ run
        rfl
    · have grown : s.unlinked ⊆ (s.unlink cur).unlinked := subset_append_left _ _
      simp only at run
      split at run
      · cases run
        exact grown
      · exact List.Subset.trans grown (ih run)

/-- Once a block above `cur` holds a handler, the drain drops it uncalled: what is called
meanwhile only registers, which leaves that block where it is; by induction on the drain.
-/
theorem drain_strands (inner : ∀ {d s s'}, finalize d s = some s' → Frame s s') {fuel : Nat}
    {s final : Exits} {above below : Chain} {l : Block} (stranding : Stranding s above (l :: below))
    (run : drain (call calloc finalize) fuel (below.length + 1) s = some final)
    : ∃ b ∈ final.unlinked, b.live ≠ [] := by
  induction fuel generalizing s above l with
  | zero => cases run
  | succ fuel ih =>
    -- an entry taken from the block being drained leaves the handlers above it
    have taken {l' : Block} (sub : l'.live ⊆ l.live)
        : Stranding { s with exitFuncs := above ++ l' :: below } above (l' :: below) := by
      refine ⟨rfl, stranding.busy, stranding.notDone, ?_⟩
      intro f member
      apply stranding.only f
      rw [stranding.shape]
      simp only [Chain.pending_append, Chain.pending_cons, mem_append] at member ⊢
      exact member.imp_right (Or.imp_left (fun h => sub h))
    rcases Nat.eq_zero_or_pos l.idx with empty | pos
    · rw [drain_unlink _ fuel stranding.shape empty] at run
      obtain ⟨b, member, busy⟩ : ∃ b ∈ above, b.live ≠ [] := by
        by_contra none
        simp only [not_exists, not_and, not_not] at none
        exact stranding.busy (flatMap_eq_nil_iff.mpr none)
      refine ⟨b, ?_, busy⟩
      split at run
      · cases run
        simp [member]
      · exact drain_unlinked (call_frame inner) run (by simp [member])
    · rcases drain_pop stranding.shape pos with
        ⟨callable, l', idx, kept, step⟩ | ⟨_, step⟩
      · have live := Block.live_pop pos idx kept
        rw [if_pos callable.1] at live
        have sub : l'.live ⊆ l.live := by
          rw [live]
          exact subset_cons_self _ _
        rw [step _ fuel] at run
        obtain ⟨s₁, called, run⟩ := Option.bind_eq_some_iff.mp run
        have start : Stranding { s with
            exitFuncs := above ++ l' :: below
            calls := s.calls ++ [l.fnAt (l.idx - 1)] } above (l' :: below) := by
          have kept := taken sub
          exact ⟨kept.shape, kept.busy, kept.notDone, kept.only⟩
        have only : (l.fnAt (l.idx - 1)).fn.OnlyRegisters := by
          apply stranding.only
          simp [stranding.shape, live]
        obtain ⟨above', stranding'⟩ := exec_stranding only start called
        exact ih stranding' run
      · have sub : l.pop.live ⊆ l.live := by
          rw [Block.live_pop pos (show l.pop.idx = l.idx - 1 from rfl) rfl]
          exact subset_append_right _ _
        rw [step _ fuel] at run
        exact ih (taken sub) run

section

variable (memory : ∀ n, calloc n = true)
include memory

/-- A stack on which some handler does not fit makes the drain of its chain drop a block
with a handler; by induction on the drain up to that handler.
-/
theorem drain_not_fits (inner : ∀ {d s s'}, finalize d s = some s' → Frame s s') {fuel : Nat}
    {s final : Exits} (misfit : ¬ Fits s.stack) (only : ∀ h ∈ s.stack, h.2.OnlyRegisters)
    (notDone : s.exitFuncsDone = false) (shape : s.exitFuncs = head :: rest) (packed : Packed head rest)
    (run : drain (call calloc finalize) fuel (rest.length + 1) s = some final)
    : ∃ b ∈ final.unlinked, b.live ≠ [] := by
  induction fuel generalizing s head rest with
  | zero => cases run
  | succ fuel ih =>
    rcases Nat.eq_zero_or_pos head.idx with empty | pos
    · have idle : head.live = [] := by
        rw [← length_eq_zero_iff, packed.1.live_length, empty]
      rw [drain_unlink _ fuel (show s.exitFuncs = [] ++ head :: rest from shape) empty] at run
      cases rest with
      | nil => exact absurd (by simpa [Exits.stack, shape, idle] using Fits.nil) misfit
      | cons next older =>
        let s₁ : Exits := { s with
          exitFuncs := next :: older, unlinked := s.unlinked ++ ([] ++ [head]) }
        have same : s₁.stack = s.stack := by
          simp [Exits.stack, shape, idle, s₁]
        have full := packed.2 next (by simp)
        have behind : Packed next older :=
          ⟨full.1, fun b member => packed.2 b (mem_cons_of_mem _ member)⟩
        exact ih (s := s₁) (same ▸ misfit) (same ▸ only) notDone rfl behind run
    · cases stack : s.stack with
      | nil => exact absurd (stack ▸ Fits.nil) misfit
      | cons newest below =>
        obtain ⟨name, fn⟩ := newest
        have onlyFn : fn.OnlyRegisters := only (name, fn) (by simp [stack])
        obtain ⟨s', head', rest', step, shape', packed', done', _, _, stack', place⟩ :=
          drain_packed_call memory finalize notDone shape packed pos stack onlyFn
        have onlyNext : ∀ h ∈ s'.stack, h.2.OnlyRegisters := by
          intro h member
          rw [stack'] at member
          rcases mem_append.mp member with new | old
          · exact onlyFn.of_pushes h new
          · exact only h (by simp [stack, old])
        rw [step fuel] at run
        rcases place with ⟨room, rfl⟩ | ⟨_, above, full, split, busy⟩
        · refine ih ?_ onlyNext done' shape' packed' run
          intro fits
          exact misfit (stack ▸ Fits.call room (stack' ▸ fits))
        · have stranding : Stranding s' above (full :: rest) := ⟨shape'.trans split, busy, done',
              fun f member => onlyNext f.handler (mem_map_of_mem member)⟩
          exact drain_strands inner stranding run

/-- At its call of `exit`, a program that only registers has its handlers in a packed chain.
-/
theorem exec_main (finalize : Nat → Exits → Option Exits) {main : Program} (only : main.OnlyRegisters)
    : ∃ s head rest, exec calloc finalize main .initial = some s ∧ s.exitFuncs = head :: rest
        ∧ Packed head rest
        ∧ s.exitFuncsDone = false
        ∧ s.calls = []
        ∧ s.unlinked = []
        ∧ s.stack = main.pushes := by
  have packed : Packed Block.zero [] := ⟨Block.zero_packed, by simp⟩
  obtain ⟨s, head, rest, run, shape, packed', done, calls, unlinked, stack, _⟩ :=
    exec_packed memory finalize only (s := .initial) rfl rfl packed
  refine ⟨s, head, rest, run, shape, packed', done, calls, unlinked, ?_⟩
  rw [stack]
  simp [Exits.stack, Exits.initial, Block.live, Block.zero]

theorem drainsNewestFirst_of_fits {main : Program} (only : main.OnlyRegisters) (fits : Fits main.pushes)
    : DrainsNewestFirst calloc main := by
  obtain ⟨s, head, rest, run, shape, packed, done, calls, unlinked, stack⟩ :=
    exec_main memory (cxaFinalize calloc 0) only
  obtain ⟨fuel, final, order, drained, done', newest, log, clean⟩ :=
    drain_fits memory (cxaFinalize calloc 0) fits only.of_pushes done shape packed stack
      (by simp [unlinked])
  refine ⟨0, fuel, s, final, run, ?_, done', ?_, clean⟩
  · rw [runExitHandlers, shape]
    exact drained
  · rw [log, calls]
    exact newest

theorem fits_of_drainsNewestFirst {main : Program} (only : main.OnlyRegisters)
    (drains : DrainsNewestFirst calloc main)
    : Fits main.pushes := by
  obtain ⟨depth, fuel, atExit, final, ran, drained, _, _, clean⟩ := drains
  obtain ⟨s, head, rest, run, shape, packed, done, _, _, stack⟩ :=
    exec_main memory (cxaFinalize calloc depth) only
  obtain rfl : s = atExit := Option.some.inj (run.symm.trans ran)
  by_contra misfit
  rw [runExitHandlers] at drained
  obtain ⟨b, member, busy⟩ := drain_not_fits memory cxaFinalize_frame (stack ▸ misfit)
    (stack ▸ only.of_pushes) done shape packed (by simpa [shape] using drained)
  exact busy (clean b member)

end

/-- With memory for every registration, `__run_exit_handlers` calls all handlers exactly once
and newest first, and drops no block that holds one, exactly for the programs in whose
newest-first run the registrations of every handler fit in the block being drained.
-/
theorem runExitHandlers_newestFirst_iff {calloc : Nat → Bool} (memory : ∀ n, calloc n = true)
    {main : Program} (only : main.OnlyRegisters)
    : DrainsNewestFirst calloc main ↔ Fits main.pushes :=
  ⟨fits_of_drainsNewestFirst memory only, drainsNewestFirst_of_fits memory only⟩

/-- A program that registers `n` handlers which do nothing. -/
def registersIdle : Nat → Program
  | 0 => .ret
  | n + 1 => .register (.atexit 0) n .ret (registersIdle n)

theorem runExitHandlers_nested_two
    : (∀ n, (fun _ : Nat => true) n = true)
      ∧ (Program.register (.onExit 7) 100 (registersIdle 2) .ret).OnlyRegisters
      ∧ DrainsNewestFirst (fun _ => true) (.register (.onExit 7) 100 (registersIdle 2) .ret) := by
  have only : (Program.register (.onExit 7) 100 (registersIdle 2) .ret).OnlyRegisters := by
    simp [Program.OnlyRegisters, registersIdle]
  refine ⟨fun _ => rfl, only, (runExitHandlers_newestFirst_iff (fun _ => rfl) only).mpr ?_⟩
  exact .call (by decide) (.call (by decide) (.call (by decide) .nil))

theorem runExitHandlers_drops_handler
    : ¬ DrainsNewestFirst (fun _ => true) (.register (.atexit 0) 100 (registersIdle 33) .ret) := by
  intro drains
  have only : (Program.register (.atexit 0) 100 (registersIdle 33) .ret).OnlyRegisters := by
    simp [Program.OnlyRegisters, registersIdle]
  have fits := fits_of_drainsNewestFirst (fun _ => rfl) only drains
  cases fits with
  | call room _ => exact absurd room (by decide)

end Nglibc.Exit
