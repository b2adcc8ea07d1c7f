import Nglibc.Exit.PendingModel
import Nglibc.Exit.NewestFirst

/-! `__cxa_finalize` refines the finalization of pending handlers. The scan keeps its place
only across calls that register nothing, so what it has passed never comes back; the counter
tells such calls apart as long as it cannot wrap around within one call.
-/

namespace Nglibc.Exit

open List

/-! Budgets -/

def Program.registrations : Program → Nat
  | .ret => 0
  | .register _ _ fn next => 1 + fn.registrations + next.registrations
  | .cxaFinalize _ next => next.registrations

def budget (handlers : List ExitFunction) : Nat := (handlers.map (fun f => f.fn.registrations)).sum

@[simp] theorem budget_nil : budget [] = 0 := rfl

@[simp] theorem budget_cons (f : ExitFunction) (rest : List ExitFunction)
    : budget (f :: rest) = f.fn.registrations + budget rest := by
  simp [budget]

@[simp] theorem budget_append (left right : List ExitFunction)
    : budget (left ++ right) = budget left + budget right := by
  simp [budget]

/-- The registrations the pending handlers can still lead to. -/
def Exits.budget (s : Exits) : Nat := Exit.budget s.exitFuncs.pending

/-- The calls the pending handlers can still lead to. -/
def Exits.work (s : Exits) : Nat := s.exitFuncs.pending.length + s.budget

def Exits.view (s : Exits) : Pending where
  pending := s.exitFuncs.pending
  registered := s.registered
  calls := s.calls

/-! What happens without registrations -/

/-- The entries stay in place, some of them freed. -/
structure Block.Shrinks (b b' : Block) : Prop where
  idx : b'.idx = b.idx
  entries : ∀ i, b'.fnAt i = b.fnAt i ∨ (b'.fnAt i).flavor = .efFree

def Chain.Shrinks (chain chain' : Chain) : Prop := List.Forall₂ Block.Shrinks chain chain'

theorem Block.Shrinks.refl (b : Block) : b.Shrinks b := ⟨rfl, fun _ => .inl rfl⟩

theorem Block.Shrinks.trans {b₁ b₂ b₃ : Block} (left : b₁.Shrinks b₂) (right : b₂.Shrinks b₃)
    : b₁.Shrinks b₃ := by
  refine ⟨right.idx.trans left.idx, ?_⟩
  intro i
  rcases right.entries i with same | freed
  · rw [same]
    exact left.entries i
  · exact .inr freed

theorem Chain.Shrinks.refl (chain : Chain) : chain.Shrinks chain := by
  induction chain with
  | nil => exact .nil
  | cons b rest ih => exact .cons (.refl b) ih

theorem Chain.Shrinks.trans {c₁ c₂ c₃ : Chain} (left : c₁.Shrinks c₂) (right : c₂.Shrinks c₃)
    : c₁.Shrinks c₃ := by
  induction left generalizing c₃ with
  | nil => exact right
  | cons first _ ih =>
    cases right with
    | cons second rest => exact .cons (first.trans second) (ih rest)

theorem Chain.Shrinks.append {left left' right right' : Chain} (one : left.Shrinks left')
    (two : right.Shrinks right')
    : Chain.Shrinks (left ++ right) (left' ++ right') := by
  induction one with
  | nil => exact two
  | cons first _ ih => exact .cons first ih

theorem Chain.Shrinks.split {left right chain : Chain} (shrinks : Chain.Shrinks (left ++ right) chain)
    : ∃ left' right', chain = left' ++ right' ∧ left.Shrinks left' ∧ right.Shrinks right' := by
  induction left generalizing chain with
  | nil => exact ⟨[], chain, rfl, .nil, shrinks⟩
  | cons b rest ih =>
    cases shrinks with
    | cons first more =>
      obtain ⟨left', right', rfl, one, two⟩ := ih more
      exact ⟨_, right', rfl, .cons first one, two⟩

variable {calloc : Nat → Bool} {b : Block} {d : Nat}

theorem Block.mem_live_iff {g : ExitFunction}
    : g ∈ b.live ↔ (∃ i, i < b.idx ∧ b.fnAt i = g) ∧ g.flavor ≠ .efFree := by
  have le := b.idxLe
  have size := b.size
  rw [Block.live, mem_reverse, mem_filter, mem_take_iff_getElem]
  simp only [decide_eq_true_eq]
  refine and_congr_left (fun _ => ⟨?_, ?_⟩)
  · rintro ⟨i, bound, rfl⟩
    exact ⟨i, by omega, by simp [Block.fnAt, getElem?_eq_getElem (show i < b.fns.length by omega)]⟩
  · rintro ⟨i, bound, rfl⟩
    exact ⟨i, by omega, by simp [Block.fnAt, getElem?_eq_getElem (show i < b.fns.length by omega)]⟩

theorem Block.Shrinks.live_subset {b b' : Block} (shrinks : b.Shrinks b') : b'.live ⊆ b.live := by
  intro g member
  obtain ⟨⟨i, bound, rfl⟩, used⟩ := Block.mem_live_iff.mp member
  rcases shrinks.entries i with same | freed
  · rw [same] at used ⊢
    exact Block.mem_live_iff.mpr ⟨⟨i, shrinks.idx ▸ bound, rfl⟩, used⟩
  · exact absurd freed used

theorem Chain.Shrinks.pending_subset {chain chain' : Chain} (shrinks : chain.Shrinks chain')
    : chain'.pending ⊆ chain.pending := by
  induction shrinks with
  | nil => exact List.Subset.refl _
  | cons first _ ih =>
    intro g member
    rcases mem_append.mp member with here | there
    · exact mem_append_left _ (first.live_subset here)
    · exact mem_append_right _ (ih there)

/-- Freeing a used entry removes exactly it from the uncalled handlers of its block. -/
theorem Block.live_free {i : Nat} (bound : i < b.idx) (used : (b.fnAt i).flavor ≠ .efFree)
    : ∃ newer older, b.live = newer ++ b.fnAt i :: older
        ∧ (b.modifyFn i (fun f => { f with flavor := .efFree })).live = newer ++ older
        ∧ ∀ g ∈ newer, ∃ j, i < j ∧ j < b.idx ∧ b.fnAt j = g := by
  have le := b.idxLe
  have size := b.size
  have inside : i < (b.fns.take b.idx).length := by
    rw [length_take]
    omega
  have entry : (b.fns.take b.idx)[i] = b.fnAt i := by
    rw [getElem_take, Block.fnAt, getD_eq_getElem?_getD,
      getElem?_eq_getElem (by omega), Option.getD_some]
  have split : b.fns.take b.idx
      = (b.fns.take b.idx).take i ++ b.fnAt i :: (b.fns.take b.idx).drop (i + 1) := by
    rw [← entry, ← drop_eq_getElem_cons inside, take_append_drop]
  have freed : (b.fns.modify i (fun f => { f with flavor := Flavor.efFree })).take b.idx
      = (b.fns.take b.idx).take i
        ++ { b.fnAt i with flavor := .efFree } :: (b.fns.take b.idx).drop (i + 1) := by
    rw [take_modify, modify_eq_take_cons_drop inside, entry]
  refine ⟨(((b.fns.take b.idx).drop (i + 1)).filter (fun f => f.flavor ≠ .efFree)).reverse,
    (((b.fns.take b.idx).take i).filter (fun f => f.flavor ≠ .efFree)).reverse, ?_, ?_, ?_⟩
  · rw [Block.live, congrArg (List.filter _) split, filter_append,
      filter_cons_of_pos (by simpa using used)]
    simp only [reverse_append, reverse_cons, append_assoc, singleton_append]
  · simp only [Block.live, Block.modifyFn]
    rw [freed, filter_append, filter_cons_of_neg (by simp), reverse_append]
  · intro g member
    rw [mem_reverse, mem_filter] at member
    obtain ⟨k, bound', rfl⟩ := mem_iff_getElem.mp member.1
    rw [length_drop, length_take] at bound'
    refine ⟨i + 1 + k, by omega, by omega, ?_⟩
    rw [getElem_drop, getElem_take, Block.fnAt, getD_eq_getElem?_getD,
      getElem?_eq_getElem (by omega), Option.getD_some]

theorem Block.fnAt_free (b : Block) (i j : Nat)
    : (b.modifyFn i (fun f => { f with flavor := .efFree })).fnAt j
      = if i = j then { b.fnAt j with flavor := .efFree } else b.fnAt j := by
  simp only [Block.fnAt, Block.modifyFn, getD_eq_getElem?_getD, getElem?_modify]
  by_cases same : i = j
  · subst same
    cases b.fns[i]? <;> simp [ExitFunction.zero]
  · simp [same]

theorem Block.shrinks_free (b : Block) (i : Nat)
    : b.Shrinks (b.modifyFn i (fun f => { f with flavor := .efFree })) := by
  refine ⟨rfl, ?_⟩
  intro j
  rw [Block.fnAt_free]
  by_cases same : i = j
  · exact .inr (by simp [same])
  · exact .inl (by simp [same])

/-! Accounts of registrations -/

/-- Both lists have a block and the counter is a `uint64_t`. -/
structure Ready (s : Exits) : Prop where
  exitFuncs : s.exitFuncs ≠ []
  quickExitFuncs : s.quickExitFuncs ≠ []
  counter : s.newExitfnCalled < 2 ^ 64

/-- Something with `cost` registrations in its code made `n` of them: what the pending
handlers can still lead to stays within the budget, and without a registration the entries
stay in place.
-/
structure Account (cost : Nat) (s s' : Exits) (n : Nat) : Prop where
  counter : s'.newExitfnCalled = (s.newExitfnCalled + n) % 2 ^ 64
  budget : n + s'.budget ≤ s.budget + cost
  work : s'.work ≤ s.work + cost
  blocks : s.exitFuncs.length ≤ s'.exitFuncs.length
  still : n = 0 → s.exitFuncs.Shrinks s'.exitFuncs

theorem Account.refl {s : Exits} (ready : Ready s) : Account 0 s s 0 where
  counter := (Nat.mod_eq_of_lt ready.counter).symm
  budget := by omega
  work := by omega
  blocks := le_rfl
  still := fun _ => .refl _

theorem Account.trans {cost cost' n n' : Nat} {s₁ s₂ s₃ : Exits}
    (first : Account cost s₁ s₂ n) (second : Account cost' s₂ s₃ n')
    : Account (cost + cost') s₁ s₃ (n + n') where
  counter := by
    rw [second.counter, first.counter]
    omega
  budget := by
    have one := first.budget
    have two := second.budget
    omega
  work := by
    have one := first.work
    have two := second.work
    omega
  blocks := first.blocks.trans second.blocks
  still := by
    intro none
    exact (first.still (by omega)).trans (second.still (by omega))

theorem Account.idle {s s' : Exits} (ready : Ready s) (cost : Nat)
    (chain : s'.exitFuncs = s.exitFuncs) (counter : s'.newExitfnCalled = s.newExitfnCalled)
    : Account cost s s' 0 where
  counter := by
    rw [counter, Nat.add_zero, Nat.mod_eq_of_lt ready.counter]
  budget := by
    simp only [Exits.budget, chain]
    omega
  work := by
    simp only [Exits.work, Exits.budget, chain]
    omega
  blocks := by rw [chain]
  still := fun _ => chain ▸ .refl _

/-- A task refines its model and keeps to its account. -/
structure Sound (task : Task) (cost : Nat) (s s' : Exits) : Prop where
  steps : Steps task s.view s'.view
  account : ∃ n, Account cost s s' n
  ready : Ready s'

variable {s : Exits}

/-- A registration succeeds or changes nothing that is pending, in either list. -/
theorem register_sound (calloc : Nat → Bool) (ready : Ready s) (registrar : Registrar) (name : Nat)
    (fn : Program)
    : ∃ r, register calloc registrar name fn s = some r ∧ Ready r.2
      ∧ (∃ n, Account (1 + fn.registrations) s r.2 n)
      ∧ (r.2.view = s.view ∨ (registrar.listp = .exitFuncs ∧ ∃ new, r.2.view = { s.view with
              pending := registrar.fill name fn new :: s.view.pending
              registered := s.view.registered ++ [registrar.fill name fn new] })) := by
  have used := fun r => (Registrar.fill_callable registrar name fn r).1
  rw [register_eq]
  cases done : s.exitFuncsDone with
  | true =>
    refine ⟨(-1, { s with attempts := s.attempts + 1 }), by simp [Exits.addExitFunction, done],
      ⟨ready.1, ready.2, ready.3⟩, ⟨0, .idle ready _ rfl rfl⟩, .inl rfl⟩
  | false =>
    cases listp : registrar.listp with
    | exitFuncs =>
      rcases Chain.add_spec (calloc s.attempts) used ready.exitFuncs with
        ⟨chain, new, added, pending, size, some⟩ | ⟨_, failed⟩
      · refine ⟨(0, { s with
            attempts := s.attempts + 1
            exitFuncs := chain
            newExitfnCalled := (s.newExitfnCalled + 1) % 2 ^ 64
            registered := s.registered ++ [registrar.fill name fn new] }),
          by simp [Exits.addExitFunction, done, Exits.list, Exits.setList, added],
          ⟨some, ready.2, Nat.mod_lt _ (by decide)⟩, ⟨1, ⟨rfl, ?_, ?_, size, by simp⟩⟩,
          .inr ⟨rfl, new, by simp [Exits.view, pending]⟩⟩
        all_goals
          have code : (registrar.fill name fn new).fn = fn :=
            congrArg Prod.snd (Registrar.fill_handler registrar name fn new)
          simp only [Exits.work, Exits.budget, pending, budget_cons, code, length_cons]
          omega
      · exact ⟨(-1, { s with attempts := s.attempts + 1 }),
          by simp [Exits.addExitFunction, done, Exits.list, Exits.setList, failed],
          ⟨ready.1, ready.2, ready.3⟩, ⟨0, .idle ready _ rfl rfl⟩, .inl rfl⟩
    | quickExitFuncs =>
      rcases Chain.add_spec (calloc s.attempts) used ready.quickExitFuncs with
        ⟨chain, new, added, _, _, some⟩ | ⟨_, failed⟩
      · refine ⟨(0, { s with
            attempts := s.attempts + 1
            quickExitFuncs := chain
            newExitfnCalled := (s.newExitfnCalled + 1) % 2 ^ 64 }),
          by simp [Exits.addExitFunction, done, Exits.list, Exits.setList, added],
          ⟨ready.1, some, Nat.mod_lt _ (by decide)⟩,
          ⟨1, ⟨rfl, ?_, ?_, le_rfl, by simp⟩⟩, .inl rfl⟩
        all_goals
          simp only [Exits.work, Exits.budget]
          omega
      · exact ⟨(-1, { s with attempts := s.attempts + 1 }),
          by simp [Exits.addExitFunction, done, Exits.list, Exits.setList, failed],
          ⟨ready.1, ready.2, ready.3⟩, ⟨0, .idle ready _ rfl rfl⟩, .inl rfl⟩

/-- With enough fuel a run ends, in a state that refines the task and keeps to its account. -/
def Settles (task : Task) (cost : Nat) (s : Exits) (run : Nat → Option Exits) : Prop :=
  ∃ s' enough, Sound task cost s s' ∧ ∀ fuel, enough ≤ fuel → run fuel = some s'

/-- `__cxa_finalize` settles wherever the pending handlers lead to less than `work` calls. -/
def FinalizeSettles (calloc : Nat → Bool) (work : Nat) : Prop :=
  ∀ d s, Ready s → s.budget < 2 ^ 64 → s.work < work
    → Settles (.finalize d) 0 s (fun fuel => cxaFinalize calloc fuel d s)

/-- A program settles if the `__cxa_finalize` calls it makes do, by induction on the program. -/
theorem exec_settles {work : Nat} (inner : FinalizeSettles calloc work) (p : Program) (ready : Ready s)
    (bound : s.budget + p.registrations < 2 ^ 64) (less : s.work + p.registrations < work)
    : Settles (.run p) p.registrations s
        (fun depth => exec calloc (cxaFinalize calloc depth) p s) := by
  induction p generalizing s with
  | ret => exact ⟨s, 0, ⟨.ret, ⟨0, .refl ready⟩, ready⟩, fun _ _ => rfl⟩
  | register registrar name fn next _ ih =>
    obtain ⟨r, registered, ready', ⟨n, account⟩, view⟩ :=
      register_sound calloc ready registrar name fn
    have cost := account.budget
    have calls := account.work
    simp only [Program.registrations] at bound less ⊢
    obtain ⟨s', enough, ⟨steps, ⟨n', account'⟩, ready''⟩, run⟩ := ih ready' (by omega) (by omega)
    refine ⟨s', enough, ⟨?_, ⟨n + n', account.trans account'⟩, ready''⟩, ?_⟩
    · rcases view with same | ⟨listp, new, pushed⟩
      · exact .notRegistered (same ▸ steps)
      · exact .register new listp (pushed ▸ steps)
    · intro depth le
      simp only [exec, registered, Option.bind_some]
      exact run depth le
  | cxaFinalize d next ih =>
    simp only [Program.registrations] at bound less ⊢
    obtain ⟨s₁, enough₁, ⟨steps, ⟨n, account⟩, ready'⟩, run₁⟩ :=
      inner d s ready (by omega) (by omega)
    have cost := account.budget
    have calls := account.work
    obtain ⟨s', enough, ⟨steps', ⟨n', account'⟩, ready''⟩, run⟩ := ih ready' (by omega) (by omega)
    refine ⟨s', max enough₁ enough, ⟨.cxaFinalize steps steps',
      ⟨n + n', by simpa using account.trans account'⟩, ready''⟩, ?_⟩
    intro depth le
    simp only [exec, run₁ depth (by omega), Option.bind_some]
    exact run depth (by omega)

/-! The scan -/

/-- What a scan for `d` has passed before it comes to the entry `f - 1` of the block `funcs`
holds no handler of `d`.
-/
structure Scanned (d : Nat) (chain : Chain) (newer rest : Chain) (f : Nat) : Prop where
  split : chain = newer ++ rest
  passed : ∀ g ∈ newer.pending, matchesHandle d g = false
  current : ∀ b older, rest = b :: older
    → f ≤ b.idx ∧ ∀ i, f ≤ i → i < b.idx → matchesHandle d (b.fnAt i) = false

theorem Chain.idxAt_cons (newer : Chain) (b : Block) (older : Chain)
    : Chain.idxAt (newer ++ b :: older) (older.length + 1) = b.idx := by
  simp [Chain.idxAt, Chain.get?_append]

theorem Scanned.start {newer : Chain} (rest : Chain)
    (passed : ∀ g ∈ newer.pending, matchesHandle d g = false)
    : Scanned d (newer ++ rest) newer rest ((newer ++ rest).idxAt rest.length) := by
  refine ⟨rfl, passed, ?_⟩
  rintro b older rfl
  rw [length_cons, Chain.idxAt_cons]
  exact ⟨le_rfl, fun i le lt => by omega⟩

theorem Scanned.head (d : Nat) (chain : Chain)
    : Scanned d chain [] chain (chain.idxAt chain.length) := by
  have none : ∀ g ∈ Chain.pending [], matchesHandle d g = false := by simp
  exact Scanned.start chain none

variable {f : ExitFunction}

theorem matchesHandle_flavor (hit : matchesHandle d f = true)
    : f.flavor = .efCxa := by
  simp only [matchesHandle, decide_eq_true_eq] at hit
  exact hit.2

theorem matchesHandle_free (freed : f.flavor = .efFree)
    : matchesHandle d f = false := by
  simp [matchesHandle, freed]

theorem Block.live_passed (passed : ∀ i, i < b.idx → matchesHandle d (b.fnAt i) = false)
    : ∀ g ∈ b.live, matchesHandle d g = false := by
  intro g member
  obtain ⟨⟨i, bound, rfl⟩, _⟩ := Block.mem_live_iff.mp member
  exact passed i bound

/-- Freed entries match no handle, so a scan keeps its place while nothing is registered. -/
theorem Scanned.shrink {chain chain' newer rest : Chain} {f : Nat} (scanned : Scanned d chain newer rest f)
    (shrinks : chain.Shrinks chain')
    : ∃ newer' rest', Scanned d chain' newer' rest' f ∧ rest'.length = rest.length := by
  rw [scanned.split] at shrinks
  obtain ⟨newer', rest', rfl, left, right⟩ := shrinks.split
  have kept {b b' : Block} (one : b.Shrinks b') {i : Nat}
      (miss : matchesHandle d (b.fnAt i) = false)
      : matchesHandle d (b'.fnAt i) = false := by
    rcases one.entries i with same | freed
    · rw [same]
      exact miss
    · exact matchesHandle_free freed
  refine ⟨newer', rest', ⟨rfl, ?_, ?_⟩, right.length_eq.symm⟩
  · intro g member
    exact scanned.passed g (left.pending_subset member)
  · rintro b' older' rfl
    cases right with
    | cons one _ =>
      obtain ⟨le, miss⟩ := scanned.current _ _ rfl
      rw [one.idx]
      exact ⟨le, fun i from_ lt => kept one (miss i from_ lt)⟩

theorem Scanned.hit {chain newer older : Chain} {f : Nat}
    (scanned : Scanned d chain newer (b :: older) (f + 1)) (hit : matchesHandle d (b.fnAt f) = true)
    : ∃ before after, chain.pending = before ++ b.fnAt f :: after
        ∧ (∀ g ∈ before, matchesHandle d g = false)
        ∧ Chain.pending (newer ++ b.modifyFn f (fun f => { f with flavor := .efFree }) :: older)
          = before ++ after := by
  obtain ⟨le, miss⟩ := scanned.current b older rfl
  have used : (b.fnAt f).flavor ≠ .efFree := by
    rw [matchesHandle_flavor hit]
    simp
  obtain ⟨above, below, live, freed, inside⟩ := Block.live_free le used
  refine ⟨newer.pending ++ above, below ++ older.pending, ?_, ?_, ?_⟩
  · simp [scanned.split, live]
  · intro g member
    rcases mem_append.mp member with passed | here
    · exact scanned.passed g passed
    · obtain ⟨j, after, lt, rfl⟩ := inside g here
      exact miss j after lt
  · simp [freed]

/-- The call of a pending handler, taken off the list first, pays for what it registers. -/
theorem Account.call {s t s₁ : Exits} {before after : List ExitFunction} {n : Nat}
    (split : s.exitFuncs.pending = before ++ f :: after) (removed : t.exitFuncs.pending = before ++ after)
    (account : Account f.fn.registrations t s₁ n)
    : n + s₁.budget ≤ s.budget ∧ s₁.work < s.work := by
  have cost := account.budget
  have work := account.work
  simp only [Exits.work, Exits.budget, split, removed, budget_append, budget_cons,
    length_append, length_cons] at *
  omega

theorem counter_moved {c n : Nat} (pos : 0 < n) (bound : n < 2 ^ 64)
    : c ≠ (c + n) % 2 ^ 64 := by
  omega

/-- The call at an entry that the scan for `d` stops at, and the two places where the scan
goes on: from the start if the counter moved, else right behind the entry. There the call
has registered nothing, so nothing of `d` is among what the scan has passed.
-/
theorem scanFuncs_call {work : Nat} (inner : FinalizeSettles calloc work) {d f : Nat}
    {newer older : Chain} (ready : Ready s) (bound : s.budget < 2 ^ 64) (less : s.work ≤ work)
    (scanned : Scanned d s.exitFuncs newer (b :: older) (f + 1)) (hit : matchesHandle d (b.fnAt f) = true)
    : ∃ s₁ enough n before after,
        (∀ depth, enough ≤ depth → call calloc (cxaFinalize calloc depth) (b.fnAt f)
          (s.freeEntry (older.length + 1) f) = some s₁)
        ∧ s.exitFuncs.pending = before ++ b.fnAt f :: after
        ∧ (∀ g ∈ before, matchesHandle d g = false)
        ∧ Steps (.run (b.fnAt f).fn)
            { s.view with pending := before ++ after, calls := s.view.calls ++ [b.fnAt f] }
            s₁.view
        ∧ Account 0 s s₁ n
        ∧ Ready s₁
        ∧ s₁.work < s.work
        ∧ (s.newExitfnCalled = s₁.newExitfnCalled → ∃ newer' rest',
            Scanned d s₁.exitFuncs newer' rest' f ∧ rest'.length = older.length + 1) := by
  obtain ⟨before, after, split, newest, freed⟩ := scanned.hit hit
  set t : Exits := { s.freeEntry (older.length + 1) f with calls := s.calls ++ [b.fnAt f] }
  have shape : t.exitFuncs
      = newer ++ b.modifyFn f (fun f => { f with flavor := .efFree }) :: older := by
    simp only [t, Exits.freeEntry]
    rw [scanned.split, Chain.modify_append]
  have shrinks : s.exitFuncs.Shrinks t.exitFuncs := by
    rw [shape, scanned.split]
    exact (Chain.Shrinks.refl newer).append (.cons (b.shrinks_free f) (Chain.Shrinks.refl older))
  have ready' : Ready t := ⟨by simp [shape], ready.2, ready.3⟩
  have removed : t.exitFuncs.pending = before ++ after := by rw [shape, freed]
  have pays : t.budget + (b.fnAt f).fn.registrations = s.budget
      ∧ t.work + (b.fnAt f).fn.registrations < s.work := by
    simp only [Exits.work, Exits.budget, removed, split, budget_append, budget_cons,
      length_append, length_cons]
    omega
  obtain ⟨s₁, enough, ⟨steps, ⟨n, account⟩, ready₁⟩, run⟩ :=
    exec_settles inner (b.fnAt f).fn ready' (by omega) (by omega)
  obtain ⟨cost, calls⟩ := Account.call split removed account
  have start : t.view
      = { s.view with pending := before ++ after, calls := s.view.calls ++ [b.fnAt f] } := by
    simp only [Exits.view, removed]
    rfl
  have account₁ : Account 0 s s₁ n := by
    refine ⟨account.counter, by omega, by omega, ?_, ?_⟩
    · rw [shrinks.length_eq]
      exact account.blocks
    · intro none
      exact shrinks.trans (account.still none)
  refine ⟨s₁, enough, n, before, after, run, split, newest, start ▸ steps, account₁, ready₁,
    calls, ?_⟩
  intro unchanged
  have none : n = 0 := by
    by_contra some
    exact counter_moved (Nat.pos_of_ne_zero some) (by omega) (unchanged.trans account₁.counter)
  have place : Scanned d t.exitFuncs newer
      (b.modifyFn f (fun f => { f with flavor := .efFree }) :: older) f := by
    refine ⟨shape, scanned.passed, ?_⟩
    rintro _ _ ⟨rfl, rfl⟩
    obtain ⟨le, miss⟩ := scanned.current b older rfl
    refine ⟨Nat.le_of_succ_le le, ?_⟩
    intro i from_ lt
    rw [Block.fnAt_free]
    rcases Nat.eq_or_lt_of_le from_ with rfl | above
    · exact matchesHandle_free (by simp)
    · rw [if_neg (by omega)]
      exact miss i above lt
  obtain ⟨newer', rest', scanned', size⟩ := place.shrink (account.still none)
  exact ⟨newer', rest', scanned', size⟩

theorem scanFuncs_hit {callEntry : ExitFunction → Exits → Option Exits} {d fuel funcs f : Nat}
    {s s₁ : Exits} (found : Chain.get? s.exitFuncs (funcs + 1) = some b)
    (hit : matchesHandle d (b.fnAt f) = true)
    (called : callEntry (b.fnAt f) (s.freeEntry (funcs + 1) f) = some s₁)
    : scanFuncs callEntry d (fuel + 1) (funcs + 1) (f + 1) s
      = if s.newExitfnCalled ≠ s₁.newExitfnCalled then
          scanFuncs callEntry d fuel s₁.exitFuncs.length (s₁.exitFuncs.idxAt s₁.exitFuncs.length) s₁
        else scanFuncs callEntry d fuel (funcs + 1) f s₁ := by
  simp only [scanFuncs, found, Option.bind_some, if_pos hit, called]

theorem Sound.freeQuick {task : Task} {cost : Nat} {s s' : Exits} (sound : Sound task cost s s')
    (d : Nat)
    : Sound task cost s { s' with quickExitFuncs := s'.quickExitFuncs.map (freeQuick d) } := by
  obtain ⟨steps, ⟨n, account⟩, ready⟩ := sound
  refine ⟨steps, ⟨n, ⟨account.1, account.2, account.3, account.4, account.5⟩⟩, ?_⟩
  exact ⟨ready.1, by simpa using ready.2, ready.3⟩

theorem cxaFinalize_settles_of_scan {d enough : Nat} {s s' : Exits}
    (sound : Sound (.finalize d) 0 s s')
    (run : ∀ depth fuel, enough ≤ depth → enough ≤ fuel
      → scanFuncs (call calloc (cxaFinalize calloc depth)) d fuel s.exitFuncs.length
          (s.exitFuncs.idxAt s.exitFuncs.length) s = some s')
    : Settles (.finalize d) 0 s (fun fuel => cxaFinalize calloc fuel d s) := by
  refine ⟨_, enough + 1, sound.freeQuick d, ?_⟩
  intro fuel le
  obtain ⟨fuel, rfl⟩ := Nat.exists_eq_add_of_le' (Nat.le_of_add_left_le le)
  simp only [cxaFinalize, run fuel (fuel + 1) (by omega) (by omega), Option.map_some]

/-- The scan settles from every place it may come to: by induction on the calls that the
pending handlers can still lead to, and between two calls on the place itself.
-/
theorem scanFuncs_settles (d : Nat) {newer rest : Chain} {f : Nat} (ready : Ready s)
    (bound : s.budget < 2 ^ 64) (scanned : Scanned d s.exitFuncs newer rest f)
    : ∃ s' enough, Sound (.finalize d) 0 s s' ∧ ∀ depth fuel, enough ≤ depth → enough ≤ fuel
        → scanFuncs (call calloc (cxaFinalize calloc depth)) d fuel rest.length f s = some s' := by
  generalize calls : s.work = work
  induction work using Nat.strong_induction_on generalizing d s newer rest f with
  | _ work outer =>
    have inner : FinalizeSettles calloc work := by
      intro e t readyT boundT lessT
      obtain ⟨t', enough, sound, run⟩ :=
        outer t.work lessT e readyT boundT (.head e t.exitFuncs) rfl
      exact cxaFinalize_settles_of_scan sound run
    induction rest generalizing f newer with
    | nil =>
      refine ⟨s, 1, ⟨.finished ?_, ⟨0, .refl ready⟩, ready⟩, ?_⟩
      · have all : s.exitFuncs = newer := by simpa using scanned.split
        intro g member
        exact scanned.passed g (all ▸ member)
      · intro depth fuel _ le
        obtain ⟨fuel, rfl⟩ := Nat.exists_eq_add_of_le' le
        rfl
    | cons b older ihRest =>
      obtain ⟨le, miss⟩ := scanned.current b older rfl
      induction f with
      | zero =>
        have shape : s.exitFuncs = (newer ++ [b]) ++ older := by simp [scanned.split]
        have passed : ∀ g ∈ Chain.pending (newer ++ [b]), matchesHandle d g = false := by
          intro g member
          simp only [Chain.pending_append, Chain.pending_cons, Chain.pending_nil,
            append_nil] at member
          rcases mem_append.mp member with above | here
          · exact scanned.passed g above
          · exact Block.live_passed (fun i lt => miss i (Nat.zero_le i) lt) g here
        have next := Scanned.start older passed
        rw [← shape] at next
        obtain ⟨s', enough, sound, run⟩ := ihRest next
        refine ⟨s', enough + 1, sound, ?_⟩
        intro depth fuel deep long
        obtain ⟨fuel, rfl⟩ := Nat.exists_eq_add_of_le' (Nat.le_of_add_left_le long)
        exact run depth fuel (by omega) (by omega)
      | succ f ihEntry =>
        have found : Chain.get? s.exitFuncs (older.length + 1) = some b := by
          rw [scanned.split, Chain.get?_append]
        by_cases hit : matchesHandle d (b.fnAt f) = true
        · obtain ⟨s₁, enough₁, n, before, after, called, split, newest, steps, account,
            ready₁, less, still⟩ :=
            scanFuncs_call inner ready bound (Nat.le_of_eq calls) scanned hit
          have cost := account.budget
          -- the scan settles from where it goes on, as the call used up some work
          have later : ∃ s' enough, Sound (.finalize d) 0 s₁ s'
              ∧ ∀ depth fuel, enough ≤ depth → enough + 1 ≤ fuel → enough₁ ≤ depth
                → scanFuncs (call calloc (cxaFinalize calloc depth)) d fuel
                    (older.length + 1) (f + 1) s = some s' := by
            by_cases moved : s.newExitfnCalled = s₁.newExitfnCalled
            · obtain ⟨newer', rest', scanned', size⟩ := still moved
              obtain ⟨s', enough, sound, run⟩ :=
                outer s₁.work (calls ▸ less) d ready₁ (by omega) scanned' rfl
              refine ⟨s', enough, sound, ?_⟩
              intro depth fuel deep long deep₁
              obtain ⟨fuel, rfl⟩ := Nat.exists_eq_add_of_le' (Nat.le_of_add_left_le long)
              rw [scanFuncs_hit found hit (called depth deep₁), if_neg (not_not.mpr moved), ← size]
              exact run depth fuel deep (by omega)
            · obtain ⟨s', enough, sound, run⟩ :=
                outer s₁.work (calls ▸ less) d ready₁ (by omega) (.head d s₁.exitFuncs) rfl
              refine ⟨s', enough, sound, ?_⟩
              intro depth fuel deep long deep₁
              obtain ⟨fuel, rfl⟩ := Nat.exists_eq_add_of_le' (Nat.le_of_add_left_le long)
              rw [scanFuncs_hit found hit (called depth deep₁), if_pos moved]
              exact run depth fuel deep (by omega)
          obtain ⟨s', enough, ⟨steps', ⟨n', account'⟩, ready'⟩, run⟩ := later
          refine ⟨s', max enough₁ (enough + 1), ⟨.call split newest hit steps steps',
            ⟨n + n', account.trans account'⟩, ready'⟩, ?_⟩
          intro depth fuel deep long
          exact run depth fuel (by omega) (by omega) (by omega)
        · have here : Scanned d s.exitFuncs newer (b :: older) f := by
            refine ⟨scanned.split, scanned.passed, ?_⟩
            rintro _ _ ⟨rfl, rfl⟩
            refine ⟨by omega, fun i from_ lt => ?_⟩
            rcases Nat.eq_or_lt_of_le from_ with rfl | above
            · exact Bool.eq_false_iff.mpr hit
            · exact miss i above lt
          obtain ⟨s', enough, sound, run⟩ := ihEntry here
            (here.current b older rfl).1 (here.current b older rfl).2
          refine ⟨s', enough + 1, sound, ?_⟩
          intro depth fuel deep long
          obtain ⟨fuel, rfl⟩ := Nat.exists_eq_add_of_le' (Nat.le_of_add_left_le long)
          simp only [length_cons, scanFuncs, found, Option.bind_some, hit]
          exact run depth fuel (by omega) (by omega)

end Nglibc.Exit
