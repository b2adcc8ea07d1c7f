import Nglibc.Exit.Finalize

/-! Every handler is called at most once over all `__cxa_finalize` calls and the exit, and
`__cxa_finalize` calls the handlers of its handle.
-/

namespace Nglibc.Exit

open List

variable {s : Exits}

theorem cxaFinalize_settles (calloc : Nat → Bool) (d : Nat) (ready : Ready s) (bound : s.budget < 2 ^ 64)
    : Settles (.finalize d) 0 s (fun fuel => cxaFinalize calloc fuel d s) := by
  obtain ⟨s', enough, sound, run⟩ := scanFuncs_settles d ready bound (.head d s.exitFuncs)
  exact cxaFinalize_settles_of_scan sound run

theorem program_settles (calloc : Nat → Bool) (p : Program) (ready : Ready s)
    (bound : s.budget + p.registrations < 2 ^ 64)
    : Settles (.run p) p.registrations s
        (fun depth => exec calloc (cxaFinalize calloc depth) p s) :=
  exec_settles (fun d _ readyT boundT _ => cxaFinalize_settles calloc d readyT boundT) p ready
    bound (Nat.lt_succ_self _)

/-- The exit from a state: it ends with `__exit_funcs_done` set and every handler called
once or lost.
-/
def Drains (s : Exits) (run : Nat → Nat → Option Exits) : Prop := ∃ final enough called added lost,
    (∀ depth fuel, enough ≤ depth → enough ≤ fuel → run depth fuel = some final)
    ∧ final.exitFuncsDone = true
    ∧ final.exitFuncs = []
    ∧ Conserves lost s.view final.view called added

/-- A step of the drain that makes no call, but may lose handlers. -/
theorem Drains.skip {s t : Exits} {run run' : Nat → Nat → Option Exits}
    {lost : List ExitFunction} (later : Drains t run')
    (view : t.view = { s.view with pending := t.exitFuncs.pending })
    (split : s.exitFuncs.pending.Perm (lost ++ t.exitFuncs.pending))
    (step : ∀ depth fuel, run depth (fuel + 1) = run' depth fuel)
    : Drains s run := by
  obtain ⟨final, enough, called, added, lost', ends, done, empty, conserves⟩ := later
  refine ⟨final, enough + 1, _, _, _, ?_, done, empty,
    (view ▸ Conserves.drop (a := s.view) split).trans conserves⟩
  intro depth fuel deep long
  obtain ⟨fuel, rfl⟩ := Nat.exists_eq_add_of_le' (Nat.le_of_add_left_le long)
  rw [step]
  exact ends depth fuel (by omega) (by omega)

theorem Drains.call {s t : Exits} {run : Nat → Nat → Option Exits} {body : Nat → Option Exits}
    {next : Nat → Nat → Exits → Option Exits} {enough₁ : Nat} {called added : List ExitFunction}
    (later : Drains t (fun depth fuel => next depth fuel t))
    (conserves : Conserves [] s.view t.view called added)
    (ends : ∀ depth, enough₁ ≤ depth → body depth = some t)
    (step : ∀ depth fuel, run depth (fuel + 1) = (body depth).bind (next depth fuel))
    : Drains s run := by
  obtain ⟨final, enough, called', added', lost, ends', done, empty, conserves'⟩ := later
  refine ⟨final, max enough₁ (enough + 1), _, _, _, ?_, done, empty, conserves.trans conserves'⟩
  intro depth fuel deep long
  obtain ⟨fuel, rfl⟩ := Nat.exists_eq_add_of_le' (show 1 ≤ fuel by omega)
  rw [step, ends depth (by omega)]
  exact ends' depth fuel (by omega) (by omega)

theorem work_le_of_perm {s t : Exits} {lost : List ExitFunction}
    (split : s.exitFuncs.pending.Perm (lost ++ t.exitFuncs.pending))
    : t.work ≤ s.work ∧ t.budget ≤ s.budget := by
  have size := split.length_eq
  have total := (split.map (fun f => f.fn.registrations)).sum_eq
  rw [length_append] at size
  rw [map_append, sum_append] at total
  simp only [Exits.work, Exits.budget, budget]
  omega

/-- The entries and the blocks that the drain still has to go through. -/
def Chain.slots (chain : Chain) : Nat := (chain.map (fun b => b.idx + 1)).sum

/-- The drain ends from every state: by induction on the calls that the pending handlers can
still lead to, and between two calls on what is left to go through.
-/
theorem drain_settles (calloc : Nat → Bool) {above below : Chain} {l : Block} (ready : Ready s)
    (bound : s.budget < 2 ^ 64) (shape : s.exitFuncs = above ++ l :: below)
    : Drains s (fun depth fuel =>
        drain (call calloc (cxaFinalize calloc depth)) fuel (below.length + 1) s) := by
  obtain ⟨work, less⟩ : ∃ work, s.work ≤ work := ⟨_, le_rfl⟩
  induction work using Nat.strong_induction_on generalizing s above l below with
  | _ work outer =>
    generalize slots : Chain.slots (l :: below) = left
    induction left using Nat.strong_induction_on generalizing s above l below with
    | _ left ih =>
      simp only [Chain.slots, map_cons, sum_cons] at slots
      rcases Nat.eq_zero_or_pos l.idx with empty | pos
      · have idle : l.live = [] := by simp [Block.live, empty]
        cases below with
        | nil =>
          refine ⟨{ s with
              exitFuncs := []
              unlinked := s.unlinked ++ (above ++ [l])
              exitFuncsDone := true }, 1, [], [], s.exitFuncs.pending, ?_, rfl, rfl,
            Conserves.drop (a := s.view) (by simp [Exits.view])⟩
          intro depth fuel _ long
          obtain ⟨fuel, rfl⟩ := Nat.exists_eq_add_of_le' long
          exact drain_unlink _ fuel shape empty
        | cons l' below =>
          let t : Exits := { s with
            exitFuncs := l' :: below
            unlinked := s.unlinked ++ (above ++ [l]) }
          have split : s.exitFuncs.pending.Perm (above.pending ++ t.exitFuncs.pending) := by
            simp [t, shape, idle]
          have fewer := work_le_of_perm split
          simp only [map_cons, sum_cons] at slots
          have atHead : t.exitFuncs = [] ++ l' :: below := rfl
          refine Drains.skip (t := t) (ih _ ?_ ⟨by simp [t], ready.2, ready.3⟩ (by omega)
            atHead (by omega) rfl) rfl split ?_
          · simp only [Chain.slots, map_cons, sum_cons]
            omega
          · intro depth fuel
            exact drain_unlink _ fuel shape empty
      · rcases drain_pop shape pos with ⟨callable, l', idx, kept, step⟩ | ⟨skipped, step⟩
        · have live := Block.live_pop pos idx kept
          rw [if_pos callable.1] at live
          set f := l.fnAt (l.idx - 1)
          let t : Exits := { s with
            exitFuncs := above ++ l' :: below
            calls := s.calls ++ [f] }
          have split : s.exitFuncs.pending
              = above.pending ++ f :: (l'.live ++ Chain.pending below) := by
            simp [shape, live]
          have removed : t.exitFuncs.pending = above.pending ++ (l'.live ++ Chain.pending below) := by
            simp [t]
          have pays : t.budget + f.fn.registrations = s.budget := by
            simp only [Exits.budget, removed, split, budget_append, budget_cons]
            omega
          obtain ⟨s₁, enough₁, ⟨steps, ⟨n, account⟩, ready₁⟩, run⟩ :=
            program_settles calloc f.fn (s := t) ⟨by simp [t], ready.2, ready.3⟩ (by omega)
          obtain ⟨cost, fewer⟩ := Account.call split removed account
          obtain ⟨above', m, below', shape', size⟩ : ∃ above' m below',
              s₁.exitFuncs = above' ++ m :: below' ∧ below'.length + 1 = below.length + 1 := by
            refine Chain.split_of_ptr (Nat.succ_pos _) (Nat.le_trans ?_ account.blocks)
            simp only [t, length_append, length_cons]
            omega
          have later := outer s₁.work (by omega) ready₁ (by omega) shape' le_rfl
          rw [size] at later
          obtain ⟨called, added, changes⟩ := steps.changes
          have taken : t.view = { s.view with
              pending := above.pending ++ (l'.live ++ Chain.pending below)
              calls := s.view.calls ++ [f] } := by
            simp only [Exits.view, removed]
            rfl
          exact Drains.call later (((taken ▸ Conserves.take split)).trans changes.conserves) run
            (fun depth fuel => step _ fuel)
        · have live := Block.live_pop pos (show l.pop.idx = l.idx - 1 from rfl) rfl
          let t : Exits := { s with exitFuncs := above ++ l.pop :: below }
          have split : s.exitFuncs.pending.Perm
              ((if (l.fnAt (l.idx - 1)).flavor ≠ .efFree then [l.fnAt (l.idx - 1)] else [])
                ++ t.exitFuncs.pending) := by
            simp only [t, shape, Chain.pending_append, Chain.pending_cons, live]
            rw [append_assoc]
            exact perm_append_comm_assoc _ _ _
          have fewer := work_le_of_perm split
          have shape' : t.exitFuncs = above ++ l.pop :: below := rfl
          refine Drains.skip (t := t) (ih _ ?_ ⟨by simp [t], ready.2, ready.3⟩ (by omega)
            shape' (by omega) rfl) rfl split ?_
          · simp only [Chain.slots, map_cons, sum_cons, Block.pop, Block.setIdx]
            omega
          · intro depth fuel
            exact step _ fuel

theorem runExitHandlers_settles (calloc : Nat → Bool) (ready : Ready s) (bound : s.budget < 2 ^ 64)
    : Drains s (fun depth fuel => runExitHandlers calloc depth fuel s) := by
  obtain ⟨l, below, shape⟩ := exists_cons_of_ne_nil ready.exitFuncs
  have atHead : s.exitFuncs = [] ++ l :: below := shape
  simp only [runExitHandlers, if_neg ready.exitFuncs]
  rw [show s.exitFuncs.length = below.length + 1 by rw [shape, length_cons]]
  exact drain_settles calloc ready bound atHead

/-- A program runs its `history`, calls `__cxa_finalize(d)`, goes on with what it does
`later` and exits. The finalization calls the newest pending handler of `d` until none is
left, the handlers that neither `d` nor a handle finalized on the way names stay pending in
their order, and each registered handler is called once or still pending then. What comes
later calls only handlers that are pending or registered then, each at most once.
-/
def FinalizesOnce (calloc : Nat → Bool) (history later : Program) (d : Nat) : Prop :=
  ∃ enough before after atExit final, (∀ fuel, enough ≤ fuel →
      exec calloc (cxaFinalize calloc fuel) history .initial = some before
      ∧ cxaFinalize calloc fuel d before = some after
      ∧ exec calloc (cxaFinalize calloc fuel) later after = some atExit
      ∧ runExitHandlers calloc fuel fuel atExit = some final)
    ∧ Steps (.finalize d) before.view after.view
    ∧ (∀ f ∈ after.view.pending, matchesHandle d f = false)
    ∧ (after.calls ++ after.view.pending).Perm after.registered
    ∧ (∃ called added, Changes [d] before.view after.view called added
      ∧ (before.view.pending.filter (fun f =>
          (d :: called.flatMap (fun g => g.fn.finalizes)).all
            (fun e => !matchesHandle e f))).Sublist after.view.pending)
    ∧ ∃ called added lost, Conserves lost after.view final.view called added

theorem Exits.initial_ready : Ready .initial :=
  ⟨by simp [Exits.initial], by simp [Exits.initial], by simp [Exits.initial]⟩

theorem Exits.initial_pending : Exits.initial.exitFuncs.pending = [] := by
  simp [Exits.initial, Block.live, Block.zero]

/-- The run up to the call, the call, what follows and the exit, each from a ready state. -/
theorem cxaFinalize_once (calloc : Nat → Bool) (history later : Program) (d : Nat)
    (bound : history.registrations + later.registrations < 2 ^ 64)
    : FinalizesOnce calloc history later d := by
  have empty : Exits.initial.budget = 0 := by
    rw [Exits.budget, Exits.initial_pending, budget_nil]
  obtain ⟨before, enough₁, ⟨steps₁, ⟨n₁, account₁⟩, ready₁⟩, run₁⟩ :=
    program_settles calloc history Exits.initial_ready (by omega)
  have cost₁ := account₁.budget
  obtain ⟨after, enough₂, ⟨steps₂, ⟨n₂, account₂⟩, ready₂⟩, run₂⟩ :=
    cxaFinalize_settles calloc d ready₁ (by omega)
  have cost₂ := account₂.budget
  obtain ⟨atExit, enough₃, ⟨steps₃, ⟨n₃, account₃⟩, ready₃⟩, run₃⟩ :=
    program_settles calloc later ready₂ (by omega)
  have cost₃ := account₃.budget
  obtain ⟨final, enough₄, called₄, added₄, lost, run₄, _, _, conserves₄⟩ :=
    runExitHandlers_settles calloc ready₃ (by omega)
  obtain ⟨called₁, added₁, changes₁⟩ := steps₁.changes
  obtain ⟨called₂, added₂, changes₂⟩ := steps₂.changes
  obtain ⟨called₃, added₃, changes₃⟩ := steps₃.changes
  refine ⟨max (max enough₁ enough₂) (max enough₃ enough₄), before, after, atExit, final, ?_,
    steps₂, steps₂.none_left rfl, ?_, ⟨called₂, added₂, changes₂, changes₂.keeps _ ?_⟩,
    ⟨_, _, _, changes₃.conserves.trans conserves₄⟩⟩
  · intro fuel le
    exact ⟨run₁ fuel (by omega), run₂ fuel (by omega), run₃ fuel (by omega),
      run₄ fuel fuel (by omega) (by omega)⟩
  · have total := changes₁.conserves.trans changes₂.conserves
    have calls : after.calls = called₁ ++ called₂ := total.calls
    have registered : after.registered = added₁ ++ added₂ := total.registered
    have once := total.once
    rw [calls, registered]
    simpa [Exits.view, Exits.initial_pending] using once
  · intro f other e from_
    simpa using all_eq_true.mp other e from_

/-- An object with handle 7 whose handler registers another one and finalizes 9, an object
with handle 9 and a handler of `on_exit`.
-/
def twoObjects : Program := .register (.onExit 3) 1 .ret
    (.register (.cxaAtexit 0 9) 2 .ret
      (.register (.cxaAtexit 0 7) 3
        (.register (.cxaAtexit 0 7) 4 .ret (.cxaFinalize 9 .ret)) .ret))

theorem cxaFinalize_once_twoObjects
    : twoObjects.registrations + Program.ret.registrations < 2 ^ 64
      ∧ FinalizesOnce (fun _ => true) twoObjects .ret 7 :=
  ⟨by decide, cxaFinalize_once (fun _ => true) twoObjects .ret 7 (by decide)⟩

/-- The same registration `n` times. -/
def Program.repeatRegister (registrar : Registrar) (name : Nat) (fn : Program) : Nat → Program
  | 0 => .ret
  | n + 1 => .register registrar name fn (repeatRegister registrar name fn n)

/-- With memory every registration succeeds and moves the counter, by induction on `n`. -/
theorem exec_repeatRegister {calloc : Nat → Bool} (memory : ∀ n, calloc n = true)
    (finalize : Nat → Exits → Option Exits) (arg d name : Nat) (fn : Program) (n : Nat) (ready : Ready s)
    (notDone : s.exitFuncsDone = false)
    : ∃ s', exec calloc finalize (.repeatRegister (.cxaAtexit arg d) name fn n) s = some s'
        ∧ s'.newExitfnCalled = (s.newExitfnCalled + n) % 2 ^ 64
        ∧ s.exitFuncs.pending ⊆ s'.exitFuncs.pending
        ∧ (0 < n → ∃ f ∈ s'.exitFuncs.pending, matchesHandle d f = true) := by
  induction n generalizing s with
  | zero =>
    exact ⟨s, rfl, (Nat.mod_eq_of_lt ready.counter).symm, List.Subset.refl _, by simp⟩
  | succ n ih =>
    have used := fun r => (Registrar.fill_callable (.cxaAtexit arg d) name fn r).1
    rcases Chain.add_spec (calloc s.attempts) used ready.exitFuncs with
      ⟨chain, new, added, pending, _, nonempty⟩ | ⟨noMemory, _⟩
    · let t : Exits := { s with
        attempts := s.attempts + 1
        exitFuncs := chain
        newExitfnCalled := (s.newExitfnCalled + 1) % 2 ^ 64
        registered := s.registered ++ [Registrar.fill (.cxaAtexit arg d) name fn new] }
      have registered : register calloc (.cxaAtexit arg d) name fn s = some (0, t) := by
        rw [register_eq]
        simp [Exits.addExitFunction, notDone, Exits.list, Exits.setList, Registrar.listp, added, t]
      obtain ⟨s', run, counter, kept, _⟩ :=
        ih (s := t) ⟨nonempty, ready.2, Nat.mod_lt _ (by decide)⟩ notDone
      have member : Registrar.fill (.cxaAtexit arg d) name fn new ∈ s'.exitFuncs.pending :=
        kept (by simp [t, pending])
      refine ⟨s', by simpa [Program.repeatRegister, exec, registered] using run, ?_, ?_, ?_⟩
      · rw [counter]
        simp only [t]
        omega
      · exact List.Subset.trans (by simp [t, pending]) kept
      · exact fun _ => ⟨_, member, by simp [matchesHandle, Registrar.fill, cxaEntry]⟩
    · simp [memory] at noMemory

/-- The state after the first registration in a process. -/
def Exits.first (arg d name : Nat) (fn : Program) : Exits :=
  { Exits.initial with
    exitFuncs := [(Block.zero.claim ⟨0, blockSize_pos⟩).modifyFn 0 (cxaEntry name fn arg d)]
    newExitfnCalled := 1
    attempts := 1
    registered := [cxaEntry name fn arg d { ExitFunction.zero with flavor := .efUs }] }

/-- The state in which `__cxa_finalize` then runs the handler. -/
def Exits.firstCalled (arg d name : Nat) (fn : Program) : Exits :=
  { (Exits.first arg d name fn).freeEntry 1 0 with
    calls := [cxaEntry name fn arg d { ExitFunction.zero with flavor := .efUs }] }

theorem Exits.firstCalled_ready (arg d name : Nat) (fn : Program)
    : Ready (.firstCalled arg d name fn) where
  exitFuncs := by
    simp [Exits.firstCalled, Exits.first, Exits.freeEntry, Chain.modify]
  quickExitFuncs := by
    simp [Exits.firstCalled, Exits.first, Exits.freeEntry, Exits.initial]
  counter := by
    simp [Exits.firstCalled, Exits.first, Exits.freeEntry]

/-- If its handler leaves the counter as it was, finalizing the object ends with it. -/
theorem cxaFinalize_first {arg d name : Nat} {fn : Program} {s₁ : Exits}
    (run : exec (fun _ => true) (cxaFinalize (fun _ => true) 3) fn (.firstCalled arg d name fn)
      = some s₁)
    (still : s₁.newExitfnCalled = 1)
    : cxaFinalize (fun _ => true) 4 d (.first arg d name fn)
      = some { s₁ with quickExitFuncs := s₁.quickExitFuncs.map (freeQuick d) } := by
  have hit : matchesHandle d (cxaEntry name fn arg d { ExitFunction.zero with flavor := .efUs })
      = true := by
    simp [matchesHandle, cxaEntry]
  have scan : scanFuncs (call (fun _ => true) (cxaFinalize (fun _ => true) 3)) d 4 1 1
      (.first arg d name fn) = some s₁ := by
    rw [scanFuncs_hit rfl hit run, if_neg (by simp [still, Exits.first])]
    rfl
  exact congrArg (Option.map _) scan

/-- An `atexit` handler is one of the object that registers it, so finalizing the object
calls it. And a handler that registers 2^64 others brings the counter back to its value,
so that they stay pending.
-/
theorem cxaFinalize_calls_atexit_and_misses
    : (∃ before after,
        exec (fun _ => true) (cxaFinalize (fun _ => true) 4) (.register (.atexit 7) 1 .ret .ret)
          .initial = some before
        ∧ cxaFinalize (fun _ => true) 4 7 before = some after
        ∧ before.exitFuncs.pending.map ExitFunction.name = [1]
        ∧ after.exitFuncs.pending = [])
      ∧ ∃ before after, exec (fun _ => true) (cxaFinalize (fun _ => true) 4)
          (.register (.cxaAtexit 0 7) 1
            (.repeatRegister (.cxaAtexit 0 7) 2 .ret (2 ^ 64)) .ret)
          .initial = some before
        ∧ cxaFinalize (fun _ => true) 4 7 before = some after
        ∧ ∃ f ∈ after.exitFuncs.pending, matchesHandle 7 f = true := by
  constructor
  · exact ⟨.first 0 7 1 .ret, _, rfl, cxaFinalize_first rfl rfl, by decide, by decide⟩
  · obtain ⟨s₁, run, counter, _, pending⟩ :=
      exec_repeatRegister (fun _ => rfl) (cxaFinalize (fun _ => true) 3) 0 7 2 .ret (2 ^ 64)
        (Exits.firstCalled_ready 0 7 1 (.repeatRegister (.cxaAtexit 0 7) 2 .ret (2 ^ 64))) rfl
    exact ⟨_, _, rfl, cxaFinalize_first run counter, pending (by decide)⟩

end Nglibc.Exit
