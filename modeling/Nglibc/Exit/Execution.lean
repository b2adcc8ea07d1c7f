import Nglibc.Exit.Registration

/-! The run of a program that registers exit handlers: registration, `__cxa_finalize` and
`__run_exit_handlers` as functions on the global state of `stdlib/exit.h`. Function pointers
are stored in the clear (`PTR_MANGLE` and `PTR_DEMANGLE` cancel) and the single thread holds
`__exit_funcs_lock` wherever the source takes it.
-/

namespace Nglibc.Exit

/-- The globals of `cxa_atexit.c`, `cxa_at_quick_exit.c` and `exit.c`, with the number of
registration attempts so far. The last three fields are a history that no function reads:
the entries registered in `__exit_funcs`, those called, and the blocks unlinked from it.
-/
structure Exits where
  exitFuncs : Chain
  quickExitFuncs : Chain
  newExitfnCalled : Nat
  exitFuncsDone : Bool
  attempts : Nat
  registered : List ExitFunction
  calls : List ExitFunction
  unlinked : List Block
  deriving DecidableEq

/-- The static initialization: one empty block in each list. -/
def Exits.initial : Exits where
  exitFuncs := [Block.zero]
  quickExitFuncs := [Block.zero]
  newExitfnCalled := 0
  exitFuncsDone := false
  attempts := 0
  registered := []
  calls := []
  unlinked := []

/-- The argument `listp` of `__internal_atexit` and `__new_exitfn`. -/
inductive Listp where
  | exitFuncs
  | quickExitFuncs
  deriving DecidableEq

/-- `*listp`. -/
def Exits.list (s : Exits) : Listp → Chain
  | .exitFuncs => s.exitFuncs
  | .quickExitFuncs => s.quickExitFuncs

/-- A store that replaces the list behind `listp`. -/
def Exits.setList (s : Exits) (chain : Chain) : Listp → Exits
  | .exitFuncs => { s with exitFuncs := chain }
  | .quickExitFuncs => { s with quickExitFuncs := chain }

section Execution

-- `calloc n` says whether memory is available at the `n`-th registration attempt
variable (calloc : Nat → Bool)

/-- The common part of the registration functions: `fill` is what the caller stores through
the pointer that `__new_exitfn` returns. A failed assertion is `none`, the first component
is the return value.
-/
def Exits.addExitFunction (listp : Listp) (fill : ExitFunction → ExitFunction) (s : Exits)
    : Option (Int × Exits) :=
  let s' := { s with attempts := s.attempts + 1 }
  if s.exitFuncsDone then some (-1, s')
  else
    (Chain.add (calloc s.attempts) fill (s.list listp)).map fun
      | (chain, none) => (-1, s'.setList chain listp)
      | (chain, some entry) =>
        (0, { s'.setList chain listp with
          newExitfnCalled := (s.newExitfnCalled + 1) % 2 ^ 64
          registered := match listp with
            | .exitFuncs => s.registered ++ [entry]
            | .quickExitFuncs => s.registered })

/-- The stores of `__internal_atexit`. -/
def cxaEntry (name : Nat) (fn : Program) (arg d : Nat) (new : ExitFunction) : ExitFunction :=
  { new with name := name, fn := fn, arg := arg, dsoHandle := d, flavor := .efCxa }

/-- The stores of `__on_exit`. -/
def onEntry (name : Nat) (fn : Program) (arg : Nat) (new : ExitFunction) : ExitFunction :=
  { new with name := name, fn := fn, arg := arg, flavor := .efOn }

def cxaAtexit (name : Nat) (fn : Program) (arg d : Nat) : Exits → Option (Int × Exits) :=
  Exits.addExitFunction calloc .exitFuncs (cxaEntry name fn arg d)

/-- `atexit`: the argument is null. -/
def atexit (name : Nat) (fn : Program) (dsoHandle : Nat) : Exits → Option (Int × Exits) :=
  cxaAtexit calloc name fn 0 dsoHandle

def onExit (name : Nat) (fn : Program) (arg : Nat) : Exits → Option (Int × Exits) :=
  Exits.addExitFunction calloc .exitFuncs (onEntry name fn arg)

def cxaAtQuickExit (name : Nat) (fn : Program) (d : Nat) : Exits → Option (Int × Exits) :=
  Exits.addExitFunction calloc .quickExitFuncs (cxaEntry name fn 0 d)

/-- The registration that a `register` instruction makes. -/
def register (registrar : Registrar) (name : Nat) (fn : Program)
    : Exits → Option (Int × Exits) :=
  match registrar with
  | .atexit dsoHandle => atexit calloc name fn dsoHandle
  | .onExit arg => onExit calloc name fn arg
  | .cxaAtexit arg d => cxaAtexit calloc name fn arg d
  | .cxaAtQuickExit d => cxaAtQuickExit calloc name fn d

/-- A program run with `finalize` for `__cxa_finalize`. -/
def exec (finalize : Nat → Exits → Option Exits) : Program → Exits → Option Exits
  | .ret, s => some s
  | .register registrar name fn next, s =>
    (register calloc registrar name fn s).bind (fun r => exec finalize next r.2)
  | .cxaFinalize d next, s => (finalize d s).bind (exec finalize next)

/-- The call of a handler, entered in the history. -/
def call (finalize : Nat → Exits → Option Exits) (f : ExitFunction) (s : Exits)
    : Option Exits :=
  exec calloc finalize f.fn { s with calls := s.calls ++ [f] }

/-- The test of `__cxa_finalize` on an entry. -/
def matchesHandle (d : Nat) (f : ExitFunction) : Bool :=
  (d = 0 ∨ d = f.dsoHandle) ∧ f.flavor = .efCxa

/-- `funcs->idx`, where the scan of a block starts. -/
def Chain.idxAt (chain : Chain) (ptr : Nat) : Nat := ((Chain.get? chain ptr).map Block.idx).getD 0

/-- `flavor = ef_free` in the entry `i` of the block `ptr`. -/
def Exits.freeEntry (s : Exits) (ptr i : Nat) : Exits :=
  { s with
    exitFuncs := Chain.modify s.exitFuncs ptr
      (fun l => l.modifyFn i (fun f => { f with flavor := .efFree })) }

/-- The loops of `__cxa_finalize` over `__exit_funcs`, at the entry `f - 1` of the block
`funcs`; `f = 0` is past the first entry.
-/
def scanFuncs (callEntry : ExitFunction → Exits → Option Exits) (d : Nat)
    : Nat → Nat → Nat → Exits → Option Exits
  | 0, _, _, _ => none
  | _ + 1, 0, _, s => some s
  | fuel + 1, funcs + 1, 0, s =>
    scanFuncs callEntry d fuel funcs (s.exitFuncs.idxAt funcs) s
  | fuel + 1, funcs + 1, f + 1, s =>
    (Chain.get? s.exitFuncs (funcs + 1)).bind fun l =>
      if matchesHandle d (l.fnAt f) then
        (callEntry (l.fnAt f) (s.freeEntry (funcs + 1) f)).bind fun s' =>
          if s.newExitfnCalled ≠ s'.newExitfnCalled then
            -- `goto restart`
            scanFuncs callEntry d fuel s'.exitFuncs.length
              (s'.exitFuncs.idxAt s'.exitFuncs.length) s'
          else scanFuncs callEntry d fuel (funcs + 1) f s'
      else scanFuncs callEntry d fuel (funcs + 1) f s

/-- The removal of quick exit handlers, which are not called. -/
def freeQuick (d : Nat) (l : Block) : Block :=
  { l with
    fns := l.fns.mapIdx (fun i f =>
      if i < l.idx ∧ (d = 0 ∨ d = f.dsoHandle) then { f with flavor := .efFree } else f)
    size := by simp [l.size] }

/-- `__cxa_finalize`; `fuel` bounds the depth of the recursion and the length of a scan. -/
def cxaFinalize : Nat → Nat → Exits → Option Exits
  | 0, _, _ => none
  | fuel + 1, d, s =>
    (scanFuncs (call calloc (cxaFinalize fuel)) d (fuel + 1) s.exitFuncs.length
      (s.exitFuncs.idxAt s.exitFuncs.length) s).map
      (fun s' => { s' with quickExitFuncs := s'.quickExitFuncs.map (freeQuick d) })

/-- `--cur->idx`. -/
def Block.pop (b : Block) : Block := b.setIdx (b.idx - 1) ((Nat.sub_le _ _).trans b.idxLe)

/-- `*listp = cur->next`, with the blocks that leave the list kept in the history. When
`cur` is not the last block the source also frees it.
-/
def Exits.unlink (s : Exits) (cur : Nat) : Exits :=
  { s with
    exitFuncs := s.exitFuncs.drop (s.exitFuncs.length - (cur - 1))
    unlinked := s.unlinked ++ s.exitFuncs.take (s.exitFuncs.length - (cur - 1)) }

/-- The loops of `__run_exit_handlers`, from a test of `cur->idx > 0` on. The `continue`
under `new_exitfn_called != __new_exitfn_called` belongs to the inner loop, so after a call
control reaches that test again in either case, with the same `cur`.
-/
def drain (callEntry : ExitFunction → Exits → Option Exits) : Nat → Nat → Exits → Option Exits
  | 0, _, _ => none
  | fuel + 1, cur, s =>
    (Chain.get? s.exitFuncs cur).bind fun l =>
      if 0 < l.idx then
        let f := l.fnAt (l.idx - 1)
        let popped := { s with exitFuncs := Chain.modify s.exitFuncs cur Block.pop }
        match f.flavor with
        | .efFree => drain callEntry fuel cur popped
        | .efUs => drain callEntry fuel cur popped
        | .efOn => (callEntry f popped).bind (drain callEntry fuel cur)
        | .efAt => (callEntry f popped).bind (drain callEntry fuel cur)
        | .efCxa =>
          (callEntry f (popped.freeEntry cur (l.idx - 1))).bind (drain callEntry fuel cur)
      else
        let next := s.unlink cur
        if next.exitFuncs = [] then some { next with exitFuncsDone := true }
        else drain callEntry fuel next.exitFuncs.length next

/-- `__run_exit_handlers` up to the point where it unlocks the list for good; `depth` bounds
the `__cxa_finalize` calls its handlers make.
-/
def runExitHandlers (depth fuel : Nat) (s : Exits) : Option Exits :=
  if s.exitFuncs = [] then some { s with exitFuncsDone := true }
  else drain (call calloc (cxaFinalize calloc depth)) fuel s.exitFuncs.length s

end Execution

/-- The function of an entry: its address and its code. -/
def ExitFunction.handler (f : ExitFunction) : Nat × Program := (f.name, f.fn)

def ExitFunction.Callable (f : ExitFunction) : Prop := f.flavor ≠ .efFree ∧ f.flavor ≠ .efUs

/-- The stores a registration makes into its entry, and the list it is made in. -/
def Registrar.fill (registrar : Registrar) (name : Nat) (fn : Program)
    : ExitFunction → ExitFunction :=
  match registrar with
  | .atexit dsoHandle => cxaEntry name fn 0 dsoHandle
  | .onExit arg => onEntry name fn arg
  | .cxaAtexit arg d => cxaEntry name fn arg d
  | .cxaAtQuickExit d => cxaEntry name fn 0 d

def Registrar.listp : Registrar → Listp
  | .cxaAtQuickExit _ => .quickExitFuncs
  | _ => .exitFuncs

theorem register_eq (calloc : Nat → Bool) (registrar : Registrar) (name : Nat) (fn : Program)
    (s : Exits)
    : register calloc registrar name fn s
      = s.addExitFunction calloc registrar.listp (registrar.fill name fn) := by
  cases registrar <;> rfl

@[simp] theorem Registrar.fill_handler (registrar : Registrar) (name : Nat) (fn : Program)
    (r : ExitFunction)
    : (registrar.fill name fn r).handler = (name, fn) := by
  cases registrar <;> rfl

theorem Registrar.fill_callable (registrar : Registrar) (name : Nat) (fn : Program)
    (r : ExitFunction)
    : (registrar.fill name fn r).Callable := by
  cases registrar <;> simp [Registrar.fill, cxaEntry, onEntry, ExitFunction.Callable]

/-- A program neither unlinks blocks nor ends exit processing. -/
structure Frame (s s' : Exits) : Prop where
  unlinked : s'.unlinked = s.unlinked
  done : s'.exitFuncsDone = s.exitFuncsDone

theorem Frame.trans {s₁ s₂ s₃ : Exits} (left : Frame s₁ s₂) (right : Frame s₂ s₃)
    : Frame s₁ s₃ :=
  ⟨right.unlinked.trans left.unlinked, right.done.trans left.done⟩

variable {calloc : Nat → Bool}

theorem addExitFunction_frame {listp : Listp} {fill : ExitFunction → ExitFunction} {s : Exits}
    {r : Int × Exits} (result : s.addExitFunction calloc listp fill = some r)
    : Frame s r.2 := by
  unfold Exits.addExitFunction at result
  split at result
  · cases result
    exact ⟨rfl, rfl⟩
  · obtain ⟨⟨chain, entry⟩, _, rfl⟩ := Option.map_eq_some_iff.mp result
    cases entry <;> cases listp <;> exact ⟨rfl, rfl⟩

theorem register_frame {registrar : Registrar} {name : Nat} {fn : Program} {s : Exits} {r : Int × Exits}
    (result : register calloc registrar name fn s = some r)
    : Frame s r.2 := by
  cases registrar <;> exact addExitFunction_frame result

variable {s s' : Exits}

/-- By induction on the program, from the same fact about its `__cxa_finalize` calls. -/
theorem exec_frame {finalize : Nat → Exits → Option Exits}
    (inner : ∀ {d s s'}, finalize d s = some s' → Frame s s') {p : Program}
    (run : exec calloc finalize p s = some s')
    : Frame s s' := by
  induction p generalizing s with
  | ret =>
    cases run
    exact ⟨rfl, rfl⟩
  | register registrar name fn next _ ih =>
    obtain ⟨r, registered, later⟩ := Option.bind_eq_some_iff.mp run
    exact (register_frame registered).trans (ih later)
  | cxaFinalize d next ih =>
    obtain ⟨s₁, finalized, later⟩ := Option.bind_eq_some_iff.mp run
    exact (inner finalized).trans (ih later)

theorem call_frame {finalize : Nat → Exits → Option Exits}
    (inner : ∀ {d s s'}, finalize d s = some s' → Frame s s') {f : ExitFunction}
    (run : call calloc finalize f s = some s')
    : Frame s s' := by
  have body := exec_frame inner run
  exact ⟨body.unlinked, body.done⟩

private theorem scanFuncs_frame {callEntry : ExitFunction → Exits → Option Exits}
    (inner : ∀ {f s s'}, callEntry f s = some s' → Frame s s') {d fuel funcs f : Nat}
    (run : scanFuncs callEntry d fuel funcs f s = some s')
    : Frame s s' := by
  induction fuel generalizing funcs f s with
  | zero => cases run
  | succ fuel ih =>
    cases funcs with
    | zero =>
      cases run
      exact ⟨rfl, rfl⟩
    | succ funcs =>
      cases f with
      | zero => exact ih run
      | succ f =>
        obtain ⟨l, _, run⟩ := Option.bind_eq_some_iff.mp run
        split at run
        · obtain ⟨s₁, called, run⟩ := Option.bind_eq_some_iff.mp run
          have one := inner called
          split at run <;> exact Frame.trans ⟨one.unlinked, one.done⟩ (ih run)
        · exact ih run

theorem cxaFinalize_frame {fuel d : Nat} (run : cxaFinalize calloc fuel d s = some s')
    : Frame s s' := by
  induction fuel generalizing d s s' with
  | zero => cases run
  | succ fuel ih =>
    obtain ⟨s₁, scanned, rfl⟩ := Option.map_eq_some_iff.mp run
    have scan := scanFuncs_frame (call_frame ih) scanned
    exact ⟨scan.unlinked, scan.done⟩

end Nglibc.Exit
