import Nglibc.Exit.Execution

/-! What registration and finalization are for, on the list of pending handlers alone: a
registration puts a handler in front, finalizing a handle calls its newest pending handler
until none is left, and a called handler may do both.
-/

namespace Nglibc.Exit

open List

/-- The pending handlers, newest first, with the history of registrations and calls. -/
structure Pending where
  pending : List ExitFunction
  registered : List ExitFunction
  calls : List ExitFunction

inductive Task where
  | run (p : Program)
  | finalize (d : Nat)

/-- A program run, or a handle finalized, on pending handlers. Whether a registration
succeeds is left open, except that quick exit handlers are never pending here.
-/
inductive Steps : Task → Pending → Pending → Prop
  | ret {a} : Steps (.run .ret) a a
  | register {registrar name fn next a a'} (r : ExitFunction)
    (listp : registrar.listp = .exitFuncs)
    (later : Steps (.run next)
      { a with
        pending := registrar.fill name fn r :: a.pending
        registered := a.registered ++ [registrar.fill name fn r] } a')
    : Steps (.run (.register registrar name fn next)) a a'
  | notRegistered {registrar name fn next a a'} (later : Steps (.run next) a a')
    : Steps (.run (.register registrar name fn next)) a a'
  | cxaFinalize {d next a a₁ a'} (inner : Steps (.finalize d) a a₁)
    (later : Steps (.run next) a₁ a')
    : Steps (.run (.cxaFinalize d next)) a a'
  | finished {d a} (none : ∀ f ∈ a.pending, matchesHandle d f = false)
    : Steps (.finalize d) a a
  | call {d a a₁ a' newer f older} (split : a.pending = newer ++ f :: older)
    (newest : ∀ g ∈ newer, matchesHandle d g = false) (hit : matchesHandle d f = true)
    (body : Steps (.run f.fn)
      { a with pending := newer ++ older, calls := a.calls ++ [f] } a₁)
    (later : Steps (.finalize d) a₁ a')
    : Steps (.finalize d) a a'

/-- The handles a program passes to `__cxa_finalize` itself. -/
def Program.finalizes : Program → List Nat
  | .ret => []
  | .register _ _ _ next => next.finalizes
  | .cxaFinalize d next => d :: next.finalizes

def Task.handles : Task → List Nat
  | .run p => p.finalizes
  | .finalize d => [d]

/-- What happens between two states: every handler registered before or meanwhile is either
called once or still pending, the ones pending throughout keep their order behind the new
ones, and a call is made for one of `handles` or for a handle that a called handler
finalizes.
-/
structure Changes (handles : List Nat) (a a' : Pending) (called added : List ExitFunction)
    : Prop where
  calls : a'.calls = a.calls ++ called
  registered : a'.registered = a.registered ++ added
  once : (called ++ a'.pending).Perm (added ++ a.pending)
  order : ∃ fresh kept, a'.pending = fresh ++ kept ∧ kept.Sublist a.pending ∧ fresh.Subperm added
  caller : ∀ f ∈ called,
    ∃ d ∈ handles ++ called.flatMap (fun g => g.fn.finalizes), matchesHandle d f = true

theorem Changes.refl (handles : List Nat) (a : Pending) : Changes handles a a [] [] where
  calls := by simp
  registered := by simp
  once := .rfl
  order := ⟨[], a.pending, rfl, .refl _, .refl _⟩
  caller := by simp

theorem Changes.trans {left right : List Nat} {a₁ a₂ a₃ : Pending}
    {called called' added added' : List ExitFunction}
    (first : Changes left a₁ a₂ called added)
    (second : Changes right a₂ a₃ called' added')
    : Changes (left ++ right) a₁ a₃ (called ++ called') (added ++ added') where
  calls := by rw [second.calls, first.calls, append_assoc]
  registered := by rw [second.registered, first.registered, append_assoc]
  once := by
    rw [append_assoc, append_assoc]
    have behind := second.once.append_left called
    have swapped := perm_append_comm_assoc called added' a₂.pending
    have before := first.once.append_left added'
    exact ((behind.trans swapped).trans before).trans
      (perm_append_comm_assoc added' added a₁.pending)
  order := by
    obtain ⟨fresh₁, kept₁, split₁, sub₁, new₁⟩ := first.order
    obtain ⟨fresh₂, kept₂, split₂, sub₂, new₂⟩ := second.order
    rw [split₁] at sub₂
    obtain ⟨still, kept, rfl, stillSub, keptSub⟩ := sublist_append_iff.mp sub₂
    refine ⟨fresh₂ ++ still, kept, by rw [split₂, append_assoc], keptSub.trans sub₁, ?_⟩
    exact (new₂.append (stillSub.subperm.trans new₁)).trans perm_append_comm.subperm
  caller := by
    intro f member
    simp only [flatMap_append, mem_append]
    rcases mem_append.mp member with early | late
    · obtain ⟨d, from_, hit⟩ := first.caller f early
      refine ⟨d, ?_, hit⟩
      rcases mem_append.mp from_ with given | inner
      · exact .inl (.inl given)
      · exact .inr (.inl inner)
    · obtain ⟨d, from_, hit⟩ := second.caller f late
      refine ⟨d, ?_, hit⟩
      rcases mem_append.mp from_ with given | inner
      · exact .inl (.inr given)
      · exact .inr (.inr inner)

variable {called added : List ExitFunction} {a a' : Pending}

theorem Changes.mono {handles more : List Nat} (changes : Changes handles a a' called added)
    (sub : ∀ d ∈ handles, d ∈ more ++ called.flatMap (fun g => g.fn.finalizes))
    : Changes more a a' called added where
  calls := changes.calls
  registered := changes.registered
  once := changes.once
  order := changes.order
  caller := by
    intro f member
    obtain ⟨d, from_, hit⟩ := changes.caller f member
    refine ⟨d, ?_, hit⟩
    rcases mem_append.mp from_ with given | inner
    · exact sub d given
    · exact mem_append_right _ inner

/-- One registration. -/
theorem Changes.push (a : Pending) (f : ExitFunction)
    : Changes [] a
        { a with pending := f :: a.pending, registered := a.registered ++ [f] } [] [f] where
  calls := by simp
  registered := rfl
  once := .rfl
  order := ⟨[f], a.pending, rfl, .refl _, .refl _⟩
  caller := by simp

theorem Changes.take {d : Nat} {a : Pending} {newer older : List ExitFunction}
    {f : ExitFunction} (split : a.pending = newer ++ f :: older)
    (hit : matchesHandle d f = true)
    : Changes [d] a { a with pending := newer ++ older, calls := a.calls ++ [f] } [f] [] where
  calls := rfl
  registered := by simp
  once := by
    simp only [split, singleton_append, nil_append]
    exact perm_middle.symm
  order := by
    refine ⟨[], newer ++ older, rfl, ?_, .refl _⟩
    rw [split]
    exact List.Sublist.append_left (sublist_cons_self _ _) _
  caller := by
    intro g member
    rw [mem_singleton.mp member]
    exact ⟨d, by simp, hit⟩

/-- Every run has these changes, by induction on the run. -/
theorem Steps.changes {task : Task} (steps : Steps task a a')
    : ∃ called added, Changes task.handles a a' called added := by
  induction steps with
  | ret => exact ⟨[], [], .refl _ _⟩
  | @register registrar name fn next a a' r listp later ih =>
    obtain ⟨called, added, changes⟩ := ih
    exact ⟨_, _, (Changes.push a _).trans changes⟩
  | notRegistered later ih => exact ih
  | cxaFinalize inner later ihInner ihLater =>
    obtain ⟨called, added, changes⟩ := ihInner
    obtain ⟨called', added', changes'⟩ := ihLater
    exact ⟨_, _, changes.trans changes'⟩
  | finished none => exact ⟨[], [], .refl _ _⟩
  | @call d a a₁ a' newer f older split newest hit body later ihBody ihLater =>
    obtain ⟨called, added, changes⟩ := ihBody
    obtain ⟨called', added', changes'⟩ := ihLater
    refine ⟨_, _, (((Changes.take split hit).trans changes).trans changes').mono ?_⟩
    -- the handles the body finalizes are those of the handler just called
    intro e member
    simp only [Task.handles, mem_append, mem_singleton, flatMap_append,
      flatMap_cons, flatMap_nil, append_nil] at member ⊢
    rcases member with (own | body) | again
    · exact .inl own
    · exact .inr (.inl (.inl body))
    · exact .inl again

/-- A handler that none of the handles names stays pending, in its order: it is not called,
and a count shows that it is among the handlers pending throughout.
-/
theorem Changes.keeps {handles : List Nat} (changes : Changes handles a a' called added)
    (other : ExitFunction → Bool)
    (unnamed : ∀ f, other f = true →
      ∀ d ∈ handles ++ called.flatMap (fun g => g.fn.finalizes), matchesHandle d f = false)
    : (a.pending.filter other).Sublist a'.pending := by
  obtain ⟨fresh, kept, split, sub, new⟩ := changes.order
  have notCalled : called.countP other = 0 := by
    rw [countP_eq_zero]
    intro f member isOther
    obtain ⟨d, from_, hit⟩ := changes.caller f member
    rw [unnamed f isOther d from_] at hit
    cases hit
  have total := changes.once.countP_eq other
  rw [split] at total
  simp only [countP_append, notCalled] at total
  have fewer := new.countP_le other
  have all : kept.filter other = a.pending.filter other := by
    apply (sub.filter other).eq_of_length_le
    rw [← countP_eq_length_filter, ← countP_eq_length_filter]
    omega
  rw [← all, split]
  exact filter_sublist.trans (sublist_append_right _ _)

/-- Finalizing a handle leaves none of its handlers pending, by induction on the run. -/
theorem Steps.none_left {task : Task} (steps : Steps task a a') {d : Nat} (handle : task = .finalize d)
    : ∀ f ∈ a'.pending, matchesHandle d f = false := by
  induction steps with
  | finished none =>
    cases handle
    exact none
  | call _ _ _ _ _ _ ih => exact ih handle
  | _ => cases handle

/-- Between two states every handler registered before or meanwhile is called once, `lost`
without a call, or still pending.
-/
structure Conserves (lost : List ExitFunction) (a a' : Pending)
    (called added : List ExitFunction) : Prop where
  calls : a'.calls = a.calls ++ called
  registered : a'.registered = a.registered ++ added
  once : (called ++ lost ++ a'.pending).Perm (added ++ a.pending)

theorem Changes.conserves {handles : List Nat} (changes : Changes handles a a' called added)
    : Conserves [] a a' called added :=
  ⟨changes.calls, changes.registered, by simpa using changes.once⟩

theorem Conserves.trans {lost lost' called called' added added' : List ExitFunction}
    {a₁ a₂ a₃ : Pending} (first : Conserves lost a₁ a₂ called added)
    (second : Conserves lost' a₂ a₃ called' added')
    : Conserves (lost ++ lost') a₁ a₃ (called ++ called') (added ++ added') where
  calls := by rw [second.calls, first.calls, append_assoc]
  registered := by rw [second.registered, first.registered, append_assoc]
  once := by
    rw [perm_iff_count]
    intro f
    have one := first.once.count_eq f
    have two := second.once.count_eq f
    simp only [count_append] at one two ⊢
    omega

/-- One call, before the handler does anything. -/
theorem Conserves.take {a : Pending} {newer older : List ExitFunction} {f : ExitFunction}
    (split : a.pending = newer ++ f :: older)
    : Conserves [] a { a with pending := newer ++ older, calls := a.calls ++ [f] } [f] [] where
  calls := rfl
  registered := by simp
  once := by
    simp only [split, append_nil, singleton_append, nil_append]
    exact perm_middle.symm

theorem Conserves.drop {a : Pending} {lost kept : List ExitFunction}
    (split : a.pending.Perm (lost ++ kept))
    : Conserves lost a { a with pending := kept } [] [] :=
  ⟨by simp, by simp, by simpa using split.symm⟩

end Nglibc.Exit
