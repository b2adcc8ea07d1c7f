import Nglibc.Elf.TlsModidSearch

/-! Runs of the loader: modules get their ids, are entered in the list or fail before that, and are
unloaded. Half-loaded modules have an id while their entry is unused.
-/

namespace Nglibc.TlsModid

open List

variable {α : Type}

/-- The loader, the modules that are present with their ids, and those of them that were entered. -/
structure World (α : Type) where
  vars : Vars α
  present : List (α × Nat)
  added : List α

inductive Event (α : Type)
  | assign (l : α)
  | add (l : α) (id : Nat) (doAdd malloc : Bool)
  | remove (l : α) (id : Nat) (initCalled : Bool)

/-- One event. A failed assertion or an access outside an array gives `none`. -/
def World.step [DecidableEq α] (w : World α) : Event α → Option (World α)
  | .assign l =>
    (w.vars.assign l).map fun (id, vars) =>
      { w with vars, present := (l, id) :: w.present }
  | .add l id doAdd malloc =>
    (addToSlotinfo l doAdd malloc w.vars.list id).map fun (ok, list) =>
      { w with
        vars := { w.vars with list }
        added := if ok && doAdd then l :: w.added else w.added }
  | .remove l id initCalled =>
    (w.vars.remove id initCalled).map fun vars =>
      { vars
        present := w.present.filter (·.1 ≠ l)
        added := w.added.filter (· ≠ l) }

/-- A module gets one id, is entered once, and is initialized after that. Modules of the program
start are not unloaded.
-/
def Event.Legal (w : World α) : Event α → Prop
  | .assign l => ∀ p ∈ w.present, p.1 ≠ l
  | .add l id _ _ => (l, id) ∈ w.present ∧ w.vars.staticNelem < id ∧ l ∉ w.added
  | .remove l id initCalled =>
    (l, id) ∈ w.present ∧ w.vars.staticNelem < id ∧ (initCalled = true → l ∈ w.added)

/-- The first index for dynamic modules whose entry is unused, also when it is behind the list. -/
def Vars.FirstUnused (v : Vars α) (i : Nat) : Prop :=
  v.staticNelem < i ∧ slot v.list i = none ∧ ∀ j, v.staticNelem < j → j < i → slot v.list j ≠ none

/-- Where the code meets its purpose. The gap that is taken is not the id of a half-loaded module.
An id in use is at most the end of the list. When the last module is unloaded, each other dynamic
module has a used entry at its id or above it.
-/
def Event.Safe (w : World α) : Event α → Prop
  | .assign _ => w.vars.dtvGaps = true → ∀ i, w.vars.FirstUnused i → ∀ p ∈ w.present, p.2 ≠ i
  | .add _ id _ _ => id ≤ total w.vars.list
  | .remove l id _ =>
    id ≤ total w.vars.list ∧ (id = w.vars.maxDtvIdx ∨ id = total w.vars.list →
        ∀ p ∈ w.present, p.1 ≠ l → w.vars.staticNelem < p.2 →
          ∃ j, p.2 ≤ j ∧ j ≠ id ∧ slot w.vars.list j ≠ none)

/-- The ids are different and at most the maximum. -/
structure World.Sound (w : World α) : Prop where
  different : w.present.Pairwise fun p q => p.2 ≠ q.2
  le_max : ∀ p ∈ w.present, p.2 ≤ w.vars.maxDtvIdx

instance (w : World α) : Decidable w.Sound := decidable_of_iff
    ((w.present.Pairwise fun p q => p.2 ≠ q.2) ∧ ∀ p ∈ w.present, p.2 ≤ w.vars.maxDtvIdx)
    ⟨fun ⟨different, le_max⟩ => ⟨different, le_max⟩, fun sound => ⟨sound.different, sound.le_max⟩⟩

/-- The program start as `init_tls` leaves it. The entries of the modules start at index zero, their
ids at one.
-/
def World.start (modules : List α) : World α where
  vars := {
    staticNelem := modules.length
    list := [modules.map some ++ List.replicate (1 + surplus) none]
    maxDtvIdx := modules.length
    dtvGaps := false }
  present := modules.zipIdx 1
  added := []

/-- The worlds that allowed events reach from a program start. -/
inductive Reachable [DecidableEq α] (Allowed : World α → Event α → Prop) : World α → Prop
  | start (modules : List α) (nodup : modules.Nodup) : Reachable Allowed (World.start modules)
  | step {w w' : World α} {e : Event α} (before : Reachable Allowed w) (allowed : Allowed w e)
      (stepped : w.step e = some w') : Reachable Allowed w'

/-- Used entries for dynamic modules hold present modules at their ids. -/
structure Valid (w : World α) : Prop where
  ids : w.present.Pairwise fun p q => p.2 ≠ q.2
  modules : w.present.Pairwise fun p q => p.1 ≠ q.1
  le_max : ∀ p ∈ w.present, p.2 ≤ w.vars.maxDtvIdx
  static_le : w.vars.staticNelem ≤ w.vars.maxDtvIdx
  head : ∃ n more, w.vars.list.map List.length = n :: more ∧ w.vars.staticNelem < n
  owner : ∀ i l, w.vars.staticNelem < i → slot w.vars.list i = some l → (l, i) ∈ w.present
  entered : ∀ p ∈ w.present, p.1 ∈ w.added → slot w.vars.list p.2 = some p.1
  known : ∀ l ∈ w.added, ∃ p ∈ w.present, p.1 = l

variable {w : World α}

theorem Valid.below (valid : Valid w) (i : Nat) (used : slot w.vars.list i ≠ none)
    : i ≤ w.vars.maxDtvIdx := by
  by_cases dynamic : w.vars.staticNelem < i
  · obtain ⟨l, holds⟩ := Option.ne_none_iff_exists'.mp used
    exact valid.le_max _ (valid.owner i l dynamic holds)
  · exact (Nat.le_of_not_lt dynamic).trans valid.static_le

/-- A module has one id. -/
theorem Valid.unique (valid : Valid w) {l : α} {i j : Nat} (first : (l, i) ∈ w.present)
    (second : (l, j) ∈ w.present)
    : i = j := by
  have nodup : (w.present.map Prod.fst).Nodup := pairwise_map.mpr valid.modules
  have same := inj_on_of_nodup_map nodup first second rfl
  exact congrArg Prod.snd same

/-- An id belongs to one module. -/
theorem Valid.owner_unique (valid : Valid w) {l m : α} {i : Nat} (first : (l, i) ∈ w.present)
    (second : (m, i) ∈ w.present)
    : l = m := by
  have nodup : (w.present.map Prod.snd).Nodup := pairwise_map.mpr valid.ids
  have same := inj_on_of_nodup_map nodup first second rfl
  exact congrArg Prod.fst same

/-- The program start is valid. -/
theorem Valid.start (modules : List α) (nodup : modules.Nodup) : Valid (World.start modules) where
  ids := by
    have increasing : ((modules.zipIdx 1).map Prod.snd).Nodup := by
      rw [zipIdx_map_snd]
      exact nodup_range'
    exact pairwise_map.mp increasing
  modules := by
    have first : ((modules.zipIdx 1).map Prod.fst).Nodup := by
      rwa [zipIdx_map_fst]
    exact pairwise_map.mp first
  le_max := by
    intro p mem
    have := snd_lt_of_mem_zipIdx mem
    exact Nat.le_of_lt_succ (by simpa [World.start, Nat.add_comm] using this)
  static_le := le_rfl
  head := ⟨_, [], rfl, by simp [World.start]⟩
  owner := by
    intro i l dynamic holds
    have behind : (modules.map some).length ≤ i := by
      rw [length_map]
      exact Nat.le_of_lt dynamic
    rw [World.start, slot, flatten_singleton, getElem?_append_right behind,
      getElem?_replicate] at holds
    split at holds <;> cases holds
  entered := fun _ _ => nofun
  known := nofun

/-- What assigning an id does when the list only holds ids up to the maximum. -/
theorem Vars.assign_spec {v : Vars α} (l : α) (static_le : v.staticNelem ≤ v.maxDtvIdx)
    (below : ∀ i, slot v.list i ≠ none → i ≤ v.maxDtvIdx)
    : ∃ r v', v.assign l = some (r, v')
      ∧ v.staticNelem < r ∧ r ≤ v'.maxDtvIdx ∧ v.maxDtvIdx ≤ v'.maxDtvIdx
      ∧ v'.staticNelem = v.staticNelem
      ∧ (v.dtvGaps = true → v.FirstUnused r) ∧ (v.dtvGaps = false → r = v.maxDtvIdx + 1)
      ∧ (∀ i, slot v'.list i = slot v.list i ∨ i = r ∧ slot v'.list i = some l)
      ∧ slot v.list r = none
      ∧ v'.list.map List.length = v.list.map List.length := by
  have free : ∀ i, v.maxDtvIdx < i → slot v.list i = none := by
    intro i above
    by_contra used
    have := below i used
    omega
  cases gaps : v.dtvGaps with
  | false =>
    refine ⟨v.maxDtvIdx + 1, { v with maxDtvIdx := v.maxDtvIdx + 1 }, ?_, by omega, le_rfl,
      Nat.le_succ _, rfl, nofun, fun _ => rfl, fun _ => .inl rfl, free _ (Nat.lt_succ_self _), rfl⟩
    rw [Vars.assign, gaps, if_neg Bool.false_ne_true]
  | true =>
    have found : ∃ r list', (if v.staticNelem + 1 ≤ v.maxDtvIdx then
          findGap v.maxDtvIdx l v.list 0 (v.staticNelem + 1)
        else some (v.staticNelem + 1, v.list)) = some (r, list')
        ∧ v.FirstUnused r
        ∧ (∀ i, slot list' i = slot v.list i ∨ i = r ∧ slot list' i = some l)
        ∧ list'.map List.length = v.list.map List.length := by
      split
      next =>
        obtain ⟨r, list', found, low, used, unused, marked, lengths⟩ :=
          findGap_spec (l := l) v.list 0 (v.staticNelem + 1) (Nat.zero_le _)
            (fun i isUsed => (Nat.zero_add i).symm ▸ below i isUsed)
        refine ⟨r, list', found, ⟨low, unused, used⟩, fun i => ?_, lengths⟩
        rw [marked]
        split
        next here => exact .inr ⟨here.1, rfl⟩
        next => exact .inl rfl
      next none =>
        exact ⟨_, _, rfl, ⟨Nat.lt_succ_self _, free _ (by omega), fun j low high => by omega⟩,
          fun _ => .inl rfl, rfl⟩
    obtain ⟨r, list', found, first, entries, lengths⟩ := found
    have notBeyond : r ≤ v.maxDtvIdx + 1 := by
      by_contra beyond
      exact first.2.2 (v.maxDtvIdx + 1) (by omega) (by omega) (free _ (Nat.lt_succ_self _))
    rw [Vars.assign, gaps, if_pos rfl]
    simp only [found]
    split
    next above =>
      have top : r = v.maxDtvIdx + 1 := by omega
      rw [if_pos top, ← top]
      exact ⟨r, _, rfl, first.1, le_rfl, by simp only; omega, rfl, fun _ => first, nofun,
        entries, first.2.1, lengths⟩
    next inside =>
      exact ⟨r, _, rfl, first.1, Nat.le_of_not_lt inside, le_rfl, rfl, fun _ => first, nofun,
        entries, first.2.1, lengths⟩

/-- A module that was not present gets a new id. -/
theorem Valid.assign [DecidableEq α] (valid : Valid w) {l : α} (legal : (Event.assign l).Legal w)
    (safe : (Event.assign l).Safe w)
    : ∃ w', w.step (.assign l) = some w' ∧ Valid w' := by
  obtain ⟨r, v', assigned, dynamic, le_max, grows, static, gap, noGap, entries, unused, lengths⟩ :=
    w.vars.assign_spec l valid.static_le valid.below
  have fresh : ∀ p ∈ w.present, p.2 ≠ r := by
    cases gaps : w.vars.dtvGaps with
    | true => exact safe gaps r (gap gaps)
    | false =>
      intro p mem same
      have := valid.le_max p mem
      have := noGap gaps
      omega
  refine ⟨_, by rw [World.step, assigned]; rfl, ?_⟩
  exact {
    ids := .cons (fun p mem => (fresh p mem).symm) valid.ids
    modules := .cons (fun p mem => (legal p mem).symm) valid.modules
    le_max := forall_mem_cons.mpr
      ⟨le_max, fun p mem => (valid.le_max p mem).trans grows⟩
    static_le := static ▸ valid.static_le.trans grows
    head := by
      simp only [lengths, static]
      exact valid.head
    owner := by
      intro i m above holds
      rcases entries i with same | ⟨rfl, marked⟩
      · exact .tail _ (valid.owner i m (static ▸ above) (same ▸ holds))
      · obtain rfl : l = m := Option.some.inj (marked.symm.trans holds)
        exact .head _
    entered := by
      rintro p mem isAdded
      obtain ⟨q, memQ, same⟩ := valid.known p.1 isAdded
      rcases mem_cons.mp mem with rfl | old
      · exact absurd same (legal q memQ)
      · have holds := valid.entered p old isAdded
        rcases entries p.2 with same | ⟨here, -⟩
        · exact same.trans holds
        · exact absurd here (fresh p old)
    known := by
      intro m isAdded
      obtain ⟨q, memQ, same⟩ := valid.known m isAdded
      exact ⟨q, .tail _ memQ, same⟩ }

/-- A legal and safe `_dl_add_to_slotinfo` keeps the invariant. -/
theorem Valid.add [DecidableEq α] (valid : Valid w) {l : α} {id : Nat} {doAdd malloc : Bool}
    (legal : (Event.add l id doAdd malloc).Legal w) (safe : (Event.add l id doAdd malloc).Safe w)
    : ∃ w', w.step (.add l id doAdd malloc) = some w' ∧ Valid w' := by
  obtain ⟨isPresent, dynamic, new⟩ := legal
  obtain ⟨ok, list', added, entries, -, more, lengths⟩ :=
    addToSlotinfo_spec (l := l) doAdd malloc w.vars.list id safe
  refine ⟨_, by rw [World.step, added]; rfl, ?_⟩
  exact {
    ids := valid.ids
    modules := valid.modules
    le_max := valid.le_max
    static_le := valid.static_le
    head := by
      obtain ⟨n, others, shape, large⟩ := valid.head
      exact ⟨n, others ++ more, by simp only [lengths, shape, cons_append], large⟩
    owner := by
      intro i m above holds
      simp only [entries] at holds
      split at holds
      next here =>
        obtain rfl := Option.some.inj holds
        exact here.1 ▸ isPresent
      next => exact valid.owner i m above holds
    entered := by
      intro p mem isAdded
      simp only [entries]
      split
      next here =>
        obtain ⟨m, i⟩ := p
        obtain rfl : i = id := here.1
        rw [valid.owner_unique isPresent mem]
      next elsewhere =>
        cases entering : ok && doAdd with
        | false =>
          simp only [entering, Bool.false_eq_true, if_false] at isAdded
          exact valid.entered p mem isAdded
        | true =>
          simp only [entering, if_true] at isAdded
          rcases mem_cons.mp isAdded with same | old
          · obtain ⟨m, i⟩ := p
            obtain rfl : m = l := same
            exact absurd ⟨valid.unique mem isPresent, Bool.and_eq_true_iff.mp entering⟩ elsewhere
          · exact valid.entered p mem old
    known := by
      intro m isAdded
      cases entering : ok && doAdd with
      | false =>
        simp only [entering, Bool.false_eq_true, if_false] at isAdded
        exact valid.known m isAdded
      | true =>
        simp only [entering, if_true] at isAdded
        rcases mem_cons.mp isAdded with rfl | old
        · exact ⟨_, isPresent, rfl⟩
        · exact valid.known m old }

/-- The new maximum is at least each other id. -/
theorem Valid.remove_max (valid : Valid w) {l : α} {id : Nat} {initCalled : Bool} {r : Removal α}
    (safe : (Event.remove l id initCalled).Safe w)
    (removes : Removes w.vars.staticNelem w.vars.maxDtvIdx 0 id w.vars.list r)
    : w.vars.staticNelem ≤ (if r.found then r.maxDtvIdx else w.vars.staticNelem)
      ∧ ∀ p ∈ w.present, p.1 ≠ l → p.2 ≤ if r.found then r.maxDtvIdx else w.vars.staticNelem := by
  obtain ⟨inside, covered⟩ := safe
  by_cases middle : id < total w.vars.list ∧ 0 + id ≠ w.vars.maxDtvIdx
  · obtain ⟨found, same⟩ := removes.middle middle.1 middle.2
    rw [if_pos found, same]
    exact ⟨valid.static_le, fun p mem _ => valid.le_max p mem⟩
  · have last : id = w.vars.maxDtvIdx ∨ id = total w.vars.list := by omega
    -- A used entry other than the removed one is below it.
    have lower : ∀ j, j ≠ id → slot w.vars.list j ≠ none → j < id := by
      intro j other used
      rcases last with isMax | isTotal
      · have := valid.below j used
        omega
      · by_contra above
        exact used (slot_outside (by omega))
    cases found : r.found with
    | true =>
      obtain ⟨j, maximum, low, -, -, above⟩ := removes.found middle found
      rw [if_pos rfl]
      refine ⟨by omega, fun p mem other => ?_⟩
      by_cases dynamic : w.vars.staticNelem < p.2
      · obtain ⟨i, high, notRemoved, used⟩ := covered last p mem other dynamic
        by_contra beyond
        exact used (above i (by omega) (lower i notRemoved used))
      · omega
    | false =>
      obtain ⟨-, unused⟩ := removes.missing found
      rw [if_neg Bool.false_ne_true]
      refine ⟨le_rfl, fun p mem other => ?_⟩
      by_contra dynamic
      obtain ⟨i, high, notRemoved, used⟩ := covered last p mem other (Nat.lt_of_not_le dynamic)
      exact used (unused i (by omega) (lower i notRemoved used))

/-- A legal and safe `remove_slotinfo` keeps the invariant. -/
theorem Valid.remove [DecidableEq α] (valid : Valid w) {l : α} {id : Nat} {initCalled : Bool}
    (legal : (Event.remove l id initCalled).Legal w) (safe : (Event.remove l id initCalled).Safe w)
    : ∃ w', w.step (.remove l id initCalled) = some w' ∧ Valid w' := by
  obtain ⟨isPresent, dynamic, initialized⟩ := legal
  obtain ⟨n, more, shape, large⟩ := valid.head
  obtain ⟨r, removed, removes⟩ :=
    @removeSlotinfo_spec _ w.vars.staticNelem w.vars.maxDtvIdx initCalled w.vars.list 0 id (.inl rfl)
      (by
        rintro empty
        rw [empty] at shape
        cases shape)
      (by
        rintro slots next list -
        rw [list] at shape
        rw [(List.cons.inj shape).1]
        exact large)
      safe.1
      (by
        intro isInitialized
        by_contra outside
        have holds := valid.entered _ isPresent (initialized isInitialized)
        rw [slot_outside (Nat.le_of_not_lt outside)] at holds
        cases holds)
  rw [Nat.zero_add] at removed
  obtain ⟨static_le, le_max⟩ := valid.remove_max safe removes
  refine ⟨_, by rw [World.step, Vars.remove, removed]; rfl, ?_⟩
  exact {
    ids := valid.ids.filter _
    modules := valid.modules.filter _
    le_max := by
      intro p mem
      obtain ⟨old, other⟩ := mem_filter.mp mem
      exact le_max p old (of_decide_eq_true other)
    static_le := static_le
    head := ⟨n, more, removes.lengths.trans shape, large⟩
    owner := by
      intro i m above holds
      simp only [removes.entries] at holds
      split at holds
      next => cases holds
      next elsewhere =>
        have old := valid.owner i m above holds
        refine mem_filter.mpr ⟨old, decide_eq_true ?_⟩
        rintro rfl
        exact elsewhere (valid.unique old isPresent)
    entered := by
      intro p mem isAdded
      obtain ⟨old, other⟩ := mem_filter.mp mem
      have elsewhere : p.2 ≠ id := by
        rintro rfl
        exact of_decide_eq_true other (valid.owner_unique old isPresent)
      simp only [removes.entries, if_neg elsewhere]
      exact valid.entered p old (mem_filter.mp isAdded).1
    known := by
      intro m isAdded
      obtain ⟨old, other⟩ := mem_filter.mp isAdded
      obtain ⟨p, mem, rfl⟩ := valid.known m old
      exact ⟨p, mem_filter.mpr ⟨mem, other⟩, rfl⟩ }

theorem Valid.step [DecidableEq α] (valid : Valid w) {e : Event α} (legal : e.Legal w)
    (safe : e.Safe w)
    : ∃ w', w.step e = some w' ∧ Valid w' := by
  cases e with
  | assign l => exact valid.assign legal safe
  | add l id doAdd malloc => exact valid.add legal safe
  | remove l id initCalled => exact valid.remove legal safe

theorem Valid.sound (valid : Valid w) : w.Sound := ⟨valid.ids, valid.le_max⟩

theorem Reachable.valid [DecidableEq α] (reachable : Reachable (fun w e => e.Legal w ∧ e.Safe w) w)
    : Valid w := by
  induction reachable with
  | start modules nodup => exact Valid.start modules nodup
  | step _ allowed stepped ih =>
    obtain ⟨w', stepped', valid⟩ := ih.step allowed.1 allowed.2
    exact Option.some.inj (stepped'.symm.trans stepped) ▸ valid

/-- While every event is safe, ids are different and at most the maximum, and no assertion fails. -/
theorem modid_sound [DecidableEq α] (w : World α)
    (reachable : Reachable (fun w e => e.Legal w ∧ e.Safe w) w)
    : w.Sound ∧ ∀ e : Event α, e.Legal w → e.Safe w → ∃ w', w.step e = some w' ∧ w'.Sound := by
  have valid := reachable.valid
  refine ⟨valid.sound, fun e legal safe => ?_⟩
  obtain ⟨w', stepped, valid'⟩ := valid.step legal safe
  exact ⟨w', stepped, valid'.sound⟩

/-- A module is loaded, and unloaded again. -/
theorem modid_sound_unloaded
    : ∃ w : World Nat, w.Sound ∧ w.added = [1]
      ∧ ∃ w', w.step (.remove 1 2 true) = some w' ∧ w'.Sound := by
  have started : Reachable (fun w e => Event.Legal (α := Nat) w e ∧ e.Safe w) (World.start [0]) :=
    .start [0] (nodup_singleton 0)
  have assigned := started.step (e := .assign 1)
    ⟨by simp [Event.Legal, World.start], nofun⟩ rfl
  have entered := assigned.step (e := .add 1 2 true true)
    ⟨by simp [Event.Legal, World.start], by unfold Event.Safe; decide⟩ rfl
  obtain ⟨sound, steps⟩ := modid_sound _ entered
  refine ⟨_, sound, rfl, steps (.remove 1 2 true) ?_ ⟨by decide, fun _ p mem other => ?_⟩⟩
  · simp [Event.Legal, World.start]
  · intro dynamic
    simp [World.start] at mem dynamic
    rcases mem with rfl | rfl
    · exact absurd rfl other
    · exact absurd dynamic (Nat.lt_irrefl 1)

/-- Unloading the last of two half-loaded modules lowers the maximum below the id of the other, which
is then assigned again.
-/
theorem modid_assigned_twice
    : ∃ w : World Nat, Reachable (fun w e => e.Legal w) w ∧ ¬ w.Sound := by
  have started : Reachable (fun w e => Event.Legal (α := Nat) w e) (World.start [0]) :=
    .start [0] (nodup_singleton 0)
  have first := started.step (e := .assign 1) (by simp [Event.Legal, World.start]) rfl
  have second := first.step (e := .assign 2) (by simp [Event.Legal, World.start]) rfl
  have removed := second.step (e := .remove 2 3 false) (by simp [Event.Legal, World.start]) rfl
  have third := removed.step (e := .assign 3) (by simp [Event.Legal, World.start]) rfl
  exact ⟨_, third, by decide⟩

end Nglibc.TlsModid
