import Mathlib.Algebra.Order.BigOperators.Group.Finset
import Nglibc.Lib.Iteration

/-! The objects that stay when one is closed: the marking loop of `_dl_close_worker` in `elf/dl-close.c`. One
index runs over the objects of a namespace, and goes back where an object that it has passed turns out to be
used. An object is its place in the list of the namespace.
-/

namespace Nglibc.Elf

variable {nloaded : Nat}

/-- `l_type`. -/
inductive ObjectType where
  | executable
  | library
  | loaded
  deriving DecidableEq, Repr

/-- What the loop looks at in a `struct link_map`: `initfini` is the list behind the first entry, which is the
object itself, and `none` is a list that is `NULL`.
-/
structure ClosingMap (nloaded : Nat) where
  type : ObjectType
  directOpencount : UInt32
  nodeleteActive : Bool
  tlsDtorCount : UInt64
  initfini : Option (List (Fin nloaded))
  reldeps : Option (List (Fin nloaded))

def idxStillUsed : Int := -1

/-- `l_map_used`, `l_map_done` and `l_idx` of the objects, and `done_index`. -/
structure Marking (nloaded : Nat) where
  mapUsed : Fin nloaded → Bool
  mapDone : Fin nloaded → Bool
  idx : Fin nloaded → Int
  doneIndex : Int

def Marking.start : Marking nloaded := ⟨fun _ => false, fun _ => false, fun l => l, -1⟩

/-- A dependency is marked; `none` if the assertion fails. -/
def Marking.markDependency (s : Marking nloaded) (dep : Fin nloaded) : Option (Marking nloaded) :=
  if s.idx dep ≠ idxStillUsed then
    if 0 ≤ s.idx dep ∧ s.idx dep < nloaded then
      if s.mapUsed dep = false then
        some { s with
          mapUsed := Function.update s.mapUsed dep true,
          doneIndex := if s.idx dep - 1 < s.doneIndex then s.idx dep - 1 else s.doneIndex }
      else some s
    else none
  else some s

/-- A turn of the loop, whose index is compared as an unsigned number. -/
def markTurn (maps : Fin nloaded → ClosingMap nloaded) (s : Marking nloaded)
    : Option (Marking nloaded ⊕ Marking nloaded) :=
  let doneIndex := s.doneIndex + 1
  if inside : 0 ≤ doneIndex ∧ doneIndex < nloaded then
    let l : Fin nloaded := ⟨doneIndex.toNat, by omega⟩
    if s.mapDone l then some (.inr { s with doneIndex })
    else if (maps l).type = .loaded ∧ (maps l).directOpencount = 0 ∧ (maps l).nodeleteActive = false
        ∧ (maps l).tlsDtorCount = 0 ∧ s.mapUsed l = false then
      some (.inr { s with doneIndex })
    else do
      let s : Marking nloaded :=
        { mapUsed := Function.update s.mapUsed l true, mapDone := Function.update s.mapDone l true,
          idx := Function.update s.idx l idxStillUsed, doneIndex }
      let s ← ((maps l).initfini.getD []).foldlM Marking.markDependency s
      let s ← ((maps l).reldeps.getD []).foldlM Marking.markDependency s
      some (.inr s)
  else some (.inl { s with doneIndex })

/-- An object that stays on its own account. -/
def ClosingMap.DirectlyUsed (m : ClosingMap nloaded) : Prop :=
  m.type ≠ .loaded ∨ 0 < m.directOpencount ∨ m.nodeleteActive = true ∨ 0 < m.tlsDtorCount

def Requires (maps : Fin nloaded → ClosingMap nloaded) (l dep : Fin nloaded) : Prop :=
  dep ∈ (maps l).initfini.getD [] ∨ dep ∈ (maps l).reldeps.getD []

/-- An object that can be reached from one that is directly used. -/
def Needed (maps : Fin nloaded → ClosingMap nloaded) (l : Fin nloaded) : Prop :=
  ∃ d, (maps d).DirectlyUsed ∧ Relation.ReflTransGen (Requires maps) d l

variable {maps : Fin nloaded → ClosingMap nloaded} {s t : Marking nloaded} {l dep : Fin nloaded}

theorem ClosingMap.not_directlyUsed_iff {m : ClosingMap nloaded}
    : ¬ m.DirectlyUsed
      ↔ m.type = .loaded ∧ m.directOpencount = 0 ∧ m.nodeleteActive = false ∧ m.tlsDtorCount = 0 := by
  simp [DirectlyUsed, UInt32.pos_iff_ne_zero, UInt64.pos_iff_ne_zero]

theorem update_true_iff {f : Fin nloaded → Bool} {k : Fin nloaded}
    : Function.update f l true k = true ↔ k = l ∨ f k = true := by
  by_cases same : k = l <;> simp [same]

/-- What holds while the dependencies of an object are marked: only needed objects are used, and every used
object that the index has passed is done.
-/
structure Marking.Sound (maps : Fin nloaded → ClosingMap nloaded) (s : Marking nloaded) : Prop where
  place : ∀ l, s.mapDone l = false → s.idx l = l
  still : ∀ l, s.mapDone l = true → s.idx l = idxStillUsed
  used : ∀ l, s.mapDone l = true → s.mapUsed l = true
  needed : ∀ l, s.mapUsed l = true → Needed maps l
  passed : ∀ l : Fin nloaded, l ≤ s.doneIndex → s.mapUsed l = true ∨ (maps l).DirectlyUsed →
    s.mapDone l = true
  low : -1 ≤ s.doneIndex
  high : s.doneIndex < nloaded

/-- More objects are used, and the same ones are done. -/
structure Marking.Extends (s t : Marking nloaded) : Prop where
  used : ∀ l, s.mapUsed l = true → t.mapUsed l = true
  done : t.mapDone = s.mapDone

private theorem Marking.Sound.markDependency (sound : s.Sound maps) (needed : Needed maps dep)
    : ∃ t, s.markDependency dep = some t ∧ t.Sound maps ∧ s.Extends t ∧ t.mapUsed dep = true := by
  have inside := dep.isLt
  have low := sound.low
  have high := sound.high
  unfold Marking.markDependency
  cases done : s.mapDone dep with
  | true =>
    rw [if_neg (not_not.mpr (sound.still dep done))]
    exact ⟨s, rfl, sound, ⟨fun _ => id, rfl⟩, sound.used dep done⟩
  | false =>
    rw [sound.place dep done, if_pos (by rw [idxStillUsed]; omega), if_pos (by omega)]
    cases used : s.mapUsed dep with
    | true => exact ⟨s, rfl, sound, ⟨fun _ => id, rfl⟩, used⟩
    | false =>
      have marked (l : Fin nloaded) (used : s.mapUsed l = true) := (update_true_iff (l := dep)).mpr (.inr used)
      refine ⟨_, rfl, ⟨sound.place, sound.still, fun l done => marked l (sound.used l done), ?_, ?_, ?_, ?_⟩,
        ⟨marked, rfl⟩, Function.update_self ..⟩
      · intro l used
        rcases update_true_iff.mp used with rfl | used
        · exact needed
        · exact sound.needed l used
      · intro l passed use
        dsimp only at passed
        -- the index goes back in front of the dependency
        have before : (l : Int) ≤ s.doneIndex ∧ l ≠ dep := by
          rw [ne_eq, Fin.ext_iff]
          split_ifs at passed <;> omega
        exact sound.passed l before.1
          (use.imp_left fun used => (update_true_iff.mp used).resolve_left before.2)
      · dsimp only
        split_ifs <;> omega
      · dsimp only
        split_ifs <;> omega

/-- The dependencies of an object are marked, by induction on their list. -/
theorem Marking.Sound.markDependencies (sound : s.Sound maps) {deps : List (Fin nloaded)}
    (needed : ∀ dep ∈ deps, Needed maps dep)
    : ∃ t, deps.foldlM Marking.markDependency s = some t ∧ t.Sound maps ∧ s.Extends t
      ∧ ∀ dep ∈ deps, t.mapUsed dep = true := by
  induction deps generalizing s with
  | nil => exact ⟨s, rfl, sound, ⟨fun _ => id, rfl⟩, fun _ => nofun⟩
  | cons dep deps ih =>
    rw [List.forall_mem_cons] at needed
    obtain ⟨t, run, sound', first, used⟩ := sound.markDependency needed.1
    obtain ⟨u, rest, sound'', second, all⟩ := ih sound' needed.2
    refine ⟨u, ?_, sound'', ⟨fun l marked => second.used l (first.used l marked), second.done.trans first.done⟩,
      List.forall_mem_cons.mpr ⟨second.used dep used, all⟩⟩
    rw [List.foldlM_cons, run]
    exact rest

/-- What holds between two turns: what a done object requires is used. -/
structure Marking.Closed (maps : Fin nloaded → ClosingMap nloaded) (s : Marking nloaded) : Prop
    extends s.Sound maps where
  closed : ∀ l, s.mapDone l = true → ∀ dep, Requires maps l dep → s.mapUsed dep = true

/-- The objects that are not done count more than the way that is left to the index. -/
def Marking.left (s : Marking nloaded) : Nat :=
  (Finset.univ.filter fun l => s.mapDone l = false).card * (nloaded + 1)
    + (nloaded - (s.doneIndex + 1)).toNat

theorem Marking.Closed.pass (closed : s.Closed maps) (place : (l : Int) = s.doneIndex + 1)
    (idle : s.mapUsed l = true ∨ (maps l).DirectlyUsed → s.mapDone l = true)
    : ({ s with doneIndex := s.doneIndex + 1 } : Marking nloaded).Closed maps
      ∧ ({ s with doneIndex := s.doneIndex + 1 } : Marking nloaded).left < s.left := by
  have inside := l.isLt
  have low := closed.low
  refine ⟨⟨⟨closed.place, closed.still, closed.used, closed.needed, fun k passed => ?_, ?_, ?_⟩,
    closed.closed⟩, ?_⟩
  · dsimp only at passed
    by_cases same : k = l
    · rw [same]
      exact idle
    · rw [Fin.ext_iff] at same
      exact closed.passed k (by omega)
  · dsimp only
    omega
  · dsimp only
    omega
  · unfold Marking.left
    dsimp only
    omega

theorem Marking.Closed.mark (closed : s.Closed maps) (place : (l : Int) = s.doneIndex + 1)
    (needed : Needed maps l)
    : Marking.Sound maps
        { mapUsed := Function.update s.mapUsed l true, mapDone := Function.update s.mapDone l true,
          idx := Function.update s.idx l idxStillUsed, doneIndex := s.doneIndex + 1 } := by
  have inside := l.isLt
  have low := closed.low
  refine ⟨fun k fresh => ?_, fun k done => ?_, fun k done => ?_, fun k used => ?_, fun k passed use => ?_,
    ?_, ?_⟩
  · rw [← Bool.not_eq_true, update_true_iff, not_or, Bool.not_eq_true] at fresh
    exact (Function.update_of_ne fresh.1 ..).trans (closed.place k fresh.2)
  · by_cases same : k = l
    · rw [same]
      exact Function.update_self ..
    · exact (Function.update_of_ne same ..).trans
        (closed.still k ((update_true_iff.mp done).resolve_left same))
  · exact update_true_iff.mpr ((update_true_iff.mp done).imp_right (closed.used k))
  · rcases update_true_iff.mp used with rfl | used
    · exact needed
    · exact closed.needed k used
  · dsimp only at passed
    refine update_true_iff.mpr (or_iff_not_imp_left.mpr fun other => closed.passed k ?_
      (use.imp_left fun used => (update_true_iff.mp used).resolve_left other))
    rw [Fin.ext_iff] at other
    omega
  · dsimp only
    omega
  · dsimp only
    omega

/-- One object more is done, so that the index may go back. -/
theorem Marking.left_lt (fresh : s.mapDone l = false) (done : t.mapDone = Function.update s.mapDone l true)
    (low : -1 ≤ t.doneIndex)
    : t.left < s.left := by
  have fewer : (Finset.univ.filter fun k => t.mapDone k = false).card
      < (Finset.univ.filter fun k => s.mapDone k = false).card := by
    refine Finset.card_lt_card ((Finset.ssubset_iff_of_subset fun k member => ?_).mpr ⟨l, ?_, ?_⟩)
    · rw [Finset.mem_filter_univ, done, ← Bool.not_eq_true, update_true_iff, not_or,
        Bool.not_eq_true] at member
      exact Finset.mem_filter_univ k |>.mpr member.2
    · rwa [Finset.mem_filter_univ]
    · rw [Finset.mem_filter_univ, done, Function.update_self]
      decide
  have bound := Nat.mul_le_mul_right (nloaded + 1) fewer
  rw [Nat.succ_mul] at bound
  unfold Marking.left
  omega

/-- A turn keeps what is marked closed and ends with the needed objects. -/
theorem markTurn_progresses
    : Progresses (markTurn maps) (Marking.Closed maps) (fun s => ∀ l, s.mapUsed l = true ↔ Needed maps l)
        Marking.left := by
  intro s closed
  have low := closed.low
  unfold markTurn
  by_cases inside : 0 ≤ s.doneIndex + 1 ∧ s.doneIndex + 1 < nloaded
  case neg =>
    -- all objects are passed
    refine .inl ⟨_, dif_neg inside, fun l => ⟨closed.needed l, ?_⟩⟩
    have passed (l : Fin nloaded) := closed.passed l (by have := l.isLt; omega)
    rintro ⟨d, direct, path⟩
    induction path with
    | refl => exact closed.used d (passed d (.inr direct))
    | tail _ requires ih => exact closed.closed _ (passed _ (.inl ih)) _ requires
  rw [dif_pos inside]
  generalize item : (⟨(s.doneIndex + 1).toNat, _⟩ : Fin nloaded) = l
  have place : (l : Int) = s.doneIndex + 1 := by
    rw [← item]
    exact Int.toNat_of_nonneg inside.1
  by_cases done : s.mapDone l = true
  · rw [if_pos done]
    exact .inr ⟨_, rfl, closed.pass place fun _ => done⟩
  rw [if_neg done]
  by_cases idle : (maps l).type = .loaded ∧ (maps l).directOpencount = 0 ∧ (maps l).nodeleteActive = false
      ∧ (maps l).tlsDtorCount = 0 ∧ s.mapUsed l = false
  · rw [if_pos idle]
    obtain ⟨type, count, nodelete, dtors, unused⟩ := idle
    refine .inr ⟨_, rfl, closed.pass place fun use => ?_⟩
    rcases use with used | direct
    · exact absurd used (Bool.eq_false_iff.mp unused)
    · exact absurd direct (ClosingMap.not_directlyUsed_iff.mpr ⟨type, count, nodelete, dtors⟩)
  rw [if_neg idle]
  have needed : Needed maps l := by
    by_cases direct : (maps l).DirectlyUsed
    · exact ⟨l, direct, .refl⟩
    · obtain ⟨type, count, nodelete, dtors⟩ := ClosingMap.not_directlyUsed_iff.mp direct
      exact closed.needed l (by simpa [type, count, nodelete, dtors] using idle)
  have requires (dep : Fin nloaded) (required : Requires maps l dep) : Needed maps dep := by
    obtain ⟨d, direct, path⟩ := needed
    exact ⟨d, direct, path.tail required⟩
  obtain ⟨t, run, sound, first, used⟩ :=
    (closed.mark place needed).markDependencies fun dep member => requires dep (.inl member)
  obtain ⟨u, run', sound', second, used'⟩ :=
    sound.markDependencies fun dep member => requires dep (.inr member)
  have marked := second.done.trans first.done
  simp only [run, run', Option.bind_eq_bind, Option.bind_some]
  refine .inr ⟨u, rfl, ⟨sound', fun k done' dep required => ?_⟩,
    Marking.left_lt (Bool.eq_false_iff.mpr done) marked sound'.low⟩
  rw [marked] at done'
  rcases update_true_iff.mp done' with rfl | before
  · rcases required with member | member
    · exact second.used dep (used dep member)
    · exact used' dep member
  · exact second.used dep (first.used dep (update_true_iff.mpr (.inr (closed.closed k before dep required))))

/-- The marking loop ends without a failed assertion, and what it leaves used is what is needed. -/
theorem markTurn_marks (maps : Fin nloaded → ClosingMap nloaded)
    : ∃ fuel s, iterate (markTurn maps) fuel .start = some s ∧ ∀ l, s.mapUsed l = true ↔ Needed maps l := by
  refine ⟨_, markTurn_progresses.iterate _ ?_ (Nat.lt_succ_self _)⟩
  refine ⟨⟨fun _ _ => rfl, fun _ => nofun, fun _ => nofun, fun _ => nofun, fun l passed => ?_, le_rfl, ?_⟩,
    fun _ => nofun⟩
  · exact absurd passed (by simp only [Marking.start]; omega)
  · simp only [Marking.start]
    omega

end Nglibc.Elf
