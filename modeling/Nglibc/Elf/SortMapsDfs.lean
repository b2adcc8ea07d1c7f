import Mathlib.Data.Fintype.Basic
import Mathlib.Tactic.FinCases
import Nglibc.Elf.SortMapsOriginal

/-! The depth first search places every object behind all that depend on it. A second search over
the result does not change it.
-/

namespace Nglibc.Elf

open List

variable {α : Type} {S : List α} {dep : α → α → Prop} {t u : Traversal α} {x : α}

def DependenciesBehind (dep : α → α → Prop) (L : List α) : Prop :=
  ∀ pre x post, L = pre ++ x :: post → ∀ y, dep x y → y ∈ post

theorem DependenciesBehind.cons {L : List α} (behind : DependenciesBehind dep L)
    (inside : ∀ y, dep x y → y ∈ L)
    : DependenciesBehind dep (x :: L) := by
  intro pre z post split
  cases pre with
  | nil =>
    cases split
    exact inside
  | cons first pre =>
    cases split
    exact behind pre z post rfl

theorem DependenciesBehind.pairwise {L : List α} (behind : DependenciesBehind dep L)
    (nodup : L.Nodup)
    : L.Pairwise fun x y => ¬ dep y x := by
  induction L with
  | nil => exact List.Pairwise.nil
  | cons x L ih =>
    refine pairwise_cons.mpr ⟨?_, ih ?_ (nodup_cons.mp nodup).2⟩
    · intro y member depends
      obtain ⟨pre, post, rfl⟩ := append_of_mem member
      have later := behind (x :: pre) y post rfl x depends
      exact (nodup_cons.mp nodup).1 (mem_append_right _ (mem_cons_of_mem _ later))
    · intro pre z post split
      exact behind (x :: pre) z post (by rw [split]; rfl)

theorem DependencyOrder.front {g : α → LinkMap α} {forFini : Bool}
    {maps before behind : List α}
    (ordered : DependencyOrder g forFini maps (before ++ x :: behind))
    (free : ∀ y ∈ maps, ¬ DependsOn g forFini y x)
    : DependencyOrder g forFini maps (x :: (before ++ behind)) := by
  have moved : (x :: (before ++ behind)).Perm (before ++ x :: behind) := perm_middle.symm
  refine ⟨moved.trans ordered.perm, pairwise_cons.mpr ⟨?_, ?_⟩⟩
  · intro y member
    exact free y ((moved.trans ordered.perm).subset (mem_cons_of_mem _ member))
  · exact ordered.order.sublist
      ((List.Sublist.refl before).append (sublist_cons_self x behind))

/-- The objects placed so far are visited ones, with their dependencies behind them. -/
structure Traversal.Placed (S : List α) (dep : α → α → Prop) (t : Traversal α) : Prop where
  inside : ∀ z ∈ t.rpo, z ∈ S ∧ t.visited z = true
  nodup : t.rpo.Nodup
  behind : DependenciesBehind dep t.rpo

/-- An object whose traversal has begun and not ended. -/
def Traversal.Active (S : List α) (t : Traversal α) (z : α) : Prop :=
  z ∈ S ∧ t.visited z = true ∧ z ∉ t.rpo

/-- What a traversal does: it places objects, keeps what was visited, and begins nothing that it
does not end.
-/
structure Traversal.Extends (S : List α) (dep : α → α → Prop) (t u : Traversal α) : Prop where
  placed : u.Placed S dep
  visited : ∀ z, t.visited z = true → u.visited z = true
  active : ∀ z, u.Active S z ↔ t.Active S z

theorem Traversal.Extends.refl (placed : t.Placed S dep) : t.Extends S dep t :=
  ⟨placed, fun _ same => same, fun _ => Iff.rfl⟩

theorem Traversal.Extends.trans {v : Traversal α} (first : t.Extends S dep u)
    (second : u.Extends S dep v)
    : t.Extends S dep v :=
  ⟨second.placed, fun z seen => second.visited z (first.visited z seen),
    fun z => (second.active z).trans (first.active z)⟩

variable {visit : Traversal α → α → Option (Traversal α)} {fuel : Nat}

private theorem foldlM_extends (deps : List α)
    (step : ∀ u, t.Extends S dep u → ∀ d ∈ deps,
      ∃ v, visit u d = some v ∧ u.Extends S dep v ∧ v.visited d = true)
    : ∀ u, t.Extends S dep u →
      ∃ v, deps.foldlM visit u = some v ∧ u.Extends S dep v ∧ ∀ d ∈ deps, v.visited d = true := by
  induction deps with
  | nil => exact fun u ext => ⟨u, rfl, .refl ext.placed, forall_mem_nil _⟩
  | cons d deps ih =>
    intro u ext
    obtain ⟨v, visited, ext', seen⟩ := step u ext d mem_cons_self
    obtain ⟨w, folded, ext'', all⟩ := ih
      (fun u ext d member => step u ext d (mem_cons_of_mem _ member)) v (ext.trans ext')
    refine ⟨w, ?_, ext'.trans ext'', ?_⟩
    · rw [foldlM_cons, visited]
      exact folded
    · intro e member
      rcases mem_cons.mp member with rfl | member
      · exact ext''.visited e seen
      · exact all e member

/-- After the loops over its dependencies, all that an object depends on is visited. -/
theorem visitDependencies_extends {g : α → LinkMap α} {forFini : Bool} (placed : t.Placed S dep)
    (step : ∀ u, t.Extends S dep u → ∀ d, d = x ∨ DependsOn g forFini x d →
      ∃ v, visit u d = some v ∧ u.Extends S dep v ∧ v.visited d = true)
    : ∃ w, visitDependencies visit forFini (g x) t = some w ∧ t.Extends S dep w
      ∧ ∀ y, DependsOn g forFini x y → w.visited y = true := by
  obtain ⟨v, needed, extV, seenNeeded⟩ := foldlM_extends (g x).needed
    (fun u ext d there => step u ext d (by
      by_cases same : d = x
      · exact .inl same
      · exact .inr ⟨Ne.symm same, .inl there⟩)) t (.refl placed)
  unfold visitDependencies
  rw [needed]
  by_cases fini : forFini = true
  · cases deps : (g x).reldeps with
    | none =>
      simp only [LinkMap.reldepsToVisit, fini, if_true, deps, Option.map_none]
      refine ⟨v, rfl, extV, ?_⟩
      rintro y ⟨-, there | ⟨-, there⟩⟩
      · exact seenNeeded y there
      · rw [LinkMap.relocated, deps] at there
        cases there
    | some list =>
      have relocated : (g x).relocated = list := by rw [LinkMap.relocated, deps]; rfl
      simp only [LinkMap.reldepsToVisit, fini, if_true, deps, Option.map_some]
      obtain ⟨w, folded, extW, seen⟩ := foldlM_extends list.reverse
        (fun u ext d there => step u ext d (by
          by_cases same : d = x
          · exact .inl same
          · refine .inr ⟨Ne.symm same, .inr ⟨fini, ?_⟩⟩
            rw [relocated]
            exact mem_reverse.mp there)) { v with foundReldeps := true }
        ⟨⟨extV.placed.inside, extV.placed.nodup, extV.placed.behind⟩, extV.visited, extV.active⟩
      refine ⟨w, folded, extV.trans ⟨extW.placed, extW.visited, extW.active⟩, ?_⟩
      rintro y ⟨-, there | ⟨-, there⟩⟩
      · exact extW.visited y (seenNeeded y there)
      · rw [relocated] at there
        exact seen y (mem_reverse.mpr there)
  · simp only [LinkMap.reldepsToVisit, fini]
    refine ⟨v, rfl, extV, ?_⟩
    rintro y ⟨-, there | ⟨yes, -⟩⟩
    · exact seenNeeded y there
    · cases yes

/-- Nothing is active between two traversals of the top level. -/
structure Traversal.Resting (S : List α) (dep : α → α → Prop) (t : Traversal α) : Prop where
  placed : t.Placed S dep
  noneActive : ∀ z, ¬ t.Active S z

theorem Traversal.Resting.length_le (resting : t.Resting S dep) : t.rpo.length ≤ S.length :=
  (subperm_of_subset resting.placed.nodup fun z there =>
    (resting.placed.inside z there).1).length_le

/-- Once every object is visited, every object is placed. -/
theorem Traversal.Resting.length_eq (resting : t.Resting S dep) (nodup : S.Nodup)
    (all : ∀ z ∈ S, t.visited z = true)
    : t.rpo.length = S.length := by
  refine le_antisymm resting.length_le (subperm_of_subset nodup fun z inside => ?_).length_le
  by_contra absent
  exact resting.noneActive z ⟨inside, all z inside, absent⟩

variable [DecidableEq α]

def Traversal.unvisited (S : List α) (t : Traversal α) : Finset α :=
  S.toFinset.filter fun z => t.visited z = false

theorem Traversal.unvisited_card (visited : ∀ z, t.visited z = true → u.visited z = true)
    : (u.unvisited S).card ≤ (t.unvisited S).card := by
  apply Finset.card_le_card
  intro z member
  obtain ⟨inside, unseen⟩ := Finset.mem_filter.mp member
  refine Finset.mem_filter.mpr ⟨inside, ?_⟩
  by_contra seen
  rw [visited z (by simpa using seen)] at unseen
  cases unseen

theorem Traversal.begin_visited (t : Traversal α) (x z : α)
    : (t.begin x).visited z = true ↔ z = x ∨ t.visited z = true := by
  unfold Traversal.begin
  by_cases same : z = x
  · simp [same]
  · simp [same]

private theorem Traversal.begin_card (member : x ∈ S) (unseen : t.visited x = false)
    : ((t.begin x).unvisited S).card < (t.unvisited S).card := by
  apply Finset.card_lt_card
  refine Finset.ssubset_iff_subset_ne.mpr ⟨?_, ?_⟩
  · intro z inside
    obtain ⟨inside, later⟩ := Finset.mem_filter.mp inside
    refine Finset.mem_filter.mpr ⟨inside, ?_⟩
    by_contra seen
    rw [(t.begin_visited x z).mpr (.inr (by simpa using seen))] at later
    cases later
  · intro same
    have here : x ∈ t.unvisited S := Finset.mem_filter.mpr ⟨mem_toFinset.mpr member, unseen⟩
    rw [← same] at here
    have visited := (Finset.mem_filter.mp here).2
    rw [(t.begin_visited x x).mpr (.inl rfl)] at visited
    cases visited

/-- The objects of a graph without cycles: what the traversal of an object needs to know. -/
structure Searchable (g : α → LinkMap α) (forFini : Bool) (S : List α) : Prop where
  nodup : S.Nodup
  closed : ∀ x ∈ S, ∀ y, DependsOn g forFini x y → y ∈ S
  acyclic : ∀ x ∈ S, ¬ Relation.TransGen (DependsOn g forFini) x x
  noneFaked : ∀ x ∈ S, (g x).faked = false
  mainMap : ∀ x ∈ S, (g x).mainMap = true → ∀ y ∈ S, ¬ DependsOn g forFini y x

variable {g : α → LinkMap α} {forFini : Bool}

theorem Traversal.begin_active (placed : t.Placed S dep) (member : x ∈ S)
    (unseen : t.visited x = false) (z : α)
    : (t.begin x).Active S z ↔ t.Active S z ∨ z = x := by
  unfold Traversal.Active
  rw [t.begin_visited x z]
  constructor
  · rintro ⟨inside, rfl | seen, absent⟩
    · exact .inr rfl
    · exact .inl ⟨inside, seen, absent⟩
  · rintro (⟨inside, seen, absent⟩ | rfl)
    · exact ⟨inside, .inr seen, absent⟩
    · refine ⟨member, .inl rfl, fun there => ?_⟩
      rw [(placed.inside z there).2] at unseen
      cases unseen

section

variable (searchable : Searchable g forFini S)
include searchable

/-- The end of a traversal, when all dependencies have been visited. -/
theorem Searchable.place (member : x ∈ S) (unseen : t.visited x = false)
    (placed : t.Placed S (DependsOn g forFini))
    (above : ∀ z, t.Active S z → Relation.TransGen (DependsOn g forFini) z x)
    (ext : (t.begin x).Extends S (DependsOn g forFini) u)
    (all : ∀ y, DependsOn g forFini x y → u.visited y = true)
    : u.rpo.length < S.length ∧ t.Extends S (DependsOn g forFini) { u with rpo := x :: u.rpo } := by
  have active : ∀ z, u.Active S z ↔ t.Active S z ∨ z = x :=
    fun z => (ext.active z).trans (Traversal.begin_active placed member unseen z)
  have absent : x ∉ u.rpo := ((active x).mpr (.inr rfl)).2.2
  have seen : u.visited x = true := ext.visited x ((t.begin_visited x x).mpr (.inl rfl))
  have nodup : (x :: u.rpo).Nodup := nodup_cons.mpr ⟨absent, ext.placed.nodup⟩
  have inside : ∀ z ∈ x :: u.rpo, z ∈ S ∧ u.visited z = true := by
    intro z there
    rcases mem_cons.mp there with rfl | there
    · exact ⟨member, seen⟩
    · exact ext.placed.inside z there
  constructor
  · exact (subperm_of_subset nodup fun z there => (inside z there).1).length_le
  · refine ⟨⟨inside, nodup, ext.placed.behind.cons ?_⟩, ?_, ?_⟩
    · intro y depends
      have inS := searchable.closed x member y depends
      by_contra notThere
      rcases (active y).mp ⟨inS, all y depends, notThere⟩ with older | rfl
      · exact searchable.acyclic y inS ((above y older).tail depends)
      · exact depends.1 rfl
    · intro z visited
      exact ext.visited z ((t.begin_visited x z).mpr (.inr visited))
    · intro z
      constructor
      · rintro ⟨inS, visited, notThere⟩
        exact ((active z).mp ⟨inS, visited, not_mem_of_not_mem_cons notThere⟩).resolve_right
          (ne_of_not_mem_cons notThere)
      · intro older
        obtain ⟨inS, visited, notThere⟩ := (active z).mpr (.inl older)
        refine ⟨inS, visited, not_mem_cons_of_ne_of_not_mem ?_ notThere⟩
        rintro rfl
        rw [older.2.1] at unseen
        cases unseen

/-- The traversal of an object places it and all that it depends on. -/
theorem Searchable.dfs (fuel : Nat) (t : Traversal α) (x : α) (placed : t.Placed S (DependsOn g forFini))
    (member : x ∈ S) (fuelled : (t.unvisited S).card < fuel)
    (above : ∀ z, t.Active S z → Relation.TransGen (DependsOn g forFini) z x)
    : ∃ u, dfsTraversal g S.length forFini fuel x t = some u
      ∧ t.Extends S (DependsOn g forFini) u ∧ u.visited x = true := by
  induction fuel generalizing t x with
  | zero => omega
  | succ fuel ih =>
    rw [dfsTraversal]
    by_cases visited : t.visited x = true
    · rw [if_pos (by rw [visited]; rfl)]
      exact ⟨t, rfl, .refl placed, visited⟩
    · rw [if_neg (by simp [visited, searchable.noneFaked x member])]
      rw [Bool.not_eq_true] at visited
      have started : (t.begin x).Placed S (DependsOn g forFini) :=
        ⟨fun z there => ⟨(placed.inside z there).1,
          (t.begin_visited x z).mpr (.inr (placed.inside z there).2)⟩, placed.nodup, placed.behind⟩
      have fewer := Traversal.begin_card member visited
      have visit : ∀ u, (t.begin x).Extends S (DependsOn g forFini) u →
          ∀ d, d = x ∨ DependsOn g forFini x d →
          ∃ v, (if u.visited d = false ∧ (g d).mainMap = false then
              dfsTraversal g S.length forFini fuel d u else some u) = some v
            ∧ u.Extends S (DependsOn g forFini) v ∧ v.visited d = true := by
        intro u ext d needed
        by_cases seen : u.visited d = true
        · rw [if_neg (by simp [seen])]
          exact ⟨u, rfl, .refl ext.placed, seen⟩
        · have other : d ≠ x := by
            rintro rfl
            exact seen (ext.visited d ((t.begin_visited d d).mpr (.inl rfl)))
          have depends := needed.resolve_left other
          have inS := searchable.closed x member d depends
          have notMain : (g d).mainMap = false := by
            by_contra main
            exact searchable.mainMap d inS (by simpa using main) x member depends
          rw [if_pos ⟨by simpa using seen, notMain⟩]
          refine ih u d ext.placed inS ?_ ?_
          · have less := Traversal.unvisited_card (S := S) ext.visited
            omega
          · intro z active
            rcases (Traversal.begin_active placed member visited z).mp ((ext.active z).mp active)
              with older | rfl
            · exact (above z older).tail depends
            · exact .single depends
      obtain ⟨w, visits, ext, all⟩ := visitDependencies_extends started visit
      obtain ⟨room, placedToo⟩ := searchable.place member visited placed above ext all
      refine ⟨{ w with rpo := x :: w.rpo }, ?_, placedToo, ?_⟩
      · dsimp only
        rw [visits, Option.bind_some, if_pos room]
      · exact ext.visited x ((t.begin_visited x x).mpr (.inl rfl))

/-- The traversals go on until all objects are placed, or all of them have been begun. -/
theorem Searchable.traverseAll (fuelled : S.length < fuel) (maps : List α) (t : Traversal α)
    (resting : t.Resting S (DependsOn g forFini)) (inside : ∀ x ∈ maps, x ∈ S)
    : ∃ u, Elf.traverseAll g S.length forFini fuel maps t = some u
      ∧ u.Resting S (DependsOn g forFini)
      ∧ (u.rpo.length = S.length ∨ ∀ z, t.visited z = true ∨ z ∈ maps → u.visited z = true) := by
  induction maps generalizing t with
  | nil => exact ⟨t, rfl, resting, .inr fun z seen => seen.resolve_right not_mem_nil⟩
  | cons x maps ih =>
    have few : (t.unvisited S).card < fuel := by
      have filtered := Finset.card_filter_le S.toFinset fun z => t.visited z = false
      have distinct := toFinset_card_le S
      unfold Traversal.unvisited
      omega
    obtain ⟨u, run, ext, seen⟩ := searchable.dfs fuel t x resting.placed
      (inside x mem_cons_self) few fun z active => absurd active (resting.noneActive z)
    have restingU : u.Resting S (DependsOn g forFini) :=
      ⟨ext.placed, fun z active => resting.noneActive z ((ext.active z).mp active)⟩
    rw [Elf.traverseAll, run, Option.bind_some]
    by_cases full : u.rpo.length = S.length
    · rw [if_pos full]
      exact ⟨u, rfl, restingU, .inl full⟩
    · rw [if_neg full]
      obtain ⟨v, rest, restingV, ends⟩ := ih u restingU fun z member =>
        inside z (mem_cons_of_mem _ member)
      refine ⟨v, rest, restingV, ends.imp_right fun all z known => all z ?_⟩
      rcases known with before | member
      · exact .inl (ext.visited z before)
      · rcases mem_cons.mp member with rfl | member
        · exact .inl seen
        · exact .inr member

/-- The first search places all objects in dependency order. -/
theorem Searchable.reversePostorder (fuelled : S.length < fuel) (visited : α → Bool)
    : ∃ t, Elf.reversePostorder g forFini fuel visited S = some t ∧ t.rpo.Perm S
      ∧ t.rpo.Nodup ∧ DependenciesBehind (DependsOn g forFini) t.rpo := by
  have resting : Traversal.Resting S (DependsOn g forFini)
      ⟨fun x => if x ∈ S then false else visited x, [], false⟩ := by
    refine ⟨⟨forall_mem_nil _, nodup_nil, ?_⟩, ?_⟩
    · intro pre x post split
      simp at split
    · rintro z ⟨inside, seen, -⟩
      simp [inside] at seen
  obtain ⟨t, run, ends, complete⟩ := searchable.traverseAll fuelled S.reverse _ resting
    fun x member => mem_reverse.mp member
  have full : t.rpo.length = S.length := by
    rcases complete with full | all
    · exact full
    · exact ends.length_eq searchable.nodup fun z inside =>
        all z (.inr (mem_reverse.mpr inside))
  refine ⟨t, ?_, ?_, ends.placed.nodup, ends.placed.behind⟩
  · unfold Elf.reversePostorder
    dsimp only
    rw [run, Option.bind_some, if_pos full]
  · exact (subperm_of_subset ends.placed.nodup fun z there =>
      (ends.placed.inside z there).1).perm_of_length_le full.ge

end

/-- A traversal of an object whose dependencies are visited only places the object. -/
theorem dfsTraversal_ready {size fuel : Nat} (unseen : t.visited x = false)
    (notFaked : (g x).faked = false) (ready : ∀ y ∈ (g x).needed, y = x ∨ t.visited y = true)
    (room : t.rpo.length < size)
    : dfsTraversal g size false (fuel + 1) x t = some { t.begin x with rpo := x :: t.rpo } := by
  have nothing : ∀ deps : List α, (∀ y ∈ deps, (t.begin x).visited y = true) →
      deps.foldlM (fun t dep => if t.visited dep = false ∧ (g dep).mainMap = false then
        dfsTraversal g size false fuel dep t else some t) (t.begin x) = some (t.begin x) := by
    intro deps
    induction deps with
    | nil => exact fun _ => rfl
    | cons d deps ih =>
      intro seen
      rw [foldlM_cons, if_neg (by simp [seen d mem_cons_self])]
      exact ih fun y member => seen y (mem_cons_of_mem _ member)
  rw [dfsTraversal, if_neg (by simp [unseen, notFaked])]
  unfold visitDependencies
  dsimp only
  rw [nothing _ fun y member => (t.begin_visited x y).mpr (ready y member)]
  exact if_pos room

/-- Objects in dependency order are placed as they come. -/
theorem traverseAll_ordered (notFaked : ∀ x ∈ S, (g x).faked = false) (nodup : S.Nodup)
    (behind : DependenciesBehind (DependsOn g false) S) (pre post : List α) (split : S = pre ++ post)
    (t : Traversal α) (placed : t.rpo = post) (visited : ∀ z ∈ S, t.visited z = true ↔ z ∈ post)
    : ∃ u, traverseAll g S.length false (fuel + 1) pre.reverse t = some u ∧ u.rpo = S := by
  induction pre using List.reverseRecOn generalizing post t with
  | nil => exact ⟨t, rfl, by rw [placed, split]; rfl⟩
  | append_singleton pre x ih =>
    rw [append_assoc, singleton_append] at split
    have member : x ∈ S := by
      rw [split]
      exact mem_append_right _ mem_cons_self
    have parts : (x :: post).Nodup := by
      rw [split] at nodup
      exact nodup.of_append_right
    have unseen : t.visited x = false := by
      rw [← Bool.not_eq_true, visited x member]
      exact (nodup_cons.mp parts).1
    have ready : ∀ y ∈ (g x).needed, y = x ∨ t.visited y = true := by
      intro y needed
      by_cases same : y = x
      · exact .inl same
      · have there := behind pre x post split y ⟨Ne.symm same, .inl needed⟩
        refine .inr ((visited y ?_).mpr there)
        rw [split]
        exact mem_append_right _ (mem_cons_of_mem _ there)
    have room : t.rpo.length < S.length := by
      rw [placed, split, length_append, length_cons]
      omega
    rw [reverse_append, reverse_singleton, singleton_append, traverseAll,
      dfsTraversal_ready unseen (notFaked x member) ready room, Option.bind_some]
    split_ifs with full
    · refine ⟨_, rfl, ?_⟩
      have none : pre = [] := by
        have whole : (x :: post).length = (pre ++ x :: post).length := by
          rw [← split, ← placed]
          exact full
        rw [length_append] at whole
        exact eq_nil_of_length_eq_zero (by omega)
      rw [split, none, placed]
      rfl
    · refine ih (x :: post) split _ (by rw [placed]) fun z inside => ?_
      exact (t.begin_visited x z).trans (by rw [visited z inside, mem_cons])

/-- A search over objects in dependency order gives them back. -/
theorem reversePostorder_ordered (notFaked : ∀ x ∈ S, (g x).faked = false) (nodup : S.Nodup)
    (behind : DependenciesBehind (DependsOn g false) S) (before : α → Bool)
    : ∃ t, reversePostorder g false (fuel + 1) before S = some t ∧ t.rpo = S := by
  obtain ⟨t, run, same⟩ := traverseAll_ordered notFaked nodup behind S []
    (append_nil S).symm ⟨fun x => if x ∈ S then false else before x, [], false⟩ rfl
    (by
      intro z inside
      simp [inside])
  refine ⟨t, ?_, same⟩
  unfold reversePostorder
  dsimp only
  rw [run, Option.bind_some, if_pos (by rw [same])]

/-- The search sorts, whatever the flags were before. -/
theorem sortMapsDfs_sorts {maps : List α} {forceFirst : Bool}
    (sortable : Sortable g forceFirst forFini maps)
    (main : ∀ x ∈ maps, (g x).mainMap = true → ∀ y ∈ maps, ¬ DependsOn g forFini y x)
    (fuelled : maps.length < fuel) (visited : α → Bool)
    : ∃ sorted, sortMapsDfs g fuel visited maps forceFirst forFini = some sorted
      ∧ DependencyOrder g forFini maps sorted := by
  obtain ⟨t, run, perm, nodup, behind⟩ :=
    Searchable.reversePostorder ⟨sortable.nodup, sortable.closed, sortable.acyclic,
      sortable.noneFaked, main⟩ fuelled visited
  have ordered : DependencyOrder g forFini maps t.rpo := ⟨perm, behind.pairwise nodup⟩
  unfold sortMapsDfs
  rw [run, Option.bind_some]
  split_ifs with reldeps
  · -- Without relocation dependencies there is less to put behind.
    obtain ⟨fuel, rfl⟩ : ∃ n, fuel = n + 1 := ⟨fuel - 1, by omega⟩
    obtain ⟨u, again, same⟩ := reversePostorder_ordered
      (fun x member => sortable.noneFaked x (perm.subset member)) nodup
      (fun pre x post split y depends => behind pre x post split y
        ⟨depends.1, .inl (depends.2.resolve_right fun reldep => Bool.noConfusion reldep.1)⟩)
      t.visited
    refine ⟨t.rpo, ?_, ordered⟩
    rw [again, Option.map_some, same]
  · cases head : maps.head? with
    | none => exact ⟨t.rpo, rfl, ordered⟩
    | some first =>
      dsimp only
      split_ifs with move inside
      · have there : first ∈ t.rpo := perm.mem_iff.mpr (mem_of_mem_head? head)
        refine ⟨_, rfl, DependencyOrder.front ?_ (sortable.first move.1 first head)⟩
        have placed := getElem_cons_drop (idxOf_lt_length_iff.mpr there)
        rw [getElem_idxOf] at placed
        rw [placed, take_append_drop]
        exact ordered
      · refine absurd ?_ inside
        rw [← perm.length_eq]
        exact idxOf_lt_length_iff.mpr (perm.mem_iff.mpr (mem_of_mem_head? head))
      · exact ⟨t.rpo, rfl, ordered⟩

/-- Two objects, where the last one needs the first one. -/
def userLast (mainMap : Bool) (idx : Int) : Fin 2 → LinkMap (Fin 2)
  | 0 => ⟨some [0], none, 0, idx, mainMap, false⟩
  | 1 => ⟨some [1, 0], none, 1, 1, false, false⟩

theorem userLast_dependsOn {mainMap : Bool} {idx : Int} {x y : Fin 2}
    : DependsOn (userLast mainMap idx) forFini x y ↔ y < x := by
  unfold DependsOn
  fin_cases x <;> fin_cases y <;> simp [userLast, LinkMap.needed, LinkMap.relocated]

theorem userLast_sortable (mainMap : Bool) (idx : Int)
    : Sortable (userLast mainMap idx) false forFini [0, 1] := by
  refine ⟨by decide, by decide, ?_, ?_, ?_, ?_, ?_⟩
  · intro x _ y _
    fin_cases y <;> simp
  · intro x _ cycle
    have lower : ∀ y, Relation.TransGen (DependsOn (userLast mainMap idx) forFini) x y → y < x := by
      intro y path
      induction path with
      | single depends => exact userLast_dependsOn.mp depends
      | tail _ depends ih => exact (userLast_dependsOn.mp depends).trans ih
    exact lt_irrefl x (lower x cycle)
  · intro x _
    fin_cases x <;> rfl
  · intro x _ main
    fin_cases x
    · rfl
    · cases main
  · intro no
    cases no

theorem userLast_unordered (mainMap : Bool) (idx : Int)
    : ¬ DependencyOrder (userLast mainMap idx) forFini [0, 1] [0, 1] := by
  rintro ⟨-, order⟩
  exact (pairwise_cons.mp order).1 1 mem_cons_self (userLast_dependsOn.mpr (by decide))

end Nglibc.Elf
