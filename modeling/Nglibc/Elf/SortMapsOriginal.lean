import Mathlib.Data.Finset.Card
import Mathlib.Algebra.Order.BigOperators.Group.List
import Mathlib.Algebra.Order.Ring.Nat
import Mathlib.Algebra.Group.Action.Defs
import Nglibc.Elf.SortMaps

/-! The original algorithm sorts objects without cycles: the counters that are to stop it in a
cycle never do.
-/

namespace Nglibc.Elf

open List

variable {α β : Type}

/-! Moving an object behind the last one that uses it -/

private theorem moveBack_append (done : List β) (x : β) (pre : List β) (y : β) (post : List β)
    : moveBack done.length (done.length + pre.length + 1) (done ++ x :: (pre ++ y :: post))
      = done ++ (pre ++ y :: x :: post) := by
  have behind : (done ++ x :: (pre ++ y :: post)).drop (done.length + 1) = pre ++ y :: post := by
    simp
  have upTo : (pre ++ y :: post).take (done.length + pre.length + 1 - done.length) = pre ++ [y] := by
    rw [show done.length + pre.length + 1 - done.length = pre.length + 1 by omega, take_append]
    simp
  have rest : (done ++ x :: (pre ++ y :: post)).drop (done.length + pre.length + 1 + 1) = post := by
    rw [show done.length + pre.length + 1 + 1 = (done.length + 1) + (pre.length + 1) by omega,
      ← drop_drop, behind, drop_append]
    simp
  unfold moveBack
  rw [behind, upTo, rest]
  simp

/-- The search finds the last object with the property behind `x`, or there is none. -/
theorem lastUser_append (p : α → Bool) (done : List α) (x : α) (tail extra : List α)
    : (∀ y ∈ tail, p y = false)
        ∧ lastUser p (done ++ x :: (tail ++ extra)) done.length (done.length + tail.length) = none
      ∨ ∃ pre y post, tail = pre ++ y :: post ∧ p y = true ∧ (∀ z ∈ post, p z = false)
        ∧ lastUser p (done ++ x :: (tail ++ extra)) done.length (done.length + tail.length)
          = some (done.length + pre.length + 1) := by
  induction tail using List.reverseRecOn generalizing extra with
  | nil =>
    refine .inl ⟨forall_mem_nil _, ?_⟩
    rw [length_nil]
    cases done.length with
    | zero => rfl
    | succ n => rw [lastUser, if_neg (Nat.lt_irrefl _)]
  | append_singleton tail z ih =>
    have place : (done ++ x :: (tail ++ [z] ++ extra))[done.length + tail.length + 1]? = some z := by
      rw [getElem?_append_right (by omega),
        show done.length + tail.length + 1 - done.length = tail.length + 1 by omega,
        getElem?_cons_succ, append_assoc, getElem?_append_right le_rfl, Nat.sub_self]
      rfl
    have step : lastUser p (done ++ x :: (tail ++ [z] ++ extra)) done.length
          (done.length + (tail ++ [z]).length)
        = if p z then some (done.length + tail.length + 1)
          else lastUser p (done ++ x :: (tail ++ ([z] ++ extra))) done.length
            (done.length + tail.length) := by
      rw [length_append, length_singleton, ← Nat.add_assoc, lastUser,
        if_pos (by omega), place, ← append_assoc]
      rfl
    rw [step]
    by_cases holds : p z = true
    · rw [if_pos holds]
      exact .inr ⟨tail, z, [], rfl, holds, forall_mem_nil _, rfl⟩
    · rw [if_neg holds]
      rw [Bool.not_eq_true] at holds
      rcases ih ([z] ++ extra) with ⟨none, same⟩ | ⟨pre, y, post, rfl, found, last, same⟩
      · refine .inl ⟨?_, same⟩
        intro y member
        rcases mem_append.mp member with inside | inside
        · exact none y inside
        · rw [mem_singleton.mp inside, holds]
      · refine .inr ⟨pre, y, post ++ [z], by simp, found, ?_, same⟩
        intro w member
        rcases mem_append.mp member with inside | inside
        · exact last w inside
        · rw [mem_singleton.mp inside, holds]

/-! How often an object comes to the front -/

section Rounds

variable {dep : α → α → Prop} {L : List α} {c : α → Nat}

/-- The objects that are not placed yet, each with the number of times it was moved back: at most
once more than an object that depends on it, and no more than one that stands behind it.
-/
structure Round (dep : α → α → Prop) (L : List α) (c : α → Nat) : Prop where
  near : ∀ x ∈ L, ∀ y ∈ L, dep y x → c x ≤ c y + 1
  behind : L.Pairwise fun x y => dep y x → c x ≤ c y
  used : ∀ x ∈ L, 0 < c x → ∃ y ∈ L, dep y x

theorem Round.start (dep : α → α → Prop) (L : List α) : Round dep L fun _ => 0 :=
  ⟨fun _ _ _ _ _ => Nat.zero_le _, pairwise_of_forall fun _ _ _ => le_rfl,
    fun _ _ positive => absurd positive (Nat.lt_irrefl _)⟩

variable [DecidableEq α]

/-- One object is moved behind all that depend on it. -/
theorem Round.move {x : α} {front post : List α} (round : Round dep (x :: (front ++ post)) c)
    (nodup : (x :: (front ++ post)).Nodup) (irreflexive : ∀ z, ¬ dep z z)
    (user : ∃ y ∈ front, dep y x) (last : ∀ z ∈ post, ¬ dep z x)
    : Round dep (front ++ x :: post) (Function.update c x (c x + 1)) := by
  have members : ∀ z, z ∈ front ++ x :: post ↔ z ∈ x :: (front ++ post) :=
    fun z => perm_middle.mem_iff
  have self : Function.update c x (c x + 1) x = c x + 1 := Function.update_self ..
  have others : ∀ z, z ≠ x → Function.update c x (c x + 1) z = c z :=
    fun z other => Function.update_of_ne other ..
  have apart : ∀ z ∈ front ++ post, z ≠ x := by
    rintro z member rfl
    exact (nodup_cons.mp nodup).1 member
  obtain ⟨head, tail⟩ := pairwise_cons.mp round.behind
  obtain ⟨inFront, inPost, across⟩ := pairwise_append.mp tail
  refine ⟨?_, ?_, ?_⟩
  · intro a memberA b memberB depends
    have memberA := (members a).mp memberA
    have memberB := (members b).mp memberB
    have near := round.near a memberA b memberB depends
    by_cases sameA : a = x
    · subst sameA
      have other : b ≠ a := fun same => irreflexive a (same ▸ depends)
      have inTail := (mem_cons.mp memberB).resolve_left other
      rw [self, others b other]
      exact Nat.succ_le_succ (head b inTail depends)
    · rw [others a sameA]
      by_cases sameB : b = x
      · rw [sameB]
        rw [sameB] at near
        omega
      · rw [others b sameB]
        exact near
  · refine pairwise_append.mpr ⟨?_, pairwise_cons.mpr ⟨?_, ?_⟩, ?_⟩
    · refine inFront.imp_of_mem ?_
      intro a b memberA memberB counts depends
      rw [others a (apart a (mem_append_left _ memberA)),
        others b (apart b (mem_append_left _ memberB))]
      exact counts depends
    · intro z member depends
      exact absurd depends (last z member)
    · refine inPost.imp_of_mem ?_
      intro a b memberA memberB counts depends
      rw [others a (apart a (mem_append_right _ memberA)),
        others b (apart b (mem_append_right _ memberB))]
      exact counts depends
    · intro a memberA b memberB depends
      have inside := mem_append_left post memberA
      rw [others a (apart a inside)]
      rcases mem_cons.mp memberB with rfl | memberB
      · rw [self]
        exact round.near a (mem_cons_of_mem _ inside) b mem_cons_self depends
      · rw [others b (apart b (mem_append_right _ memberB))]
        exact across a memberA b memberB depends
  · intro a memberA positive
    by_cases same : a = x
    · subst same
      obtain ⟨y, member, depends⟩ := user
      exact ⟨y, mem_append_left _ member, depends⟩
    · rw [others a same] at positive
      obtain ⟨y, member, depends⟩ := round.used a ((members a).mp memberA) positive
      exact ⟨y, (members y).mpr member, depends⟩

/-- An object is not moved back more often than there are objects above it. -/
theorem Round.count_lt (round : Round dep L c) (acyclic : ∀ x ∈ L, ¬ Relation.TransGen dep x x)
    {x : α} (member : x ∈ L)
    : c x < L.length := by
  classical
  let above (x : α) : Finset α := L.toFinset.filter fun y => Relation.TransGen dep y x
  have bound : ∀ n, ∀ x ∈ L, (above x).card = n → c x ≤ n := by
    intro n
    induction n using Nat.strong_induction_on with
    | _ n ih =>
      intro x member card
      by_contra large
      obtain ⟨y, memberY, depends⟩ := round.used x member (by omega)
      have less : (above y).card < (above x).card := by
        apply Finset.card_lt_card
        refine Finset.ssubset_iff_subset_ne.mpr ⟨?_, ?_⟩
        · intro z inside
          obtain ⟨memberZ, path⟩ := Finset.mem_filter.mp inside
          exact Finset.mem_filter.mpr ⟨memberZ, path.tail depends⟩
        · intro same
          have inside : y ∈ above x :=
            Finset.mem_filter.mpr ⟨mem_toFinset.mpr memberY, .single depends⟩
          rw [← same] at inside
          exact acyclic y memberY (Finset.mem_filter.mp inside).2
      have smaller := ih (above y).card (by omega) y memberY rfl
      have near := round.near x member y memberY depends
      omega
  have fewer : (above x).card < L.toFinset.card := by
    apply Finset.card_lt_card
    refine Finset.ssubset_iff_subset_ne.mpr ⟨Finset.filter_subset _ _, ?_⟩
    intro same
    have inside : x ∈ above x := by
      rw [same]
      exact mem_toFinset.mpr member
    exact acyclic x member (Finset.mem_filter.mp inside).2
  have few := toFinset_card_le L
  have count := bound _ x member rfl
  omega

end Rounds

/-! The loop -/

section Loop

variable {g : α → LinkMap α} {forFini : Bool}

/-- The objects that the algorithm does not move back: for finalization ld.so in secondary namespaces
and the objects that are not removed.
-/
def Skipped (g : α → LinkMap α) (forFini : Bool) (x : α) : Prop :=
  forFini = true ∧ ((g x).real ≠ x ∨ (g x).idx = -1)

/-- `y` depends on an object that the algorithm moves back. -/
def DependsOnMoved (g : α → LinkMap α) (forFini : Bool) (y x : α) : Prop :=
  DependsOn g forFini y x ∧ ¬ Skipped g forFini x

/-- Objects without cycles. -/
structure Orderable (g : α → LinkMap α) (forFini : Bool) (L : List α) : Prop where
  nodup : L.Nodup
  acyclic : ∀ x ∈ L, ¬ Relation.TransGen (DependsOn g forFini) x x

variable {L : List α} {c : α → Nat} {x : α} {rest : List α}

theorem Orderable.perm (orderable : Orderable g forFini L) {L' : List α} (perm : L'.Perm L)
    : Orderable g forFini L' :=
  ⟨perm.nodup_iff.mpr orderable.nodup, fun x member => orderable.acyclic x (perm.mem_iff.mp member)⟩

theorem Orderable.tail (orderable : Orderable g forFini (x :: rest)) : Orderable g forFini rest :=
  ⟨(nodup_cons.mp orderable.nodup).2,
    fun y member => orderable.acyclic y (mem_cons_of_mem _ member)⟩

theorem Orderable.moved (orderable : Orderable g forFini L)
    : ∀ x ∈ L, ¬ Relation.TransGen (DependsOnMoved g forFini) x x :=
  fun x member cycle => orderable.acyclic x member
    (Relation.TransGen.mono (fun _ _ depends => And.left depends) _ _ cycle)

/-- The entries of `seen` for the objects that are not placed yet. -/
def seenBy (c : α → Nat) (L : List α) : List Nat := L.map fun x => c x % 2 ^ 16

theorem modify_seenBy (s : List Nat) (c : α → Nat) (x : α) (rest : List α)
    : (s ++ seenBy c (x :: rest)).modify s.length (fun n => (n + 1) % 2 ^ 16)
      = s ++ ((c x + 1) % 2 ^ 16) :: seenBy c rest := by
  rw [modify_eq_take_drop, take_left, drop_left,
    show seenBy c (x :: rest) = (c x % 2 ^ 16) :: seenBy c rest from rfl, modifyHead_cons,
    Nat.mod_add_mod]

variable [DecidableEq α]

/-- What a round of the loop finds for the object at `i`. -/
def foundUser (g : α → LinkMap α) (forFini : Bool) (maps : List α) (i : Nat) (x : α) : Option Nat :=
  if forFini && (decide ((g x).real ≠ x) || decide ((g x).idx = -1)) then none
  else lastUser (fun y => uses g forFini y x) maps i (maps.length - 1)

/-- Without cycles the algorithm takes every dependency for one. -/
theorem Orderable.uses_iff (orderable : Orderable g forFini (x :: rest)) {y : α} (member : y ∈ rest)
    : uses g forFini y x = true ↔ DependsOn g forFini y x := by
  have other : y ≠ x := by
    rintro rfl
    exact (nodup_cons.mp orderable.nodup).1 member
  unfold uses DependsOn
  simp only [Bool.or_eq_true, Bool.and_eq_true, Bool.not_eq_true', contains_eq_mem,
    decide_eq_false_iff_not]
  constructor
  · rintro (needed | ⟨⟨fini, relocated⟩, -⟩)
    · exact ⟨other, .inl (by simpa using needed)⟩
    · exact ⟨other, .inr ⟨fini, by simpa using relocated⟩⟩
  · rintro ⟨-, needed | ⟨fini, relocated⟩⟩
    · exact .inl (by simpa using needed)
    · refine .inr ⟨⟨fini, by simpa using relocated⟩, fun back => ?_⟩
      have cycle : Relation.TransGen (DependsOn g forFini) y y :=
        .tail (.single ⟨other, .inr ⟨fini, relocated⟩⟩) ⟨other.symm, .inl back⟩
      exact orderable.acyclic y (mem_cons_of_mem _ member) cycle

/-- The search from the end finds the last object that has to stand in front, if any. -/
theorem Orderable.found (orderable : Orderable g forFini (x :: rest)) (done : List α)
    : (∀ y ∈ rest, ¬ DependsOnMoved g forFini y x)
        ∧ foundUser g forFini (done ++ x :: rest) done.length x = none
      ∨ ∃ pre y post, rest = pre ++ y :: post ∧ DependsOnMoved g forFini y x
        ∧ (∀ z ∈ post, ¬ DependsOnMoved g forFini z x)
        ∧ foundUser g forFini (done ++ x :: rest) done.length x
          = some (done.length + pre.length + 1) := by
  unfold foundUser
  have skip : (forFini && (decide ((g x).real ≠ x) || decide ((g x).idx = -1))) = true
      ↔ Skipped g forFini x := by
    simp [Skipped]
  by_cases skipped : Skipped g forFini x
  · rw [if_pos (skip.mpr skipped)]
    exact .inl ⟨fun y _ depends => depends.2 skipped, rfl⟩
  rw [if_neg (fun test => skipped (skip.mp test))]
  have length : (done ++ x :: rest).length - 1 = done.length + rest.length := by
    rw [length_append, length_cons]
    omega
  have search := lastUser_append (fun y => uses g forFini y x) done x rest []
  rw [append_nil] at search
  rw [length]
  rcases search with ⟨none, same⟩ | ⟨pre, y, post, rfl, found, last, same⟩
  · refine .inl ⟨fun y member depends => ?_, same⟩
    have used := (orderable.uses_iff member).mpr depends.1
    rw [none y member] at used
    cases used
  · refine .inr ⟨pre, y, post, rfl, ?_, ?_, same⟩
    · exact ⟨(orderable.uses_iff (mem_append_right _ mem_cons_self)).mp found, skipped⟩
    · intro z member depends
      have used := (orderable.uses_iff
        (mem_append_right _ (mem_cons_of_mem _ member))).mpr depends.1
      rw [last z member] at used
      cases used

theorem seenBy_update (nodup : (x :: rest).Nodup)
    : seenBy (Function.update c x (c x + 1)) (x :: rest)
      = ((c x + 1) % 2 ^ 16) :: seenBy c rest := by
  unfold seenBy
  rw [map_cons, Function.update_self]
  congr 1
  apply map_congr_left
  intro y member
  rw [Function.update_of_ne]
  rintro rfl
  exact (nodup_cons.mp nodup).1 member

/-- A round that does not fire the test of the counters. -/
theorem originalLoop_move (done : List α) (s : List Nat) (places : s.length = done.length)
    (orderable : Orderable g forFini (x :: rest)) {pre : List α} {y : α} {post : List α}
    (split : rest = pre ++ y :: post)
    (found : foundUser g forFini (done ++ x :: rest) done.length x
      = some (done.length + pre.length + 1))
    (few : ∀ z ∈ rest, c z ≤ rest.length + 1) (fuel : Nat)
    : originalLoop g forFini (fuel + 1) done.length (done ++ x :: rest) (s ++ seenBy c (x :: rest))
      = originalLoop g forFini fuel done.length (done ++ (pre ++ y :: x :: post))
          (s ++ seenBy (Function.update c x (c x + 1)) (pre ++ y :: x :: post)) := by
  have this : (done ++ x :: rest)[done.length]? = some x := by
    rw [getElem?_append_right le_rfl, Nat.sub_self]
    rfl
  have counted := modify_seenBy s c x rest
  rw [← seenBy_update orderable.nodup, places] at counted
  have below : ¬ (s ++ seenBy (Function.update c x (c x + 1)) (x :: rest)).getD (done.length + 1) 0
      > (moveBack done.length (done.length + pre.length + 1) (done ++ x :: rest)).length
        - done.length := by
    have length : (moveBack done.length (done.length + pre.length + 1) (done ++ x :: rest)).length
        - done.length = rest.length + 1 := by
      rw [split, moveBack_append]
      simp only [length_append, length_cons]
      omega
    rw [length, ← places]
    match rest, split, few, orderable with
    | z :: tail, _, few, orderable =>
      have other : z ≠ x := by
        rintro rfl
        exact (nodup_cons.mp orderable.nodup).1 mem_cons_self
      have second : (s ++ seenBy (Function.update c x (c x + 1)) (x :: z :: tail)).getD
          (s.length + 1) 0 = c z % 2 ^ 16 := by
        rw [getD_eq_getElem?_getD, getElem?_append_right (by omega),
          Nat.add_sub_cancel_left, seenBy, map_cons, map_cons, getElem?_cons_succ, Function.update_of_ne other]
        rfl
      have small := few z mem_cons_self
      omega
    | [], split, _, _ => simp at split
  rw [originalLoop]
  unfold foundUser at found
  simp only [this, found, counted]
  rw [if_neg below, split, moveBack_append, ← places]
  unfold seenBy
  rw [map_cons, map_append, map_cons]
  have moved := @moveBack_append Nat s (Function.update c x (c x + 1) x % 2 ^ 16)
    (pre.map fun x_1 => Function.update c x (c x + 1) x_1 % 2 ^ 16)
    (Function.update c x (c x + 1) y % 2 ^ 16)
    (post.map fun x_1 => Function.update c x (c x + 1) x_1 % 2 ^ 16)
  rw [length_map] at moved
  rw [moved, map_append, map_cons, map_cons]

/-- The end of a round. -/
theorem originalLoop_place (done : List α) (s : List Nat)
    (found : foundUser g forFini (done ++ x :: rest) done.length x = none)
    (places : s.length = done.length) (fuel : Nat)
    : originalLoop g forFini (fuel + 1) done.length (done ++ x :: rest) (s ++ seenBy c (x :: rest))
      = if rest = [] then some (done ++ x :: rest)
        else originalLoop g forFini fuel (done ++ [x]).length ((done ++ [x]) ++ rest)
          ((s ++ [(c x + 1) % 2 ^ 16]) ++ seenBy (fun _ => 0) rest) := by
  have this : (done ++ x :: rest)[done.length]? = some x := by
    rw [getElem?_append_right le_rfl, Nat.sub_self]
    rfl
  have counted := modify_seenBy s c x rest
  rw [places] at counted
  have cleared : clearFrom (done.length + 1) (s ++ ((c x + 1) % 2 ^ 16) :: seenBy c rest)
      = (s ++ [(c x + 1) % 2 ^ 16]) ++ seenBy (fun _ => 0) rest := by
    have split : s ++ ((c x + 1) % 2 ^ 16) :: seenBy c rest
        = (s ++ [(c x + 1) % 2 ^ 16]) ++ seenBy c rest := by simp
    have length : (s ++ [(c x + 1) % 2 ^ 16]).length = done.length + 1 := by simp [places]
    have zero : seenBy (fun _ => 0) rest = List.replicate (seenBy c rest).length 0 := by
      simp [seenBy, map_const']
    rw [clearFrom, split, ← length, take_left, length_append, Nat.add_sub_cancel_left, zero]
  rw [originalLoop]
  unfold foundUser at found
  simp only [this, found, counted, cleared]
  have length : done.length + 1 = (done ++ x :: rest).length ↔ rest = [] := by
    rw [length_append, length_cons, ← length_eq_zero_iff]
    omega
  by_cases empty : rest = []
  · rw [if_pos (length.mpr empty), if_pos empty]
  · rw [if_neg (fun same => empty (length.mp same)), if_neg empty, append_assoc done,
      singleton_append, length_append, length_singleton]

/-- With enough fuel the loop ends with the objects that are left in dependency order. -/
def Sorts (g : α → LinkMap α) (forFini : Bool) (done : List α) (s : List Nat) (L : List α)
    (c : α → Nat)
    : Prop :=
  ∃ enough, ∀ fuel ≥ enough, ∃ sorted,
    originalLoop g forFini fuel done.length (done ++ L) (s ++ seenBy c L) = some (done ++ sorted)
    ∧ sorted.Perm L ∧ sorted.Pairwise fun x y => ¬ DependsOnMoved g forFini y x

variable {done : List α} {s : List Nat}

theorem Sorts.move (places : s.length = done.length) (orderable : Orderable g forFini (x :: rest))
    {pre : List α} {y : α} {post : List α} (split : rest = pre ++ y :: post)
    (found : foundUser g forFini (done ++ x :: rest) done.length x
      = some (done.length + pre.length + 1))
    (few : ∀ z ∈ rest, c z ≤ rest.length + 1)
    (moved : Sorts g forFini done s (pre ++ y :: x :: post) (Function.update c x (c x + 1)))
    : Sorts g forFini done s (x :: rest) c := by
  obtain ⟨enough, sorts⟩ := moved
  refine ⟨enough + 1, fun fuel more => ?_⟩
  obtain ⟨fuel, rfl⟩ : ∃ n, fuel = n + 1 := Nat.exists_eq_succ_of_ne_zero (by omega)
  obtain ⟨sorted, run, perm, order⟩ := sorts fuel (by omega)
  refine ⟨sorted, ?_, perm.trans ?_, order⟩
  · rw [originalLoop_move done s places orderable split found few, run]
  · rw [split]
    have shift := @perm_middle α x (pre ++ [y]) post
    simpa using shift

theorem Sorts.place (places : s.length = done.length)
    (found : foundUser g forFini (done ++ x :: rest) done.length x = none)
    (unused : ∀ y ∈ rest, ¬ DependsOnMoved g forFini y x)
    (placed : rest ≠ [] → Sorts g forFini (done ++ [x]) (s ++ [(c x + 1) % 2 ^ 16]) rest fun _ => 0)
    : Sorts g forFini done s (x :: rest) c := by
  have run := @originalLoop_place α g forFini c x rest _ done s found places
  by_cases empty : rest = []
  · refine ⟨1, fun fuel more => ⟨[x], ?_, ?_, pairwise_singleton _ _⟩⟩
    · obtain ⟨fuel, rfl⟩ : ∃ n, fuel = n + 1 := Nat.exists_eq_succ_of_ne_zero (by omega)
      rw [run, if_pos empty, empty]
    · rw [empty]
  · obtain ⟨enough, sorts⟩ := placed empty
    refine ⟨enough + 1, fun fuel more => ?_⟩
    obtain ⟨fuel, rfl⟩ : ∃ n, fuel = n + 1 := Nat.exists_eq_succ_of_ne_zero (by omega)
    obtain ⟨sorted, rest', perm, order⟩ := sorts fuel (by omega)
    refine ⟨x :: sorted, ?_, perm.cons x, pairwise_cons.mpr ⟨?_, order⟩⟩
    · rw [run, if_neg empty, rest', append_assoc, singleton_append]
    · intro y member
      exact unused y (perm.mem_iff.mp member)

/-- A move is counted. -/
theorem sum_update {L' : List α} (perm : L'.Perm (x :: rest)) (nodup : (x :: rest).Nodup)
    : (L'.map (Function.update c x (c x + 1))).sum = ((x :: rest).map c).sum + 1 := by
  have others : rest.map (Function.update c x (c x + 1)) = rest.map c := by
    apply map_congr_left
    intro y member
    rw [Function.update_of_ne]
    rintro rfl
    exact (nodup_cons.mp nodup).1 member
  rw [(perm.map _).sum_eq, map_cons, map_cons, sum_cons, sum_cons, others,
    Function.update_self]
  omega

/-- There are fewer moves in a round than pairs of objects. -/
theorem Round.sum_lt (round : Round (DependsOnMoved g forFini) (x :: rest) c)
    (orderable : Orderable g forFini (x :: rest))
    : ((x :: rest).map c).sum < (x :: rest).length * (x :: rest).length := by
  have bound : ∀ n ∈ (x :: rest).map c, n ≤ rest.length := by
    intro n member
    obtain ⟨y, memberY, rfl⟩ := mem_map.mp member
    exact Nat.le_of_lt_succ (round.count_lt orderable.moved memberY)
  have sum := sum_le_card_nsmul _ _ bound
  rw [length_map] at sum
  calc ((x :: rest).map c).sum ≤ (rest.length + 1) * rest.length := sum
    _ < (rest.length + 1) * (rest.length + 1) := Nat.mul_lt_mul_of_pos_left (by omega) (by omega)

/-- The loop ends with the objects in dependency order, skipped ones aside. The first induction is on the number of
objects, the second one on the moves that are left in the round.
-/
theorem originalLoop_sorts (n : Nat) (done : List α) (s : List Nat) (places : s.length = done.length)
    {L : List α} {c : α → Nat} (length : L.length = n + 1) (orderable : Orderable g forFini L)
    (round : Round (DependsOnMoved g forFini) L c)
    : Sorts g forFini done s L c := by
  induction n generalizing done s L c with
  | zero =>
    match L, length, orderable, round with
    | [x], _, orderable, round =>
      rcases orderable.found done with ⟨unused, found⟩ | ⟨pre, y, post, split, -⟩
      · exact Sorts.place places found unused fun nonempty => absurd rfl nonempty
      · simp at split
  | succ n ih =>
    obtain ⟨left, moves⟩ : ∃ left, L.length * L.length ≤ left + (L.map c).sum :=
      ⟨L.length * L.length, Nat.le_add_right _ _⟩
    induction left generalizing L c with
    | zero =>
      match L, length with
      | x :: rest, _ =>
        have less := round.sum_lt orderable
        omega
    | succ left moreMoves =>
      match L, length, orderable, round, moves with
      | x :: rest, length, orderable, round, moves =>
        rcases orderable.found done with
          ⟨unused, found⟩ | ⟨pre, y, post, split, depends, last, found⟩
        · refine Sorts.place places found unused fun _ => ?_
          exact ih (done ++ [x]) _ (by simp [places]) (Nat.succ.inj length) orderable.tail
            (Round.start _ _)
        · refine Sorts.move places orderable split found ?_ ?_
          · intro z member
            exact (round.count_lt orderable.moved (mem_cons_of_mem _ member)).le
          · subst split
            have perm : (pre ++ y :: x :: post).Perm (x :: (pre ++ y :: post)) := by
              simpa using @perm_middle α x (pre ++ [y]) post
            have sum : ((pre ++ y :: x :: post).map (Function.update c x (c x + 1))).sum
                = ((x :: (pre ++ y :: post)).map c).sum + 1 :=
              sum_update perm orderable.nodup
            refine moreMoves (perm.length_eq.trans length) (orderable.perm perm) ?_ ?_
            · have round' : Round (DependsOnMoved g forFini) (x :: ((pre ++ [y]) ++ post)) c := by
                simpa using round
              have moved := round'.move (by simpa using orderable.nodup)
                (fun z depends => depends.1.1 rfl) ⟨y, by simp, depends⟩ last
              simpa using moved
            · rw [perm.length_eq]
              omega

theorem originalLoop_whole (orderable : Orderable g forFini L) (several : 1 < L.length)
    : ∃ enough, ∀ fuel ≥ enough, ∃ sorted,
      originalLoop g forFini fuel 0 L (List.replicate L.length 0) = some sorted
      ∧ sorted.Perm L ∧ sorted.Pairwise fun x y => ¬ DependsOnMoved g forFini y x := by
  obtain ⟨n, length⟩ : ∃ n, L.length = n + 1 := Nat.exists_eq_succ_of_ne_zero (by omega)
  obtain ⟨enough, sorts⟩ :=
    @originalLoop_sorts α g forFini _ n [] [] rfl L _ length orderable (Round.start _ L)
  have zero : seenBy (fun _ => 0) L = List.replicate L.length 0 := by
    simp [seenBy, map_const']
  refine ⟨enough, fun fuel more => ?_⟩
  obtain ⟨sorted, run, perm, order⟩ := sorts fuel more
  rw [zero] at run
  exact ⟨sorted, run, perm, order⟩

/-- The original algorithm puts every object in front of those that it depends on, skipped ones
aside.
-/
theorem sortMapsOriginal_sorts {forceFirst : Bool} {maps : List α}
    (sortable : Sortable g forceFirst forFini maps)
    : ∃ enough, ∀ fuel ≥ enough, ∃ sorted,
      sortMapsOriginal g fuel maps forceFirst forFini = some sorted
      ∧ sorted.Perm maps ∧ sorted.Pairwise fun x y => ¬ DependsOnMoved g forFini y x := by
  unfold sortMapsOriginal
  cases forced : forceFirst with
  | false =>
    have orderable : Orderable g forFini maps := ⟨sortable.nodup, sortable.acyclic⟩
    simp only [Bool.false_eq_true, if_false]
    by_cases few : maps.length ≤ 1
    · refine ⟨0, fun fuel _ => ⟨maps, if_pos few, List.Perm.refl _, ?_⟩⟩
      match maps, few with
      | [], _ => exact List.Pairwise.nil
      | [x], _ => exact pairwise_singleton _ _
    · obtain ⟨enough, sorts⟩ := originalLoop_whole orderable (by omega)
      refine ⟨enough, fun fuel more => ?_⟩
      obtain ⟨sorted, run, ordered⟩ := sorts fuel more
      refine ⟨sorted, ?_, ordered⟩
      rw [if_neg few, run]
      rfl
  | true =>
    match maps, sortable with
    | [], sortable => exact absurd rfl sortable.nonempty
    | first :: rest, sortable =>
      have orderable : Orderable g forFini rest := ⟨(nodup_cons.mp sortable.nodup).2,
          fun x member => sortable.acyclic x (mem_cons_of_mem _ member)⟩
      have unused := sortable.first forced first rfl
      have front : ∀ {sorted : List α},
          sorted.Perm rest ∧ sorted.Pairwise (fun x y => ¬ DependsOnMoved g forFini y x) →
          (first :: sorted).Perm (first :: rest)
            ∧ (first :: sorted).Pairwise fun x y => ¬ DependsOnMoved g forFini y x := by
        rintro sorted ⟨perm, order⟩
        refine ⟨perm.cons first, pairwise_cons.mpr ⟨?_, order⟩⟩
        intro y member depends
        exact unused y (mem_cons_of_mem _ (perm.mem_iff.mp member)) depends.1
      simp only [if_true, take_succ_cons, take_zero, drop_succ_cons, drop_zero]
      by_cases few : rest.length ≤ 1
      · refine ⟨0, fun fuel _ => ⟨first :: rest, if_pos few, front ⟨List.Perm.refl _, ?_⟩⟩⟩
        match rest, few with
        | [], _ => exact List.Pairwise.nil
        | [x], _ => exact pairwise_singleton _ _
      · obtain ⟨enough, sorts⟩ := originalLoop_whole orderable (by omega)
        refine ⟨enough, fun fuel more => ?_⟩
        obtain ⟨sorted, run, ordered⟩ := sorts fuel more
        refine ⟨first :: sorted, ?_, front ordered⟩
        rw [if_neg few, run]
        rfl

end Loop

end Nglibc.Elf
