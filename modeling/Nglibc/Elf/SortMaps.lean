import Mathlib.Algebra.Group.Nat.Defs
import Mathlib.Logic.Relation
import Mathlib.Data.List.Basic

/-! The two algorithms of `_dl_sort_maps`, on objects of any type. -/

namespace Nglibc.Elf

variable {α β : Type} [DecidableEq α]

/-- What the algorithms look at in a `struct link_map`. The lists end before their `NULL`, and
`none` stands for a list that is `NULL` itself.
-/
structure LinkMap (α : Type) where
  initfini : Option (List α)
  reldeps : Option (List α)
  real : α
  idx : Int
  mainMap : Bool
  faked : Bool

def LinkMap.needed (l : LinkMap α) : List α := l.initfini.getD []

def LinkMap.relocated (l : LinkMap α) : List α := l.reldeps.getD []

/-- The element at `i` goes to `k`, and those behind it up to `k` move forward. -/
def moveBack (i k : Nat) (xs : List β) : List β :=
  xs.take i ++ ((xs.drop (i + 1)).take (k - i) ++ ((xs.drop i).take 1 ++ xs.drop (k + 1)))

/-- Whether `y` is an object behind which `x` has to go. A relocation dependency does not count
against a link time dependency.
-/
def uses (g : α → LinkMap α) (forFini : Bool) (y x : α) : Bool :=
  (g y).needed.contains x || (forFini && (g y).relocated.contains x && !(g x).needed.contains y)

/-- The loop over `k`: the last position above `i`, and not above `k`, with the property. -/
def lastUser (p : α → Bool) (maps : List α) (i : Nat) : Nat → Option Nat
  | 0 => none
  | k + 1 =>
    if k + 1 > i then if (maps[k + 1]?).any p then some (k + 1) else lastUser p maps i k
    else none

def clearFrom (i : Nat) (seen : List Nat) : List Nat :=
  seen.take i ++ List.replicate (seen.length - i) 0

/-- The loop of `_dl_sort_maps_original`. The entries of `seen` have 16 bits. -/
def originalLoop (g : α → LinkMap α) (forFini : Bool)
    : Nat → Nat → List α → List Nat → Option (List α)
  | 0, _, _, _ => none
  | fuel + 1, i, maps, seen =>
    let seen := seen.modify i (fun n => (n + 1) % 2 ^ 16)
    match maps[i]? with
    | none => none
    | some this =>
      let skip := forFini && (decide ((g this).real ≠ this) || decide ((g this).idx = -1))
      let found :=
        if skip then none
        else lastUser (fun y => uses g forFini y this) maps i (maps.length - 1)
      match found with
      | some k =>
        let maps := moveBack i k maps
        if seen.getD (i + 1) 0 > maps.length - i then
          originalLoop g forFini fuel (i + 1) maps (clearFrom (i + 1) seen)
        else originalLoop g forFini fuel i maps (moveBack i k seen)
      | none =>
        if i + 1 = maps.length then some maps
        else originalLoop g forFini fuel (i + 1) maps (clearFrom (i + 1) seen)

/-- `_dl_sort_maps_original`; `fuel` bounds the rounds of its loop. -/
def sortMapsOriginal (g : α → LinkMap α) (fuel : Nat) (maps : List α) (forceFirst forFini : Bool)
    : Option (List α) :=
  let first := if forceFirst then maps.take 1 else []
  let rest := if forceFirst then maps.drop 1 else maps
  if rest.length ≤ 1 then some maps
  else
    (originalLoop g forFini fuel 0 rest (List.replicate rest.length 0)).map fun rest =>
      first ++ rest

/-- The state of a traversal: the flags `l_visited`, the objects from `rpo` on, and whether there
were relocation dependencies.
-/
structure Traversal (α : Type) where
  visited : α → Bool
  rpo : List α
  foundReldeps : Bool

/-- The relocation dependencies of an object, last one first, if they count. -/
def LinkMap.reldepsToVisit (doReldeps : Bool) (l : LinkMap α) : Option (List α) :=
  if doReldeps then l.reldeps.map List.reverse else none

/-- The loops of `dfs_traversal` over the dependencies of an object. -/
def visitDependencies (visit : Traversal α → α → Option (Traversal α)) (doReldeps : Bool)
    (l : LinkMap α) (t : Traversal α)
    : Option (Traversal α) :=
  (l.needed.foldlM visit t).bind fun t =>
    match l.reldepsToVisit doReldeps with
    | none => some t
    | some deps => deps.foldlM visit { t with foundReldeps := true }

def Traversal.begin (t : Traversal α) (x : α) : Traversal α :=
  { t with visited := Function.update t.visited x true }

/-- `dfs_traversal` into an array with `size` elements, none if it would write in front of it.
`fuel` bounds the depth of the recursion.
-/
def dfsTraversal (g : α → LinkMap α) (size : Nat) (doReldeps : Bool)
    : Nat → α → Traversal α → Option (Traversal α)
  | 0, _, _ => none
  | fuel + 1, map, t =>
    if t.visited map || (g map).faked then some t
    else
      let visit (t : Traversal α) (dep : α) : Option (Traversal α) :=
        if t.visited dep = false ∧ (g dep).mainMap = false then
          dfsTraversal g size doReldeps fuel dep t
        else some t
      (visitDependencies visit doReldeps (g map) (t.begin map)).bind fun t =>
        if t.rpo.length < size then some { t with rpo := map :: t.rpo } else none

def traverseAll (g : α → LinkMap α) (size : Nat) (doReldeps : Bool) (fuel : Nat)
    : List α → Traversal α → Option (Traversal α)
  | [], t => some t
  | map :: maps, t =>
    (dfsTraversal g size doReldeps fuel map t).bind fun t =>
      if t.rpo.length = size then some t else traverseAll g size doReldeps fuel maps t

/-- The traversals from the last object to the first, none if the assertion behind them fails. -/
def reversePostorder (g : α → LinkMap α) (doReldeps : Bool) (fuel : Nat) (visited : α → Bool)
    (maps : List α)
    : Option (Traversal α) :=
  let visited x := if x ∈ maps then false else visited x
  (traverseAll g maps.length doReldeps fuel maps.reverse ⟨visited, [], false⟩).bind fun t =>
    if t.rpo.length = maps.length then some t else none

/-- `_dl_sort_maps_dfs`, where `visited` is what the flags were before. -/
def sortMapsDfs (g : α → LinkMap α) (fuel : Nat) (visited : α → Bool) (maps : List α)
    (forceFirst forFini : Bool)
    : Option (List α) :=
  (reversePostorder g forFini fuel visited maps).bind fun t =>
    if t.foundReldeps then
      (reversePostorder g false fuel t.visited t.rpo).map fun t => t.rpo
    else
      match maps.head? with
      | none => some t.rpo
      | some first =>
        if forceFirst = true ∧ t.rpo.head? ≠ some first then
          let i := t.rpo.idxOf first
          if i < maps.length then some (first :: (t.rpo.take i ++ t.rpo.drop (i + 1))) else none
        else some t.rpo

/-- `x` depends on another object `y`. -/
def DependsOn (g : α → LinkMap α) (forFini : Bool) (x y : α) : Prop :=
  x ≠ y ∧ (y ∈ (g x).needed ∨ forFini = true ∧ y ∈ (g x).relocated)

/-- Objects that can be sorted: no one is there twice, dependencies stay inside and have no cycle,
only the first object can be the main map, and nothing depends on a first object that has to stay
in its place.
-/
structure Sortable (g : α → LinkMap α) (forceFirst forFini : Bool) (maps : List α) : Prop where
  nonempty : maps ≠ []
  nodup : maps.Nodup
  closed : ∀ x ∈ maps, ∀ y, DependsOn g forFini x y → y ∈ maps
  acyclic : ∀ x ∈ maps, ¬ Relation.TransGen (DependsOn g forFini) x x
  noneFaked : ∀ x ∈ maps, (g x).faked = false
  mainMap : ∀ x ∈ maps, (g x).mainMap = true → maps.head? = some x
  first : forceFirst = true → ∀ x, maps.head? = some x → ∀ y ∈ maps, ¬ DependsOn g forFini y x

/-- The objects of `maps`, each one before those that it depends on. -/
structure DependencyOrder (g : α → LinkMap α) (forFini : Bool) (maps sorted : List α) : Prop where
  perm : sorted.Perm maps
  order : sorted.Pairwise fun x y => ¬ DependsOn g forFini y x

end Nglibc.Elf
