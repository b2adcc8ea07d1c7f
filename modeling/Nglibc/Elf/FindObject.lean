import Mathlib.Data.List.GetD
import Nglibc.Lib.SelectionSort

/-! The object that covers an address, `_dl_find_object`, and the slow search that it replaces.
Addresses have 64 bits. A mapping holds what 64-bit x86 keeps of an object.
-/

namespace Nglibc.FindObject

inductive PhdrType where
  | load
  | ehFrame
  | other
deriving DecidableEq

structure Phdr where
  type : PhdrType
  vaddr : Nat
  memsz : Nat
deriving DecidableEq

inductive ObjectType where
  | executable
  | library
  | loaded
deriving DecidableEq

/-- A `struct link_map` at the address `pointer`. A proxy is not `real`. -/
structure LinkMap where
  pointer : Nat
  ns : Nat
  mapStart : Nat
  mapEnd : Nat
  addr : Nat
  phdr : List Phdr
  contiguous : Bool
  real : Bool
  type : ObjectType
  nodeleteActive : Bool
deriving DecidableEq

/-- A `struct dl_find_object_internal`. The object is `none` after `dlclose`, and an `ehFrame` of 0
is `NULL`.
-/
structure Mapping where
  mapStart : Nat
  mapEnd : Nat
  map : Option LinkMap
  ehFrame : Nat

def LinkMap.Covers (l : LinkMap) (pc : Nat) : Prop := l.mapStart ≤ pc ∧ pc < l.mapEnd

def Mapping.Covers (o : Mapping) (pc : Nat) : Prop := o.mapStart ≤ pc ∧ pc < o.mapEnd

instance (l : LinkMap) (pc : Nat) : Decidable (l.Covers pc) := inferInstanceAs (Decidable (_ ∧ _))

instance (o : Mapping) (pc : Nat) : Decidable (o.Covers pc) := inferInstanceAs (Decidable (_ ∧ _))

/-- `_dl_find_object_from_map`. -/
def fromMap (l : LinkMap) : Mapping where
  mapStart := l.mapStart
  mapEnd := l.mapEnd
  map := some l
  ehFrame :=
    match l.phdr.find? (·.type = .ehFrame) with
    | some ph => (ph.vaddr + l.addr) % 2 ^ 64
    | none => 0

/-- The data of an object as callers get them, a `struct dl_find_object`. -/
structure Result where
  flags : Nat
  mapStart : Nat
  mapEnd : Nat
  linkMap : Option LinkMap
  ehFrame : Nat
deriving DecidableEq

/-- `_dl_find_object_to_external`. -/
def toExternal (o : Mapping) : Result := ⟨0, o.mapStart, o.mapEnd, o.map, o.ehFrame⟩

/-- The status that a search returns, with the data that it stores. -/
abbrev Answer := Int × Option Result

def sub64 (a b : Nat) : Nat := (a + (2 ^ 64 - b % 2 ^ 64)) % 2 ^ 64

/-- `_dl_addr_inside_object`. -/
def insideObject (l : LinkMap) (addr : Nat) : Bool :=
  l.phdr.any fun ph => ph.type = .load && decide (sub64 (sub64 addr l.addr) ph.vaddr < ph.memsz)

/-- `_dl_find_object_slow` from a namespace on, where `none` is the failed assertion. -/
def findSlow (pc : Nat) : Nat → List (List LinkMap) → Option Answer
  | _, [] => some (-1, none)
  | ns, maps :: rest =>
    match maps.find? fun l => decide (l.Covers pc) && (l.contiguous || insideObject l pc) with
    | some l => if ns = l.ns then some (1, some (toExternal (fromMap l))) else none
    | none => findSlow pc (ns + 1) rest

/-- The loop of `_dlfo_lookup`, over `size` elements from `first` on. -/
def lowerBound (pc : Nat) (objects : Nat → Mapping) (first size : Nat) : Nat :=
  if size = 0 then first
  else
    let half := size / 2
    if (objects (first + half)).mapStart < pc then
      lowerBound pc objects (first + half + 1) (size - (half + 1))
    else lowerBound pc objects first half
termination_by size

/-- `_dlfo_lookup`, for an array whose first element does not start above `pc`. -/
def lookup (pc : Nat) (objects : Nat → Mapping) (size : Nat) : Option Nat :=
  let first := lowerBound pc objects 0 size
  if first ≠ size ∧ pc = (objects first).mapStart then
    -- A mapping that was closed has length zero.
    if pc < (objects first).mapEnd then some first else none
  else if pc < (objects (first - 1)).mapEnd then some (first - 1) else none

/-- A `struct dlfo_mappings_segment`. The segments before it follow in the list. -/
structure Segment where
  allocated : Nat
  size : Nat
  objects : Nat → Mapping

/-- The data of the search, where the lowest bit of the version says which chain is active. -/
structure Data where
  main : Mapping
  nodelete : List Mapping
  nodeleteEnd : Nat
  version : Nat
  chains : Bool → List Segment

def Data.index (d : Data) : Bool := d.version % 2 = 1

def Data.active (d : Data) : List Segment := d.chains d.index

def unused : Mapping := ⟨0, 0, none, 0⟩

/-- The search among objects that cannot be unloaded. Where there are none, the end is 0. -/
def Data.findNodelete (d : Data) (pc : Nat) : Option Mapping :=
  match d.nodelete with
  | [] => none
  | o :: rest =>
    if o.mapStart ≤ pc ∧ pc < d.nodeleteEnd then
      (lookup pc (fun i => (o :: rest).getD i unused) (rest.length + 1)).map
        fun i => (o :: rest).getD i unused
    else none

def findLoaded (pc : Nat) : List Segment → Option Mapping
  | [] => none
  | seg :: previous =>
    if seg.size = 0 then none
    else if (seg.objects 0).mapStart ≤ pc then (lookup pc seg.objects seg.size).map seg.objects
    else findLoaded pc previous

/-- `_dl_find_object`, while no update runs. -/
def find (namespaces : List (List LinkMap)) (d : Data) (pc : Nat) : Option Answer :=
  if d.main.mapEnd = 0 then findSlow pc 0 namespaces
  else if d.main.Covers pc then some (0, some (toExternal d.main))
  else
    match d.findNodelete pc with
    | some o => some (0, some (toExternal o))
    | none =>
      match findLoaded pc d.active with
      | some o => some (0, some (toExternal o))
      | none => some (-1, none)

/-- The bound lies between an element that starts below `pc` and one that does not. -/
theorem lowerBound_spec (pc : Nat) (objects : Nat → Mapping) (first size : Nat)
    : first ≤ lowerBound pc objects first size ∧ lowerBound pc objects first size ≤ first + size
      ∧ (lowerBound pc objects first size ≠ first →
          (objects (lowerBound pc objects first size - 1)).mapStart < pc)
      ∧ (lowerBound pc objects first size ≠ first + size →
          pc ≤ (objects (lowerBound pc objects first size)).mapStart) := by
  induction first, size using lowerBound.induct pc objects with
  | case1 first =>
    rw [lowerBound]
    exact ⟨le_rfl, le_rfl, fun no => (no rfl).elim, fun no => (no rfl).elim⟩
  | case2 first size nonempty half below ih =>
    rw [lowerBound, if_neg nonempty]
    simp only [half] at below ih ⊢
    rw [if_pos below]
    obtain ⟨low, high, left, right⟩ := ih
    refine ⟨by omega, by omega, ?_, fun inside => right (by omega)⟩
    intro _
    by_cases same : lowerBound pc objects (first + size / 2 + 1) (size - (size / 2 + 1))
        = first + size / 2 + 1
    · rw [same]
      exact below
    · exact left same
  | case3 first size nonempty half notBelow ih =>
    rw [lowerBound, if_neg nonempty]
    simp only [half] at notBelow ih ⊢
    rw [if_neg notBelow]
    obtain ⟨low, high, left, right⟩ := ih
    refine ⟨low, by omega, left, ?_⟩
    intro _
    by_cases same : lowerBound pc objects first (size / 2) = first + size / 2
    · rw [same]
      exact Nat.le_of_not_lt notBelow
    · exact right same

variable {pc size i : Nat} {objects : Nat → Mapping}

/-- Whatever the order of the array, the lookup yields an element that covers `pc`. -/
theorem lookup_covers (start : (objects 0).mapStart ≤ pc) (found : lookup pc objects size = some i)
    (nonempty : size ≠ 0)
    : i < size ∧ (objects i).Covers pc := by
  obtain ⟨-, high, left, right⟩ := lowerBound_spec pc objects 0 size
  rw [Nat.zero_add] at high right
  simp only [lookup] at found
  split at found
  next atBound =>
    obtain ⟨inside, equal⟩ := atBound
    split at found
    next below =>
      obtain rfl := Option.some.inj found
      exact ⟨by omega, equal.ge, below⟩
    next => exact nomatch found
  next notAt =>
    split at found
    next below =>
      obtain rfl := Option.some.inj found
      have positive : lowerBound pc objects 0 size ≠ 0 := by
        intro zero
        rw [zero] at right notAt
        have inside : (0 : Nat) ≠ size := Ne.symm nonempty
        exact notAt ⟨inside, Nat.le_antisymm (right inside) start⟩
      exact ⟨by omega, (left positive).le, below⟩
    next => exact nomatch found

/-- The elements are in the order of their addresses and do not overlap. -/
def Ordered (objects : Nat → Mapping) (size : Nat) : Prop := ∀ i j, i < j → j < size →
    (objects i).mapEnd ≤ (objects j).mapStart ∧ (objects i).mapStart < (objects j).mapStart

/-- In an ordered array the lookup finds the element that covers `pc`. -/
theorem lookup_complete (ordered : Ordered objects size) (inside : i < size)
    (covers : (objects i).Covers pc)
    : lookup pc objects size = some i := by
  obtain ⟨-, high, left, right⟩ := lowerBound_spec pc objects 0 size
  simp only [lookup]
  generalize lowerBound pc objects 0 size = first at *
  obtain ⟨start, stop⟩ := covers
  have notAbove : i ≤ first := by
    by_contra above
    have := (ordered first i (by omega) inside).2
    omega
  have notBelow : first ≤ i + 1 := by
    by_contra below
    have := (ordered i (first - 1) (by omega) (by omega)).1
    omega
  rcases Nat.lt_or_eq_of_le notAbove with less | rfl
  · obtain rfl : first = i + 1 := by omega
    have notAt : ¬ (i + 1 ≠ size ∧ pc = (objects (i + 1)).mapStart) := by
      rintro ⟨within, equal⟩
      have := (ordered i (i + 1) (by omega) (by omega)).1
      omega
    rw [if_neg notAt]
    exact if_pos stop
  · have equal : pc = (objects i).mapStart := Nat.le_antisymm (right (by omega)) start
    rw [if_pos ⟨by omega, equal⟩]
    exact if_pos stop

/-- The search among objects that cannot be unloaded finds only one that covers `pc`. -/
theorem Data.findNodelete_covers {d : Data} {o : Mapping} (found : d.findNodelete pc = some o)
    : o ∈ d.nodelete ∧ o.Covers pc := by
  rw [Data.findNodelete] at found
  cases array : d.nodelete with
  | nil => simp [array] at found
  | cons first rest =>
    simp only [array] at found
    split at found
    next inRange =>
      obtain ⟨i, position, rfl⟩ := Option.map_eq_some_iff.mp found
      obtain ⟨bound, covers⟩ := lookup_covers inRange.1 position (Nat.succ_ne_zero _)
      refine ⟨?_, covers⟩
      rw [List.getD_eq_getElem _ _ (by simpa using bound)]
      exact List.getElem_mem _
    next => exact nomatch found

end Nglibc.FindObject
