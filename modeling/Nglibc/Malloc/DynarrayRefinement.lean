import Nglibc.Malloc.Dynarray

/-! A dynamic array is a list until an operation fails, and a failed array stays as it is. Each
operation is first described on an array that holds a list; runs put the operations together.
-/

namespace Nglibc.Malloc

open Dynarray List

variable {α : Type} {T : DynarrayType α} {list after : Dynarray α} {l : List α}
  {allocation : Allocation α}

namespace Dynarray

@[simp] theorem cells_setCells (cells : List α) : (list.setCells cells).cells = cells := by
  unfold setCells Dynarray.cells
  cases list.heapArray <;> rfl

@[simp] theorem setCells_used (cells : List α) : (list.setCells cells).used = list.used := by
  unfold setCells
  cases list.heapArray <;> rfl

@[simp] theorem setCells_allocated (cells : List α)
    : (list.setCells cells).allocated = list.allocated := by
  unfold setCells
  cases list.heapArray <;> rfl

theorem setCells_scratch_length {cells : List α} (same : cells.length = list.cells.length)
    : (list.setCells cells).scratch.length = list.scratch.length := by
  unfold setCells
  unfold Dynarray.cells at same
  cases heap : list.heapArray with
  | none =>
    rw [heap] at same
    exact same
  | some _ => rfl

theorem length_fill (fresh : Nat → α) (kept : List α) (n : Nat)
    : (fill fresh kept n).length = n := by
  simp [fill]

/-- A new block starts with the kept elements. -/
theorem take_fill (fresh : Nat → α) (kept : List α) {k n : Nat} (inside : k ≤ kept.length)
    (le : k ≤ n) : (fill fresh kept n).take k = kept.take k := by
  apply ext_getElem
  · simp [fill]
    omega
  · intro i low high
    have bound : i < k := by
      rw [length_take] at high
      omega
    have cell : kept[i]? = some kept[i] := getElem?_eq_getElem (by omega)
    simp [fill, cell]

/-- Storage of at most `PTRDIFF_MAX` bytes never has the error marker as its size. -/
theorem Holds.live (holds : list.Holds T l) : list.hasFailed = false := by
  have fits := holds.allocated_fits
  have le : list.allocated ≤ list.allocated * T.elementSize :=
    Nat.le_mul_of_pos_right _ T.elementSize_pos
  have marker : list.allocated ≠ errorMarker := by
    unfold errorMarker
    unfold ptrdiffMax at fits
    omega
  exact decide_eq_false marker

theorem Holds.represents (holds : list.Holds T l) : Represents T list (some l) :=
  ⟨holds, holds.live⟩

/-! The pieces of the operations -/

theorem freeElements_eq (T : DynarrayType α) {first count : Nat}
    (inside : first + count ≤ list.cells.length)
    : ∃ freed, list.freeElements T first count = some { list with freed } := by
  unfold freeElements
  split
  · exact ⟨_, rfl⟩
  · exact ⟨list.freed, rfl⟩

theorem init_holds (list : Dynarray α) (scratch : list.scratch.length = T.initialSize)
    : (list.init T).Holds T [] where
  used_eq := rfl
  backed := Nat.zero_le _
  elements := take_zero
  allocated_eq := scratch.symm
  allocated_fits := T.scratch_fits
  scratch_length := scratch

theorem free_holds (inside : list.used ≤ list.cells.length)
    (scratch : list.scratch.length = T.initialSize)
    : ∃ after, list.free T = some after ∧ after.Holds T [] := by
  obtain ⟨freed, same⟩ := freeElements_eq T (show 0 + list.used ≤ list.cells.length by omega)
  refine ⟨_, ?_, init_holds { list with freed } scratch⟩
  rw [Dynarray.free, same]
  rfl

section

variable (holds : list.Holds T l)
include holds

theorem Holds.markFailed
    : ∃ after, list.markFailed T = some after ∧ after.IsFailed T := by
  have backed := holds.backed
  obtain ⟨freed, same⟩ := freeElements_eq T (show 0 + list.used ≤ list.cells.length by omega)
  refine ⟨{ list with freed, heapArray := none, used := 0, allocated := errorMarker }, ?_,
    rfl, rfl, rfl, holds.scratch_length⟩
  rw [Dynarray.markFailed, same]
  rfl

/-- The cell behind the elements becomes the next element. -/
theorem Holds.write_next (room : list.used < list.cells.length) (x : α)
    : ∃ written, list.write list.used x = some written
      ∧ Holds T { written with used := list.used + 1 } (l ++ [x]) := by
  refine ⟨list.setCells (list.cells.set list.used x), if_pos room, ?_⟩
  have cells : ∀ used, Dynarray.cells
      { list.setCells (list.cells.set list.used x) with used }
      = list.cells.set list.used x := by
    intro used
    exact cells_setCells _
  constructor
  · simp [holds.used_eq]
  · rw [cells]
    simpa using room
  · have front : list.used = l.length := holds.used_eq
    have split : list.cells.set list.used x = l ++ x :: list.cells.drop (list.used + 1) := by
      rw [set_eq_take_append_cons_drop, if_pos room, holds.elements]
    have taken : (l ++ x :: list.cells.drop (list.used + 1)).take (list.used + 1) = l ++ [x] := by
      rw [front, take_append]
      simp
    rw [cells, split]
    exact taken
  · rw [cells]
    simpa using holds.allocated_eq
  · simpa using holds.allocated_fits
  · rw [← holds.scratch_length]
    exact setCells_scratch_length (by simp)

/-- A new block for at least the elements there are. -/
theorem Holds.newArray (allocation : Allocation α) {n : Nat} (le : list.cells.length ≤ n)
    : (list.newArray T n allocation = some none ∧ Refused T allocation n)
      ∨ ∃ cells, list.newArray T n allocation = some (some cells)
        ∧ cells.length = n ∧ cells.take list.used = l ∧ n * T.elementSize ≤ ptrdiffMax := by
  have backed := holds.backed
  unfold Dynarray.newArray
  split
  case isTrue overflow =>
    refine .inl ⟨rfl, .inr ?_⟩
    unfold ptrdiffMax
    omega
  case isFalse =>
    split
    case isTrue large => exact .inl ⟨rfl, .inr large⟩
    case isFalse small =>
      have fits := Nat.not_lt.mp small
      cases allocation with
      | none => exact .inl ⟨rfl, .inl rfl⟩
      | some fresh =>
        right
        have elements := holds.elements
        unfold Dynarray.cells at elements backed le
        cases heap : list.heapArray with
        | none =>
          rw [heap] at elements backed le
          dsimp only [Option.getD_none] at elements backed le
          refine ⟨_, if_pos backed, length_fill fresh _ n, ?_, fits⟩
          rw [take_fill fresh _ (by simpa using backed) (by omega), take_take,
            Nat.min_self, elements]
        | some cells =>
          rw [heap] at elements backed le
          dsimp only [Option.getD_some] at elements backed le
          refine ⟨_, rfl, length_fill fresh _ n, ?_, fits⟩
          rw [take_fill fresh _ backed (by omega), elements]

/-- Enlarging a full array leaves room for one more element, unless memory is refused. -/
theorem Holds.emplaceEnlarge (allocation : Allocation α) (full : list.used = list.allocated)
    : (list.emplaceEnlarge T allocation = some (false, list)
        ∧ Refused T allocation (enlarged T l.length))
      ∨ ∃ after, list.emplaceEnlarge T allocation = some (true, after)
        ∧ after.Holds T l ∧ after.used < after.cells.length := by
  have fits := holds.allocated_fits
  have le : list.allocated ≤ list.allocated * T.elementSize :=
    Nat.le_mul_of_pos_right _ T.elementSize_pos
  have limit : ptrdiffMax = 2 ^ 63 - 1 := rfl
  have size : (if list.allocated = 0 then
        if T.elementSize < 4 then 16 else if T.elementSize < 8 then 8 else 4
      else (list.allocated + list.allocated / 2 + 1) % 2 ^ 64) = enlarged T l.length := by
    unfold enlarged
    rw [← holds.used_eq, full]
    split
    · rfl
    · exact Nat.mod_eq_of_lt (by omega)
  have grows : list.allocated < enlarged T l.length := by
    unfold enlarged
    rw [← holds.used_eq]
    split
    · split
      · omega
      · split <;> omega
    · omega
  unfold Dynarray.emplaceEnlarge
  rw [size, if_neg (Nat.not_le.mpr grows)]
  have room : list.cells.length ≤ enlarged T l.length := by
    rw [← holds.allocated_eq]
    omega
  rcases holds.newArray allocation room with ⟨same, refused⟩ | found
  · rw [same]
    exact .inl ⟨rfl, refused⟩
  · obtain ⟨cells, same, length, elements, small⟩ := found
    rw [same]
    refine .inr ⟨_, rfl, ⟨holds.used_eq, ?_, elements, length.symm, small,
      holds.scratch_length⟩, ?_⟩
    · show list.used ≤ cells.length
      omega
    · show list.used < cells.length
      omega

theorem Holds.room (notFull : list.used ≠ list.allocated)
    : list.used < list.cells.length := by
  have backed := holds.backed
  rw [holds.allocated_eq] at notFull
  omega

/-! The operations on an array that holds a list -/

theorem Holds.add (x : α) (allocation : Allocation α)
    : (∃ after, list.add T x allocation = some after ∧ after.IsFailed T
        ∧ Refused T allocation (enlarged T l.length))
      ∨ ∃ after, list.add T x allocation = some after ∧ after.Holds T (l ++ [x]) := by
  unfold Dynarray.add
  rw [if_neg (by simp [holds.live])]
  split
  case isTrue full =>
    rcases holds.emplaceEnlarge allocation full with ⟨same, refused⟩ | found
    · obtain ⟨after, marked, failed⟩ := holds.markFailed
      refine .inl ⟨after, ?_, failed, refused⟩
      rw [same]
      exact marked
    · obtain ⟨grown, same, holdsGrown, room⟩ := found
      obtain ⟨written, write, holdsWritten⟩ := holdsGrown.write_next room x
      refine .inr ⟨_, ?_, holdsWritten⟩
      rw [same]
      simp [write]
  case isFalse notFull =>
    obtain ⟨written, write, holdsWritten⟩ := holds.write_next (holds.room notFull) x
    refine .inr ⟨_, ?_, holdsWritten⟩
    simp [write]

theorem Holds.emplaceTail (room : list.used < list.cells.length)
    : ∃ after x, list.emplaceTail T = some (l.length, after) ∧ Fresh T x
      ∧ after.Holds T (l ++ [x]) := by
  have cell : list.cells[list.used]? = some list.cells[list.used] := getElem?_eq_getElem room
  obtain ⟨written, write, holdsWritten⟩ :=
    holds.write_next room (initialised T list.cells[list.used])
  refine ⟨_, _, ?_, ⟨list.cells[list.used], rfl⟩, holdsWritten⟩
  unfold Dynarray.emplaceTail
  rw [cell, ← holds.used_eq]
  simp [write]

theorem Holds.emplace (allocation : Allocation α)
    : (∃ after, list.emplace T allocation = some (none, after) ∧ after.IsFailed T
        ∧ Refused T allocation (enlarged T l.length))
      ∨ ∃ after x, list.emplace T allocation = some (some l.length, after) ∧ Fresh T x
        ∧ after.Holds T (l ++ [x]) := by
  unfold Dynarray.emplace
  rw [if_neg (by simp [holds.live])]
  split
  case isTrue full =>
    rcases holds.emplaceEnlarge allocation full with ⟨same, refused⟩ | found
    · obtain ⟨after, marked, failed⟩ := holds.markFailed
      refine .inl ⟨after, ?_, failed, refused⟩
      rw [same]
      simp [marked]
    · obtain ⟨grown, same, holdsGrown, room⟩ := found
      obtain ⟨after, x, tail, fresh, holdsAfter⟩ := holdsGrown.emplaceTail room
      refine .inr ⟨after, x, ?_, fresh, holdsAfter⟩
      rw [same]
      simp [tail]
  case isFalse notFull =>
    obtain ⟨after, x, tail, fresh, holdsAfter⟩ := holds.emplaceTail (holds.room notFull)
    refine .inr ⟨after, x, ?_, fresh, holdsAfter⟩
    simp [tail]

/-- More of the storage in use: the list grows by what the cells hold. -/
theorem Holds.libcResize (allocation : Allocation α) {size : Nat} (grows : list.used < size)
    : (list.libcResize T size allocation = some (false, list) ∧ Refused T allocation size)
      ∨ ∃ after more, list.libcResize T size allocation = some (true, after)
        ∧ l.length + more.length = size ∧ after.Holds T (l ++ more) := by
  unfold Dynarray.libcResize
  have used := holds.used_eq
  split
  case isTrue fits =>
    rw [holds.allocated_eq] at fits
    have split : list.cells.take size
        = l ++ (list.cells.drop list.used).take (size - list.used) := by
      rw [← holds.elements, ← take_add]
      congr 1
      omega
    have length : l.length + ((list.cells.drop list.used).take (size - list.used)).length
        = size := by
      rw [length_take, length_drop]
      omega
    refine .inr ⟨{ list with used := size }, _, rfl, length, ?_⟩
    exact {
      used_eq := by rw [length_append, length]
      backed := fits
      elements := split
      allocated_eq := holds.allocated_eq
      allocated_fits := holds.allocated_fits
      scratch_length := holds.scratch_length
    }
  case isFalse small =>
    rw [holds.allocated_eq] at small
    rcases holds.newArray allocation (show list.cells.length ≤ size by omega) with
      ⟨same, refused⟩ | found
    · rw [same]
      exact .inl ⟨rfl, refused⟩
    · obtain ⟨cells, same, cellsLength, elements, fits⟩ := found
      rw [same]
      have split : cells = l ++ cells.drop list.used := by
        rw [← elements, take_append_drop]
      have length : l.length + (cells.drop list.used).length = size := by
        rw [length_drop]
        omega
      refine .inr ⟨{ list with heapArray := some cells, allocated := size, used := size }, _,
        rfl, length, ?_⟩
      exact {
        used_eq := by rw [length_append, length]
        backed := Nat.le_of_eq cellsLength.symm
        elements := by
          rw [← split]
          exact take_of_length_le (Nat.le_of_eq cellsLength)
        allocated_eq := cellsLength.symm
        allocated_fits := fits
        scratch_length := holds.scratch_length
      }

end

theorem initialised_id (plain : ¬(T.elementInit.isSome || T.elementFree) = true)
    : initialised T = id := by
  funext x
  unfold initialised
  cases init : T.elementInit with
  | none =>
    cases free : T.elementFree with
    | false => rfl
    | true => simp [free] at plain
  | some _ => simp [init] at plain

/-- The cells between two indices are initialised and the others kept. -/
theorem mapIdx_between (f : α → α) (l more rest : List α)
    : (l ++ more ++ rest).mapIdx
        (fun i x => if l.length ≤ i ∧ i < l.length + more.length then f x else x)
      = l ++ more.map f ++ rest := by
  apply ext_getElem (by simp)
  intro i low _
  simp only [getElem_mapIdx, getElem_append, length_append, length_map,
    getElem_map]
  grind

theorem Holds.initialiseFrom {more : List α} (holds : list.Holds T (l ++ more))
    : ∃ after, list.initialiseFrom T l.length (l.length + more.length) = some after
      ∧ after.Holds T (l ++ more.map (initialised T)) := by
  have used : list.used = l.length + more.length := by
    rw [holds.used_eq, length_append]
  unfold Dynarray.initialiseFrom
  split
  case isFalse plain =>
    refine ⟨list, rfl, ?_⟩
    rw [initialised_id plain, map_id]
    exact holds
  case isTrue =>
    have backed := holds.backed
    rw [if_pos (used ▸ backed)]
    refine ⟨_, rfl, ?_⟩
    have split : list.cells = l ++ more ++ list.cells.drop list.used := by
      rw [← holds.elements, take_append_drop]
    have mapped : list.cells.mapIdx (fun i x =>
          if l.length ≤ i ∧ i < l.length + more.length then initialised T x else x)
        = l ++ more.map (initialised T) ++ list.cells.drop list.used := by
      conv_lhs => rw [split]
      exact mapIdx_between _ l more _
    have length : (l ++ more.map (initialised T)).length = list.used := by
      rw [length_append, length_map, used]
    constructor
    · rw [setCells_used, length]
    · simpa using backed
    · rw [cells_setCells, setCells_used, mapped, take_left' length]
    · simpa using holds.allocated_eq
    · simpa using holds.allocated_fits
    · rw [setCells_scratch_length (by simp), holds.scratch_length]

section

variable (holds : list.Holds T l)
include holds

theorem Holds.truncate (freed : List α) {n : Nat} (le : n ≤ list.used)
    : Holds T { list with freed, used := n } (l.take n) := by
  have backed := holds.backed
  have used := holds.used_eq
  have elements : list.cells.take n = l.take n := by
    rw [← holds.elements, take_take, Nat.min_eq_left le]
  exact {
    used_eq := by
      rw [length_take]
      exact (Nat.min_eq_left (used ▸ le)).symm
    backed := Nat.le_trans le backed
    elements := elements
    allocated_eq := holds.allocated_eq
    allocated_fits := holds.allocated_fits
    scratch_length := holds.scratch_length
  }

/-- Resizing truncates, or grows by initialised elements, or fails. -/
theorem Holds.resize (allocation : Allocation α) (size : UInt64)
    : ∃ ok after l', list.resize T size.toNat allocation = some (ok, after)
      ∧ ListStep T allocation (some l) (.resize size) (.flag ok) l'
      ∧ Represents T after l' := by
  have used := holds.used_eq
  have backed := holds.backed
  unfold Dynarray.resize
  split
  case isTrue grows =>
    rcases holds.libcResize allocation grows with ⟨same, refused⟩ | found
    · obtain ⟨after, marked, failed⟩ := holds.markFailed
      refine ⟨false, after, none, ?_, .resizeFails size refused, failed⟩
      rw [same]
      simp [marked]
    · obtain ⟨resized, more, same, length, holdsResized⟩ := found
      obtain ⟨after, initialise, holdsAfter⟩ := holdsResized.initialiseFrom
      have extends_ : l.length + (more.map (initialised T)).length = size.toNat := by
        rw [length_map, length]
      refine ⟨true, after, _, ?_, .extend size extends_ ?_, holdsAfter.represents⟩
      · rw [length, ← used] at initialise
        rw [same]
        simp [initialise]
      · intro x inMore
        obtain ⟨y, _, same⟩ := mem_map.mp inMore
        exact ⟨y, same.symm⟩
  case isFalse shrinks =>
    have le : size.toNat ≤ list.used := by omega
    obtain ⟨freed, same⟩ := freeElements_eq T
      (show size.toNat + (list.used - size.toNat) ≤ list.cells.length by omega)
    refine ⟨true, _, _, ?_, .truncate size (used ▸ le), (holds.truncate freed le).represents⟩
    rw [same]
    rfl

/-- An index within the size reads or sets that element. -/
theorem Holds.atIndex (index : UInt64) (store : Option α)
    : (l.length ≤ index.toNat ∧ list.atIndex index.toNat store = some (none, list))
      ∨ ∃ x after, l[index.toNat]? = some x ∧ list.atIndex index.toNat store = some (some x, after)
        ∧ after.Holds T (match store with
          | none => l
          | some y => l.set index.toNat y) := by
  have backed := holds.backed
  have used := holds.used_eq
  unfold Dynarray.atIndex
  split
  case isTrue outside => exact .inl ⟨by omega, rfl⟩
  case isFalse inside =>
    have bound : index.toNat < list.used := by omega
    have inCells : index.toNat < list.cells.length := by omega
    have cell : l[index.toNat]? = list.cells[index.toNat]? := by
      rw [← holds.elements, getElem?_take_of_lt bound]
    rw [getElem?_eq_getElem inCells] at cell ⊢
    right
    cases store with
    | none => exact ⟨_, list, cell, rfl, holds⟩
    | some y =>
      have write : list.write index.toNat y
          = some (list.setCells (list.cells.set index.toNat y)) := if_pos inCells
      refine ⟨_, list.setCells (list.cells.set index.toNat y), cell, ?_, ?_⟩
      · simp [write]
      · constructor
        · rw [setCells_used, length_set, used]
        · simpa using backed
        · rw [cells_setCells, setCells_used, take_set, holds.elements]
        · simpa using holds.allocated_eq
        · simpa using holds.allocated_fits
        · rw [setCells_scratch_length (by simp), holds.scratch_length]

theorem Holds.removeLast
    : ∃ after, list.removeLast T = some after ∧ after.Holds T l.dropLast := by
  have backed := holds.backed
  have used := holds.used_eq
  unfold Dynarray.removeLast
  split
  case isTrue pos =>
    obtain ⟨freed, same⟩ := freeElements_eq T (show list.used - 1 + 1 ≤ list.cells.length by omega)
    refine ⟨{ list with freed, used := list.used - 1 }, ?_, ?_⟩
    · dsimp only
      rw [same]
      rfl
    · have shorter := holds.truncate freed (Nat.sub_le list.used 1)
      rwa [used, ← dropLast_eq_take, ← used] at shorter
  case isFalse empty =>
    have nil : l = [] := eq_nil_of_length_eq_zero (by omega)
    refine ⟨list, rfl, ?_⟩
    rw [nil] at holds ⊢
    exact holds

theorem Holds.clear
    : ∃ after, list.clear T = some after ∧ after.Holds T [] := by
  have backed := holds.backed
  obtain ⟨freed, same⟩ := freeElements_eq T (show 0 + list.used ≤ list.cells.length by omega)
  refine ⟨{ list with freed, used := 0 }, ?_, holds.truncate freed (Nat.zero_le _)⟩
  rw [Dynarray.clear, same]
  rfl

theorem Holds.finalize (allocation : Allocation α)
    : ∃ result after, list.finalize T allocation = some (result, after)
      ∧ ListStep T allocation (some l) .finalize (.final result) (some [])
      ∧ after.Holds T [] := by
  have used := holds.used_eq
  unfold Dynarray.finalize Dynarray.libcFinalize
  rw [if_neg (by simp [holds.live])]
  split
  case isTrue empty =>
    have nil : l = [] := eq_nil_of_length_eq_zero (by omega)
    rw [nil]
    exact ⟨_, _, rfl, .finalize, init_holds list holds.scratch_length⟩
  case isFalse =>
    cases allocation with
    | none =>
      obtain ⟨after, freed, holdsAfter⟩ := free_holds holds.backed holds.scratch_length
      refine ⟨none, after, ?_, .finalizeFails rfl, holdsAfter⟩
      simp [freed]
    | some fresh =>
      rw [if_pos holds.backed, holds.elements]
      exact ⟨_, _, rfl, .finalize, init_holds list holds.scratch_length⟩

end

end Dynarray

/-! Runs -/

/-- The step lemma: each operation does to the list what its reply tells. -/
theorem step_represents (represents : Represents T list (some l)) (op : DynarrayOp α)
    (allocation : Allocation α)
    : ∃ reply after l', dynarrayStep T list allocation op = some (reply, after)
      ∧ ListStep T allocation (some l) op reply l' ∧ Represents T after l' := by
  have holds := represents.1
  cases op with
  | add x =>
    rcases holds.add x allocation with ⟨after, same, failed, refused⟩ | ⟨after, same, next⟩
    · exact ⟨_, after, none, by simp [dynarrayStep, same], .addFails x refused, failed⟩
    · exact ⟨_, after, _, by simp [dynarrayStep, same], .add x, next.represents⟩
  | emplace =>
    rcases holds.emplace allocation with
      ⟨after, same, failed, refused⟩ | ⟨after, x, same, fresh, next⟩
    · exact ⟨_, after, none, by simp [dynarrayStep, same], .emplaceFails refused, failed⟩
    · exact ⟨_, after, _, by simp [dynarrayStep, same], .emplace fresh, next.represents⟩
  | resize size =>
    obtain ⟨ok, after, l', same, steps, next⟩ := holds.resize allocation size
    exact ⟨_, after, l', by simp [dynarrayStep, same], steps, next⟩
  | atIndex index store =>
    rcases holds.atIndex index store with ⟨outside, same⟩ | ⟨x, after, found, same, next⟩
    · exact ⟨_, list, _, by simp [dynarrayStep, same], .atTerminates index store outside,
        represents⟩
    · exact ⟨_, after, _, by simp [dynarrayStep, same], .atIndex index store found,
        next.represents⟩
  | removeLast =>
    obtain ⟨after, same, next⟩ := holds.removeLast
    exact ⟨_, after, _, by simp [dynarrayStep, same], .removeLast, next.represents⟩
  | clear =>
    obtain ⟨after, same, next⟩ := holds.clear
    exact ⟨_, after, _, by simp [dynarrayStep, same], .clear, next.represents⟩
  | finalize =>
    obtain ⟨result, after, same, steps, next⟩ := holds.finalize allocation
    exact ⟨_, after, _, by simp [dynarrayStep, same], steps, next.represents⟩
  | free =>
    obtain ⟨after, same, next⟩ := free_holds holds.backed holds.scratch_length
    exact ⟨_, after, _, by simp [dynarrayStep, same], .free, next.represents⟩

theorem freeElements_failed (failed : list.IsFailed T)
    : list.freeElements T 0 list.used = some list := by
  rw [failed.used_eq]
  unfold freeElements
  split
  · simp
  · rfl

/-- In the failed state everything but a `resize` leaves the array as it is, until it is
reinitialised.
-/
theorem step_failed_represents (failed : list.IsFailed T) (op : DynarrayOp α)
    (allocation : Allocation α) (notResize : ∀ size, op ≠ .resize size)
    : ∃ reply after l', dynarrayStep T list allocation op = some (reply, after)
      ∧ ListStep T allocation none op reply l'
      ∧ (¬Reinitialises op → after = list)
      ∧ Represents T after l' := by
  have used := failed.used_eq
  have error := failed.failed
  have kept := freeElements_failed failed
  have reinitialised := init_holds list failed.scratch_length
  cases op with
  | add x =>
    exact ⟨.done, list, none, by simp [dynarrayStep, add, error], .addFailed x, fun _ => rfl,
      failed⟩
  | emplace =>
    exact ⟨.place none, list, none, by simp [dynarrayStep, emplace, error], .emplaceFailed,
      fun _ => rfl, failed⟩
  | resize size => exact absurd rfl (notResize size)
  | atIndex index store =>
    exact ⟨.terminated, list, none, by simp [dynarrayStep, atIndex, used],
      .atFailed index store, fun _ => rfl, failed⟩
  | removeLast =>
    exact ⟨.done, list, none, by simp [dynarrayStep, removeLast, used], .removeLastFailed,
      fun _ => rfl, failed⟩
  | clear =>
    have same : { list with used := 0 } = list := by rw [← used]
    exact ⟨.done, list, none, by simp [dynarrayStep, clear, kept, same], .clearFailed,
      fun _ => rfl, failed⟩
  | finalize =>
    exact ⟨.final none, list.init T, some [],
      by simp [dynarrayStep, finalize, libcFinalize, error, Dynarray.free, kept],
      .finalizeFailed, fun no => absurd trivial no, reinitialised.represents⟩
  | free =>
    exact ⟨.done, list.init T, some [], by simp [dynarrayStep, Dynarray.free, kept],
      .freeFailed, fun no => absurd trivial no, reinitialised.represents⟩

/-- The error marker passes for the size of an allocation: a `resize` of a failed array reports
success.
-/
theorem resize_failed (failed : list.IsFailed T) {size : UInt64} {ok : Bool}
    (resized : list.resize T size.toNat allocation = some (ok, after)) : ok = true := by
  have fits : size.toNat ≤ list.allocated := by
    have marker : list.allocated = errorMarker := of_decide_eq_true failed.failed
    have bound := size.toNat_lt
    rw [marker]
    unfold errorMarker
    omega
  unfold Dynarray.resize Dynarray.libcResize at resized
  split at resized
  · obtain ⟨x, enlarged, same⟩ := Option.bind_eq_some_iff.mp resized
    obtain rfl := Option.some.inj enlarged
    obtain ⟨x, _, same⟩ := Option.bind_eq_some_iff.mp same
    exact (congrArg Prod.fst (Option.some.inj same)).symm
  · obtain ⟨x, _, same⟩ := Option.bind_eq_some_iff.mp resized
    exact (congrArg Prod.fst (Option.some.inj same)).symm

theorem resizesLive_of_runsAs {calls : List (DynarrayOp α × Allocation α)} {l : Option (List α)}
    (runs : RunsAs T list l calls) : ResizesLive T list calls := by
  induction calls generalizing list l with
  | nil => trivial
  | cons call calls ih =>
    obtain ⟨op, allocation⟩ := call
    obtain ⟨represents, reply, after, l', step, lists, _, rest⟩ := runs
    constructor
    · rintro size rfl
      cases l with
      | some l => exact represents.2
      | none =>
        exfalso
        cases lists with
        | resizeFailed =>
          obtain ⟨result, resized, same⟩ := Option.bind_eq_some_iff.mp step
          have ok := resize_failed represents resized
          have flag := (Prod.mk.inj (Option.some.inj same)).1
          rw [ok] at flag
          exact absurd flag (by simp)
    · intro reply' after' step' notTerminated
      rw [step] at step'
      obtain ⟨rfl, rfl⟩ := Prod.mk.inj (Option.some.inj step')
      exact ih (rest notTerminated)

private theorem runsAs_of_resizesLive {calls : List (DynarrayOp α × Allocation α)} {l : Option (List α)}
    (represents : Represents T list l) (live : ResizesLive T list calls)
    : RunsAs T list l calls := by
  induction calls generalizing list l with
  | nil => exact represents
  | cons call calls ih =>
    obtain ⟨op, allocation⟩ := call
    obtain ⟨notFailed, later⟩ := live
    refine ⟨represents, ?_⟩
    cases l with
    | some l =>
      obtain ⟨reply, after, l', step, lists, next⟩ := step_represents represents op allocation
      exact ⟨reply, after, l', step, lists, fun no => (nomatch no),
        fun notTerminated => ih next (later reply after step notTerminated)⟩
    | none =>
      have notResize : ∀ size, op ≠ .resize size := by
        intro size same
        have live := notFailed size same
        rw [represents.failed] at live
        exact absurd live (by simp)
      obtain ⟨reply, after, l', step, lists, kept, next⟩ :=
        step_failed_represents represents op allocation notResize
      exact ⟨reply, after, l', step, lists, fun _ => kept,
        fun notTerminated => ih next (later reply after step notTerminated)⟩

/-- The runs of an initialised array are those of a list with a failed state exactly when no
failed array is resized.
-/
theorem dynarray_runsAs_list (T : DynarrayType α) (list : Dynarray α)
    (scratch : list.scratch.length = T.initialSize) (calls : List (DynarrayOp α × Allocation α))
    : RunsAs T (list.init T) (some []) calls ↔ ResizesLive T (list.init T) calls := by
  constructor
  · exact resizesLive_of_runsAs
  · exact runsAs_of_resizesLive (init_holds list scratch).represents

/-- An `int` array with one element of scratch space. -/
def intArray : DynarrayType Nat where
  elementSize := 4
  elementSize_pos := by decide
  initialSize := 1
  scratch_fits := by decide
  elementInit := none
  elementFree := false
  zero := 0

/-- The storage of such an array before `init`. -/
def intArrayStruct : Dynarray Nat where
  used := 0
  allocated := 0
  heapArray := none
  scratch := [0]
  freed := []

theorem dynarray_runsAs_list_enlarged
    : RunsAs intArray (intArrayStruct.init intArray) (some [])
      [(.add 5, none), (.add 6, some fun _ => 0), (.add 7, none)] := by
  apply (dynarray_runsAs_list intArray intArrayStruct rfl _).mpr
  refine ⟨fun size no => (nomatch no), fun _ _ _ _ => ⟨fun size no => (nomatch no), fun _ _ _ _ =>
    ⟨fun size no => (nomatch no), fun _ _ _ _ => trivial⟩⟩⟩

/-- After an `add` that gets no memory, `resize` returns true and the size is three, with one
cell of storage.
-/
theorem dynarray_resize_of_failed
    : ((dynarrayStep intArray (intArrayStruct.init intArray) none (.add 5)).bind fun first =>
        (dynarrayStep intArray first.2 none (.add 6)).bind fun second =>
          dynarrayStep intArray second.2 none (.resize 3))
        = some (.flag true, {
              used := 3,
              allocated := errorMarker,
              heapArray := none,
              scratch := [5],
              freed := []
            })
      ∧ ¬RunsAs intArray (intArrayStruct.init intArray) (some [])
          [(.add 5, none), (.add 6, none), (.resize 3, none)] := by
  refine ⟨by decide, ?_⟩
  intro runs
  obtain ⟨_, later⟩ := resizesLive_of_runsAs runs
  obtain ⟨_, later⟩ := later .done _ (by rfl) (by decide)
  obtain ⟨live, _⟩ := later .done _ (by rfl) (by decide)
  exact absurd (live 3 rfl) (by decide)

end Nglibc.Malloc
