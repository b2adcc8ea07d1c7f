import Nglibc.Elf.FindObjectInit

/-! The changes by `dlopen` and `dlclose`: an update merges the active chain with the new objects
into the other chain, from the highest address down, and a close patches an element in place.
-/

namespace Nglibc.FindObject

open List

/-- `_dlfo_mappings_segment_count_used`. -/
def countUsed : List Segment → Nat
  | [] => 0
  | seg :: previous =>
    if seg.size = 0 then 0 else seg.used.countP (·.map.isSome) + countUsed previous

/-- `_dlfo_mappings_segment_count_allocated`. -/
def countAllocated (chain : List Segment) : Nat := (chain.map (·.allocated)).sum

/-- The answers of `malloc` to an update: whether there is an array for the link maps, the address of
a new segment, and what that memory holds.
-/
structure Memory where
  array : Bool
  segment : Nat → Option Nat
  contents : Nat → Mapping

def Memory.Fails (memory : Memory) : Prop :=
  memory.array = false ∨ ∃ bytes, memory.segment bytes = none

/-- The size of a new segment. Growth lets a search along the chain approximate a binary search. -/
def grownSize (size : Nat) (previous : List Segment) : Nat :=
  let growth :=
    match previous with
    | [] => 63
    | seg :: _ => 2 * seg.allocated
  if size < growth then growth else size

/-- `_dlfo_mappings_segment_allocate`. The header of a segment and an element have 32 bytes each. The
outer `none` is the failed assertion.
-/
def allocate (size : Nat) (previous : List Segment) (memory : Memory) : Option (Option Segment) :=
  let size := grownSize size previous
  let bytes := 32 + size * 32 + 2 * 128
  match memory.segment bytes with
  | none => some none
  | some ptr =>
    let stop := (ptr + bytes) / 128 * 128
    let start := (ptr + 127) / 128 * 128
    let allocated := (stop - start - 32) / 32
    if allocated ≥ size then some (some { allocated, size := 0, objects := memory.contents })
    else none

/-- `_dlfo_update_init_seg`. The new size is also the index at which writing starts, plus 1. -/
def Segment.initSize (seg : Segment) (remaining : Nat) : Segment :=
  { seg with size := if remaining < seg.allocated then remaining else seg.allocated }

def Segment.write (seg : Segment) (i : Nat) (o : Mapping) : Segment :=
  { seg with objects := Function.update seg.objects i o }

@[simp] theorem Segment.write_same (seg : Segment) (i : Nat) (o : Mapping)
    : (seg.write i o).objects i = o := by
  simp [Segment.write]

theorem Segment.write_other (seg : Segment) {i k : Nat} (o : Mapping) (other : k ≠ i)
    : (seg.write i o).objects k = seg.objects k := by
  simp [Segment.write, other]

/-- The position below which the elements of an array come that are not closed. -/
def lastOpen (objects : Nat → Mapping) : Nat → Nat
  | 0 => 0
  | i + 1 => if (objects i).map.isNone then lastOpen objects i else i + 1

/-- The next position in the active chain with an element that is not closed. -/
def nextOpen : List Segment → Nat → List Segment × Nat
  | [], i => ([], i)
  | seg :: previous, i =>
    match lastOpen seg.objects i with
    | j + 1 => (seg :: previous, j + 1)
    | 0 =>
      match previous with
      | [] => ([], 0)
      | next :: _ => if next.size = 0 then ([], 0) else nextOpen previous next.size

/-- What is written next, with the position behind it: the larger one of the next element and of the
next link map, if there are any.
-/
def choose (current : List Segment) (i : Nat) (loaded : List LinkMap)
    : Option (Mapping × List Segment × Nat × List LinkMap) :=
  match current, loaded with
  | [], [] => none
  | [], l :: ls => some (fromMap l, [], i, ls)
  | seg :: previous, [] => some (seg.objects (i - 1), seg :: previous, i - 1, [])
  | seg :: previous, l :: ls =>
    if l.mapStart < (seg.objects (i - 1)).mapStart then
      some (seg.objects (i - 1), seg :: previous, i - 1, l :: ls)
    else some (fromMap l, seg :: previous, i, ls)

def truncate : List Segment → List Segment
  | seg :: previous :: rest => seg :: { previous with size := 0 } :: rest
  | chain => chain

/-- The loop of `_dl_find_object_update_1`, from the segment that is written. The link maps come in
descending order. A failed assertion or a null pointer gives `none`.
-/
def mergeLoop : Nat → List Segment → Nat → List LinkMap → List Segment → Nat → Option (List Segment)
  | 0, current, i, loaded, target, j =>
    let position := nextOpen current i
    match choose position.1 position.2 loaded with
    | none => if j = 0 then some (truncate target) else none
    | some _ => none
  | remaining + 1, current, i, loaded, target, j =>
    let position := nextOpen current i
    match choose position.1 position.2 loaded with
    | none => none
    | some (o, current', i', loaded') =>
      match target, j with
      | [], _ => none
      | seg :: previous, j + 1 =>
        mergeLoop remaining current' i' loaded' (seg.write j o :: previous) j
      | _ :: [], 0 => none
      | seg :: next :: rest, 0 =>
        let next := next.initSize (remaining + 1)
        (mergeLoop remaining current' i' loaded' (next.write (next.size - 1) o :: rest)
          (next.size - 1)).map (seg :: ·)

/-- The index at which reading the active chain starts, plus 1. -/
def firstIndex : List Segment → Nat
  | [] => 0
  | seg :: _ => seg.size

/-- The end of `_dl_find_object_update_1`, in a chain with enough space. -/
def Data.merge (d : Data) (loaded : List LinkMap) (remaining : Nat) (target : List Segment)
    : Option Data :=
  match target with
  | [] => none
  | seg :: previous =>
    let seg := seg.initSize remaining
    (mergeLoop remaining d.active (firstIndex d.active) loaded.reverse (seg :: previous)
      seg.size).map fun chain =>
        { d with chains := Function.update d.chains (!d.index) chain, version := d.version + 1 }

/-- `_dl_find_object_update_1`. -/
def Data.update1 (d : Data) (loaded : List LinkMap) (memory : Memory) : Option (Bool × Data) :=
  let target := d.chains (!d.index)
  let remaining := countUsed d.active + loaded.length
  if countAllocated target < remaining then
    match allocate (remaining - countAllocated target) target memory with
    | none => none
    | some none => some (false, d)
    | some (some seg) => (d.merge loaded remaining (seg :: target)).map (true, ·)
  else (d.merge loaded remaining target).map (true, ·)

/-- The data of the search, and the link maps with `l_find_object_processed`. -/
structure World where
  data : Data
  processed : List LinkMap

def World.unprocessed (w : World) (maps : List LinkMap) : List LinkMap :=
  maps.filter fun l => l.real ∧ l ∉ w.processed

/-- `_dl_find_object_update`, for the link maps from the new one on. -/
def World.update (w : World) (maps : List LinkMap) (memory : Memory) : Option (Bool × World) :=
  if w.unprocessed maps = [] then some (true, w)
  else if memory.array then
    let sorted := SelectionSort.sort LinkMap.mapStart (w.unprocessed maps)
    (w.data.update1 sorted memory).map fun (ok, data) =>
      (ok, { data, processed := if ok then w.unprocessed maps ++ w.processed else w.processed })
  else some (false, w)

/-- The loop of `_dl_find_object_dlclose`. -/
def close (start : Nat) : List Segment → List Segment
  | [] => []
  | seg :: previous =>
    if seg.size = 0 then seg :: previous
    else if (seg.objects 0).mapStart ≤ start then
      match lookup start seg.objects seg.size with
      | none => seg :: previous
      | some i =>
        let o := seg.objects i
        seg.write i { o with mapEnd := o.mapStart, map := none } :: previous
    else seg :: close start previous

/-- `_dl_find_object_dlclose`. The caller frees the link map, and with it the flag goes. -/
def World.dlclose (w : World) (l : LinkMap) : World where
  data := { w.data with
    chains := Function.update w.data.chains w.data.index (close l.mapStart w.data.active) }
  processed := w.processed.erase l

/-- The elements below an index, from the last one down. -/
def Segment.below (seg : Segment) (n : Nat) : List Mapping :=
  ((List.range n).map seg.objects).reverse

def stream : List Segment → List Mapping
  | [] => []
  | seg :: previous => if seg.size = 0 then [] else seg.below seg.size ++ stream previous

def streamFrom : List Segment → Nat → List Mapping
  | [], _ => []
  | seg :: previous, i => seg.below i ++ stream previous

def opened (os : List Mapping) : List Mapping := os.filter (·.map.isSome)

/-- The order of the merge, from high addresses to low ones. -/
def above (a b : Mapping) : Bool := decide (b.mapStart < a.mapStart)

@[simp] theorem Segment.below_zero (seg : Segment) : seg.below 0 = [] := rfl

@[simp] theorem Segment.below_succ (seg : Segment) (n : Nat)
    : seg.below (n + 1) = seg.objects n :: seg.below n := by
  simp [Segment.below, range_succ]

theorem countUsed_eq (chain : List Segment) : countUsed chain = (opened (stream chain)).length := by
  induction chain with
  | nil => rfl
  | cons seg previous ih =>
    rw [countUsed, stream]
    split
    · rfl
    · rw [ih, opened, opened, filter_append, length_append, countP_eq_length_filter,
        Segment.below, filter_reverse, length_reverse]
      rfl

/-- Closed elements at the end of an array are skipped. -/
theorem lastOpen_spec (seg : Segment) (i : Nat)
    : opened (seg.below (lastOpen seg.objects i)) = opened (seg.below i)
      ∧ ∀ j, lastOpen seg.objects i = j + 1 → (seg.objects j).map.isSome = true := by
  induction i with
  | zero => exact ⟨rfl, nofun⟩
  | succ i ih =>
    rw [lastOpen]
    split
    next closed =>
      refine ⟨ih.1.trans ?_, ih.2⟩
      have notOpen : ¬ (seg.objects i).map.isSome = true := by
        simp [closed]
      rw [Segment.below_succ]
      exact (filter_cons_of_neg (p := fun o : Mapping => o.map.isSome) notOpen).symm
    next isOpen =>
      refine ⟨rfl, fun j equal => ?_⟩
      obtain rfl : i = j := Nat.succ.inj equal
      simpa [Option.isNone_iff_eq_none, Option.isSome_iff_ne_none] using isOpen

/-- The next position has the same open elements from it on, and the first of them is its own. -/
theorem nextOpen_spec (current : List Segment) (i : Nat)
    : opened (streamFrom (nextOpen current i).1 (nextOpen current i).2)
        = opened (streamFrom current i)
      ∧ ((nextOpen current i).1 = [] ∨ ∃ seg previous j,
        nextOpen current i = (seg :: previous, j + 1) ∧ (seg.objects j).map.isSome = true) := by
  induction current generalizing i with
  | nil => exact ⟨rfl, .inl rfl⟩
  | cons seg previous ih =>
    obtain ⟨same, isOpen⟩ := lastOpen_spec seg i
    rw [nextOpen.eq_def]
    simp only
    cases position : lastOpen seg.objects i with
    | succ j =>
      rw [position] at same
      refine ⟨?_, .inr ⟨seg, previous, j, rfl, isOpen j position⟩⟩
      simp only [streamFrom, opened, filter_append] at same ⊢
      rw [same]
    | zero =>
      rw [position] at same
      have empty : opened (streamFrom (seg :: previous) i) = opened (stream previous) := by
        simp only [streamFrom, opened, filter_append] at same ⊢
        rw [← same]
        rfl
      rw [empty]
      cases previous with
      | nil => exact ⟨rfl, .inl rfl⟩
      | cons next rest =>
        simp only
        split
        next zero =>
          refine ⟨?_, .inl rfl⟩
          rw [stream, if_pos zero]
          rfl
        next positive =>
          obtain ⟨again, either⟩ := ih next.size
          refine ⟨again.trans ?_, either⟩
          rw [stream, if_neg positive, streamFrom]

def merged (current : List Segment) (i : Nat) (loaded : List LinkMap) : List Mapping :=
  (opened (streamFrom current i)).merge (loaded.map fromMap) above

/-- The choice takes the first element of the merge. -/
theorem choose_spec (current : List Segment) (i : Nat) (loaded : List LinkMap)
    : match choose (nextOpen current i).1 (nextOpen current i).2 loaded with
      | none => merged current i loaded = []
      | some (o, current', i', loaded') =>
        merged current i loaded = o :: merged current' i' loaded' := by
  obtain ⟨same, either⟩ := nextOpen_spec current i
  simp only [merged, ← same]
  rcases either with ended | ⟨seg, previous, j, position, isOpen⟩
  · rw [ended]
    have nothing : opened (streamFrom [] (nextOpen current i).2) = [] := rfl
    cases loaded with
    | nil => simp only [choose, nothing, map_nil, merge_right]
    | cons l ls => simp only [choose, nothing, nil_merge, map_cons]
  · rw [position]
    have first : opened (streamFrom (seg :: previous) (j + 1))
        = seg.objects j :: opened (streamFrom (seg :: previous) j) := by
      simp only [streamFrom, Segment.below_succ, cons_append]
      exact filter_cons_of_pos isOpen
    cases loaded with
    | nil =>
      simp only [choose, Nat.add_sub_cancel, first, map_nil, merge_right]
    | cons l ls =>
      simp only [choose, Nat.add_sub_cancel, first, map_cons, cons_merge_cons, above]
      by_cases less : l.mapStart < (seg.objects j).mapStart
      · have larger : (fromMap l).mapStart < (seg.objects j).mapStart := less
        simp only [if_pos less, decide_eq_true larger, if_true, map_cons]
      · have smaller : ¬ (fromMap l).mapStart < (seg.objects j).mapStart := less
        simp only [if_neg less, decide_eq_false smaller, Bool.false_eq_true, if_false, first]

/-- In a chain with enough space the loop writes the merge, down to the start of a segment, and ends
the chain there. By induction on the number of elements that remain.
-/
theorem mergeLoop_spec (remaining : Nat) (current : List Segment) (i : Nat) (loaded : List LinkMap)
    (seg : Segment) (previous : List Segment) (j : Nat)
    (count : remaining = (merged current i loaded).length) (le : j ≤ remaining)
    (space : remaining ≤ j + countAllocated previous)
    (positive : ∀ s ∈ previous, 0 < s.allocated)
    : ∃ seg' previous',
        mergeLoop remaining current i loaded (seg :: previous) j = some (seg' :: previous')
        ∧ seg'.size = seg.size ∧ (∀ k ≥ j, seg'.objects k = seg.objects k)
        ∧ seg'.below j ++ stream previous' = merged current i loaded
        ∧ (seg' :: previous').map (·.allocated) = (seg :: previous).map (·.allocated) := by
  induction remaining generalizing current i loaded seg previous j with
  | zero =>
    obtain rfl : j = 0 := by omega
    have empty : merged current i loaded = [] := eq_nil_of_length_eq_zero count.symm
    have first := choose_spec current i loaded
    rw [mergeLoop.eq_def]
    cases chosen : choose (nextOpen current i).1 (nextOpen current i).2 loaded with
    | some next =>
      simp only [chosen, empty] at first
      exact nomatch first
    | none =>
      simp only [chosen, if_true]
      cases previous with
      | nil => exact ⟨seg, [], rfl, rfl, fun _ _ => rfl, empty.symm, rfl⟩
      | cons next rest =>
        exact ⟨seg, { next with size := 0 } :: rest, rfl, rfl, fun _ _ => rfl, empty.symm, rfl⟩
  | succ remaining ih =>
    have first := choose_spec current i loaded
    rw [mergeLoop.eq_def]
    cases chosen : choose (nextOpen current i).1 (nextOpen current i).2 loaded with
    | none =>
      simp only [chosen] at first
      rw [first] at count
      exact nomatch count
    | some next =>
      obtain ⟨o, current', i', loaded'⟩ := next
      simp only [chosen] at first ⊢
      rw [first] at count ⊢
      have count' : remaining = (merged current' i' loaded').length := Nat.succ.inj count
      cases j with
      | succ j =>
        obtain ⟨seg', previous', result, size, kept, written, allocated⟩ :=
          ih current' i' loaded' (seg.write j o) previous j count' (by omega) (by omega)
            positive
        refine ⟨seg', previous', result, size, ?_, ?_, allocated⟩
        · intro k bound
          exact (kept k (by omega)).trans (seg.write_other o (by omega))
        · have here : seg'.objects j = o := (kept j (Nat.le_refl j)).trans (seg.write_same j o)
          rw [Segment.below_succ, here, cons_append, written]
      | zero =>
        cases previous with
        | nil => exact absurd space (by simp [countAllocated])
        | cons next rest =>
          have total : countAllocated (next :: rest) = next.allocated + countAllocated rest :=
            sum_cons
          have room : 0 < next.allocated := positive next mem_cons_self
          have size : 0 < (next.initSize (remaining + 1)).size
              ∧ (next.initSize (remaining + 1)).size ≤ remaining + 1
              ∧ remaining + 1 ≤ (next.initSize (remaining + 1)).size + countAllocated rest := by
            simp only [Segment.initSize]
            split <;> omega
          obtain ⟨seg', previous', result, sizeEq, kept, written, allocated⟩ :=
            ih current' i' loaded' ((next.initSize (remaining + 1)).write
                ((next.initSize (remaining + 1)).size - 1) o)
              rest ((next.initSize (remaining + 1)).size - 1) count' (by omega) (by omega)
              (fun s mem => positive s (mem_cons_of_mem next mem))
          refine ⟨seg, seg' :: previous', ?_, rfl, fun _ _ => rfl, ?_, ?_⟩
          · simp only [result, Option.map_some]
          · have sizeEq : seg'.size = (next.initSize (remaining + 1)).size - 1 + 1 :=
              sizeEq.trans (Nat.succ_pred_eq_of_pos size.1).symm
            have here : seg'.objects ((next.initSize (remaining + 1)).size - 1) = o :=
              (kept _ le_rfl).trans (Segment.write_same _ _ o)
            rw [Segment.below_zero, nil_append, stream, if_neg (by omega), sizeEq,
              Segment.below_succ, here, cons_append, written]
          · exact congrArg (seg.allocated :: ·) allocated

end Nglibc.FindObject
