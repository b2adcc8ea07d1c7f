import Nglibc.Elf.FindObjectUpdate

/-! The chain of live objects: searching it and closing an element in it. The active chain holds the
live objects in the order of their addresses, with closed elements between them.
-/

namespace Nglibc.FindObject

open List

/-- From high addresses to low ones, without overlap. -/
def Descending (os : List Mapping) : Prop :=
  os.Pairwise fun a b => b.mapEnd ≤ a.mapStart ∧ b.mapStart < a.mapStart

theorem Segment.mem_below {seg : Segment} {n : Nat} {o : Mapping}
    : o ∈ seg.below n ↔ ∃ i < n, seg.objects i = o := by
  simp [Segment.below]

theorem Segment.ordered {seg : Segment} {n : Nat} (descending : Descending (seg.below n))
    : Ordered seg.objects n := by
  intro i j less bound
  have ascending := pairwise_map.mp (pairwise_reverse.mp descending)
  have at' := pairwise_iff_getElem.mp ascending i j (by simp; omega) (by simpa using bound) less
  simpa using at'

variable {pc : Nat}

/-- The search finds the element that covers the address, by induction over the segments. -/
theorem findLoaded_iff {chain : List Segment} (descending : Descending (stream chain)) (o : Mapping)
    : findLoaded pc chain = some o ↔ o ∈ stream chain ∧ o.Covers pc := by
  induction chain with
  | nil => simp [findLoaded, stream]
  | cons seg previous ih =>
    rw [findLoaded, stream]
    by_cases empty : seg.size = 0
    · simp [empty]
    rw [stream, if_neg empty] at descending
    obtain ⟨here, below, apart⟩ := pairwise_append.mp descending
    have ordered : Ordered seg.objects seg.size := Segment.ordered here
    have firstMem : seg.objects 0 ∈ seg.below seg.size :=
      Segment.mem_below.mpr ⟨0, Nat.pos_of_ne_zero empty, rfl⟩
    rw [if_neg empty, if_neg empty, mem_append]
    split
    next start =>
      have notBelow : ¬ (o ∈ stream previous ∧ o.Covers pc) := by
        rintro ⟨mem, covers⟩
        have := (apart _ firstMem o mem).1
        have := covers.2
        omega
      constructor
      · intro found
        obtain ⟨i, position, rfl⟩ := Option.map_eq_some_iff.mp found
        obtain ⟨bound, covers⟩ := lookup_covers start position empty
        exact ⟨.inl (Segment.mem_below.mpr ⟨i, bound, rfl⟩), covers⟩
      · rintro ⟨inSegment | inRest, covers⟩
        · obtain ⟨i, bound, rfl⟩ := Segment.mem_below.mp inSegment
          rw [lookup_complete ordered bound covers, Option.map_some]
        · exact (notBelow ⟨inRest, covers⟩).elim
    next start =>
      have notHere : ¬ (o ∈ seg.below seg.size ∧ o.Covers pc) := by
        rintro ⟨mem, covers⟩
        obtain ⟨i, bound, rfl⟩ := Segment.mem_below.mp mem
        have := covers.1
        rcases Nat.eq_zero_or_pos i with rfl | positive
        · omega
        · have := (ordered 0 i positive bound).2
          omega
      rw [ih below]
      constructor
      · exact fun found => ⟨.inr found.1, found.2⟩
      · rintro ⟨inSegment | inRest, covers⟩
        · exact (notHere ⟨inSegment, covers⟩).elim
        · exact ⟨inRest, covers⟩

def closeAt (start : Nat) (o : Mapping) : Mapping :=
  if o.mapStart = start then { o with mapEnd := o.mapStart, map := none } else o

theorem closeAt_start (start : Nat) (o : Mapping) : (closeAt start o).mapStart = o.mapStart := by
  rw [closeAt]
  split <;> rfl

theorem closeAt_other {start : Nat} {o : Mapping} (other : o.mapStart ≠ start)
    : closeAt start o = o :=
  if_neg other

/-- The loop closes the one element that starts at the address. -/
theorem stream_close {start : Nat} {chain : List Segment} (descending : Descending (stream chain))
    {o : Mapping} (mem : o ∈ stream chain) (covers : o.Covers start) (at' : o.mapStart = start)
    : stream (close start chain) = (stream chain).map (closeAt start) := by
  induction chain with
  | nil => rfl
  | cons seg previous ih =>
    by_cases empty : seg.size = 0
    · simp [stream, empty] at mem
    rw [close, if_neg empty]
    rw [stream, if_neg empty] at descending mem
    obtain ⟨here, below, apart⟩ := pairwise_append.mp descending
    have ordered : Ordered seg.objects seg.size := Segment.ordered here
    have firstMem : seg.objects 0 ∈ seg.below seg.size :=
      Segment.mem_below.mpr ⟨0, Nat.pos_of_ne_zero empty, rfl⟩
    rw [stream.eq_2 seg previous, if_neg empty, map_append]
    split
    next first =>
      have inSegment : o ∈ seg.below seg.size := by
        refine (mem_append.mp mem).resolve_right fun inRest => ?_
        have := (apart _ firstMem o inRest).1
        have := covers.2
        omega
      obtain ⟨i, bound, rfl⟩ := Segment.mem_below.mp inSegment
      rw [lookup_complete ordered bound covers]
      have rest : (stream previous).map (closeAt start) = stream previous := by
        refine (map_congr_left fun k memK => ?_).trans (map_id _)
        have := (apart _ firstMem k memK).2
        exact closeAt_other (by omega)
      rw [rest, stream, if_neg (show (seg.write _ _).size ≠ 0 from empty)]
      refine congrArg (· ++ stream previous) ?_
      simp only [Segment.below, map_reverse, map_map]
      refine congrArg List.reverse (map_congr_left fun k memK => ?_)
      have boundK : k < seg.size := mem_range.mp memK
      by_cases same : k = i
      · rw [same, Segment.write_same, Function.comp_apply, closeAt, if_pos at']
      · rw [Segment.write_other _ _ same, Function.comp_apply, closeAt_other]
        rcases Nat.lt_or_gt_of_ne same with less | greater
        · have := (ordered k i less bound).2
          omega
        · have := (ordered i k greater boundK).2
          omega
    next notFirst =>
      have inRest : o ∈ stream previous := by
        refine (mem_append.mp mem).resolve_left fun inSegment => ?_
        obtain ⟨i, bound, rfl⟩ := Segment.mem_below.mp inSegment
        rcases Nat.eq_zero_or_pos i with rfl | positive
        · omega
        · have := (ordered 0 i positive bound).2
          omega
      rw [stream, if_neg empty, ih below inRest]
      have same : (seg.below seg.size).map (closeAt start) = seg.below seg.size := by
        refine (map_congr_left fun k memK => ?_).trans (map_id _)
        obtain ⟨i, bound, rfl⟩ := Segment.mem_below.mp memK
        rcases Nat.eq_zero_or_pos i with rfl | positive
        · exact closeAt_other (by omega)
        · have := (ordered 0 i positive bound).2
          exact closeAt_other (by omega)
      rw [same]

theorem close_sizes (start : Nat) (chain : List Segment)
    : (close start chain).map (fun seg => (seg.allocated, seg.size))
      = chain.map fun seg => (seg.allocated, seg.size) := by
  induction chain with
  | nil => rfl
  | cons seg previous ih =>
    rw [close]
    split
    · rfl
    · split
      · cases lookup start seg.objects seg.size <;> rfl
      · exact congrArg ((seg.allocated, seg.size) :: ·) ih

def LinkMap.Disjoint (k l : LinkMap) : Prop := ∀ pc, k.Covers pc → ¬ l.Covers pc

structure Separate (objects : List LinkMap) : Prop where
  nonempty : ∀ l ∈ objects, l.mapStart < l.mapEnd
  disjoint : objects.Pairwise LinkMap.Disjoint

/-- The chain holds the live objects, and else only closed elements. Only a chain of one segment is
empty.
-/
structure Holds (live : List LinkMap) (chain : List Segment) : Prop where
  descending : Descending (stream chain)
  isOpen : ∀ o ∈ stream chain, o.map.isSome = true → ∃ l ∈ live, o = fromMap l
  closed : ∀ o ∈ stream chain, o.map.isSome = false → o.mapEnd ≤ o.mapStart
  complete : ∀ l ∈ live, fromMap l ∈ stream chain
  single : ∀ seg previous, chain = seg :: previous → seg.size = 0 → previous = []

variable {live : List LinkMap} {chain : List Segment}

theorem LinkMap.Disjoint.symm {k l : LinkMap} (apart : k.Disjoint l) : l.Disjoint k :=
  fun pc inL inK => apart pc inK inL

/-- Different objects start at different addresses. -/
theorem Separate.start_ne (separate : Separate live) {k l : LinkMap} (memK : k ∈ live)
    (memL : l ∈ live) (differ : k ≠ l)
    : k.mapStart ≠ l.mapStart := by
  intro same
  have symmetric : Std.Symm LinkMap.Disjoint := ⟨fun _ _ apart => apart.symm⟩
  refine separate.disjoint.forall memK memL differ k.mapStart ⟨le_rfl, ?_⟩ ?_
  · exact separate.nonempty k memK
  · rw [same]
    exact ⟨le_rfl, separate.nonempty l memL⟩

theorem Separate.end_le (separate : Separate live) {k l : LinkMap} (memK : k ∈ live)
    (memL : l ∈ live) (less : l.mapStart < k.mapStart)
    : l.mapEnd ≤ k.mapStart := by
  by_contra inside
  have differ : l ≠ k := by
    rintro rfl
    exact Nat.lt_irrefl _ less
  have symmetric : Std.Symm LinkMap.Disjoint := ⟨fun _ _ apart => apart.symm⟩
  refine separate.disjoint.forall memL memK differ k.mapStart ⟨less.le, Nat.lt_of_not_le inside⟩ ?_
  exact ⟨le_rfl, separate.nonempty k memK⟩

theorem Separate.nodup (separate : Separate live) : live.Nodup := by
  refine separate.disjoint.imp_of_mem ?_
  rintro k l memK - apart rfl
  have here : k.Covers k.mapStart := ⟨le_rfl, separate.nonempty k memK⟩
  exact apart _ here here

theorem Holds.find_live (holds : Holds live chain) {l : LinkMap} (mem : l ∈ live)
    (covers : l.Covers pc)
    : findLoaded pc chain = some (fromMap l) :=
  (findLoaded_iff holds.descending _).mpr ⟨holds.complete l mem, covers⟩

theorem Holds.find_none (holds : Holds live chain) (outside : ∀ l ∈ live, ¬ l.Covers pc)
    : findLoaded pc chain = none := by
  cases found : findLoaded pc chain with
  | none => rfl
  | some o =>
    obtain ⟨mem, covers⟩ := (findLoaded_iff holds.descending o).mp found
    cases isOpen : o.map.isSome with
    | true =>
      obtain ⟨l, inside, rfl⟩ := holds.isOpen o mem isOpen
      exact (outside l inside covers).elim
    | false =>
      have := holds.closed o mem isOpen
      obtain ⟨start, stop⟩ := covers
      omega

/-- Elements are told apart by their starts. -/
theorem Descending.eq_of_start {os : List Mapping} (descending : Descending os) {a b : Mapping}
    (memA : a ∈ os) (memB : b ∈ os) (same : a.mapStart = b.mapStart)
    : a = b := by
  by_contra differ
  have symmetric : Std.Symm fun a b : Mapping => a.mapStart ≠ b.mapStart := ⟨fun _ _ => Ne.symm⟩
  have starts : os.Pairwise fun a b => a.mapStart ≠ b.mapStart :=
    descending.imp fun order => Nat.ne_of_gt order.2
  exact starts.forall memA memB differ same

/-- Closing a live object removes it from the answers. -/
theorem Holds.close (holds : Holds live chain) (separate : Separate live) {l : LinkMap}
    (mem : l ∈ live)
    : Holds (live.erase l) (close l.mapStart chain) := by
  have inStream := holds.complete l mem
  have nonempty := separate.nonempty l mem
  have streamEq : stream (FindObject.close l.mapStart chain)
      = (stream chain).map (closeAt l.mapStart) :=
    stream_close holds.descending inStream ⟨le_rfl, nonempty⟩ rfl
  have endLe : ∀ o ∈ stream chain, (closeAt l.mapStart o).mapEnd ≤ o.mapEnd := by
    intro o memO
    by_cases same : o.mapStart = l.mapStart
    · obtain rfl : o = fromMap l := holds.descending.eq_of_start memO inStream same
      rw [closeAt, if_pos same]
      exact nonempty.le
    · rw [closeAt_other same]
  constructor
  · rw [streamEq, Descending, pairwise_map]
    refine holds.descending.imp_of_mem ?_
    rintro a b - memB ⟨ends, starts⟩
    rw [closeAt_start, closeAt_start]
    exact ⟨(endLe b memB).trans ends, starts⟩
  · intro o memO isOpen
    rw [streamEq] at memO
    obtain ⟨k, memK, rfl⟩ := mem_map.mp memO
    by_cases same : k.mapStart = l.mapStart
    · simp [closeAt, same] at isOpen
    · rw [closeAt_other same] at isOpen ⊢
      obtain ⟨j, memJ, rfl⟩ := holds.isOpen k memK isOpen
      refine ⟨j, (mem_erase_of_ne ?_).mpr memJ, rfl⟩
      rintro rfl
      exact same rfl
  · intro o memO isClosed
    rw [streamEq] at memO
    obtain ⟨k, memK, rfl⟩ := mem_map.mp memO
    by_cases same : k.mapStart = l.mapStart
    · rw [closeAt, if_pos same]
    · rw [closeAt_other same] at isClosed ⊢
      exact holds.closed k memK isClosed
  · intro k memK
    obtain ⟨differ, inside⟩ := separate.nodup.mem_erase_iff.mp memK
    rw [streamEq]
    refine mem_map.mpr ⟨fromMap k, holds.complete k inside, closeAt_other ?_⟩
    exact separate.start_ne inside mem differ
  · intro seg previous shape empty
    cases chain with
    | nil => exact nomatch shape
    | cons first rest =>
      have sizes := close_sizes l.mapStart (first :: rest)
      rw [shape] at sizes
      have same : seg.size = first.size := congrArg (·.2) (List.cons.inj sizes).1
      have none : rest = [] := holds.single first rest rfl (same ▸ empty)
      have short := congrArg List.length sizes
      rw [none] at short
      exact length_eq_zero_iff.mp (by simpa using short)

end Nglibc.FindObject
