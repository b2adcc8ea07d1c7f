import Nglibc.Malloc.LargeBin

/-! A large bin stays one under insertions and removals: a circular list in order of size, with a ring of
the first chunks of the sizes. No check for corruption fires.
-/

namespace Nglibc.Malloc
open Rings Function List

variable {f g key : Nat → Nat} {xs ys zs cs : List Nat} {p q r v bin : Nat}

/-! The ring of the sizes -/

/-- The first chunks of the sizes are linked in a ring; the other chunks are not. -/
structure SkipList (f g key : Nat → Nat) (cs : List Nat) : Prop where
  ring : Ring f g (firsts key none cs)
  unlisted : ∀ c ∈ cs, c ∉ firsts key none cs → f c = 0

variable {before after : List Nat}

/-- A chunk with a new size is linked before the next smaller size, or the largest one. -/
theorem SkipList.insert (skip : SkipList f g key (xs ++ ys)) (nodup : (v :: (xs ++ ys)).Nodup)
    (old : firsts key none (xs ++ ys) = before ++ after)
    (new : firsts key none (xs ++ v :: ys) = before ++ v :: after) (here : after ++ before = r :: zs)
    : SkipList (update (update f v r) (g r) v) (update (update g v (g r)) r v) key (xs ++ v :: ys) := by
  obtain ⟨ring, unlisted⟩ := skip
  have members : ∀ {c}, c ∈ r :: zs → c ∈ firsts key none (xs ++ ys) := by
    intro c member
    rw [← here, mem_append, or_comm, ← mem_append] at member
    rwa [old]
  have notNew : ∀ {c}, c ∈ r :: zs → c ≠ v := by
    rintro c member rfl
    exact (nodup_cons.mp nodup).1 (firsts_sublist.subset (members member))
  have distinct : (r :: zs).Nodup := by
    have sub : (before ++ after).Nodup := old ▸ ((nodup_cons.mp nodup).2.sublist firsts_sublist)
    rw [← here]
    exact (perm_append_comm.nodup_iff).mp sub
  rw [old, ring_append_comm, here] at ring
  have last := ring.prev_mem
  constructor
  · rw [new, ring_append_comm, cons_append, here]
    refine ring.insert distinct ?_ ?_ ?_ ?_ ?_ ?_
    · rw [update_of_ne (notNew last).symm, update_self]
    · rw [update_self]
    · rw [update_self]
    · rw [update_of_ne (notNew mem_cons_self).symm, update_self]
    · intro c member other
      rw [update_of_ne other, update_of_ne (notNew member)]
    · intro c member
      have other : c ≠ r := by
        rintro rfl
        exact (nodup_cons.mp distinct).1 member
      rw [update_of_ne other, update_of_ne (notNew (mem_cons_of_mem _ member))]
  · intro c member unlinked
    rw [new] at unlinked
    have other : c ≠ v := fun same => unlinked (mem_append_right _ (same ▸ mem_cons_self))
    have notFirst : c ∉ firsts key none (xs ++ ys) := by
      rw [old]
      intro first
      refine unlinked ((mem_append.mp first).elim (mem_append_left _) fun later => ?_)
      exact mem_append_right _ (mem_cons_of_mem _ later)
    have notLast : c ≠ g r := by
      rintro rfl
      exact notFirst (members last)
    rw [update_of_ne notLast, update_of_ne other]
    refine unlisted c ?_ notFirst
    rcases mem_append.mp member with inXs | inYs
    · exact mem_append_left _ inXs
    · exact mem_append_right _ ((mem_cons.mp inYs).resolve_left other)

/-- A chunk with the size of the one before it is not linked. -/
theorem SkipList.insert_second (skip : SkipList f g key (xs ++ ys))
    (same : firsts key none (xs ++ v :: ys) = firsts key none (xs ++ ys)) (unlinked : f v = 0)
    : SkipList f g key (xs ++ v :: ys) := by
  refine ⟨same ▸ skip.ring, fun c member notFirst => ?_⟩
  rw [same] at notFirst
  rcases mem_append.mp member with inXs | inYs
  · exact skip.unlisted c (mem_append_left _ inXs) notFirst
  · rcases mem_cons.mp inYs with rfl | inYs
    · exact unlinked
    · exact skip.unlisted c (mem_append_right _ inYs) notFirst

theorem SkipList.single (v : Nat) : SkipList (update f v v) (update g v v) key [v] := by
  refine ⟨⟨update_self v v f, update_self v v g⟩, fun c member notFirst => ?_⟩
  exact absurd member notFirst

/-- A chunk that is not the first one of its size is taken out. -/
theorem SkipList.erase_second (skip : SkipList f g key (xs ++ p :: ys))
    (same : firsts key none (xs ++ p :: ys) = firsts key none (xs ++ ys))
    : SkipList f g key (xs ++ ys) := by
  refine ⟨same ▸ skip.ring, fun c member notFirst => ?_⟩
  rw [← same] at notFirst
  refine skip.unlisted c ?_ notFirst
  rcases mem_append.mp member with inXs | inYs
  · exact mem_append_left _ inXs
  · exact mem_append_right _ (mem_cons_of_mem _ inYs)

/-- The only chunk of a size is taken out. -/
theorem SkipList.erase (skip : SkipList f g key (xs ++ p :: ys)) (nodup : (xs ++ p :: ys).Nodup)
    (old : firsts key none (xs ++ p :: ys) = before ++ p :: after)
    (new : firsts key none (xs ++ ys) = before ++ after)
    : SkipList (update f (g p) (f p)) (update g (f p) (g p)) key (xs ++ ys) := by
  obtain ⟨ring, unlisted⟩ := skip
  have distinct : (p :: (after ++ before)).Nodup := by
    have sub : (before ++ p :: after).Nodup := old ▸ nodup.sublist firsts_sublist
    exact (perm_append_comm.nodup_iff).mp sub
  rw [old, ring_append_comm] at ring
  constructor
  · rw [new, ring_append_comm]
    refine ring.erase distinct (update_self _ _ _) (update_self _ _ _) ?_ ?_
    · exact fun c _ other => update_of_ne other _ _
    · exact fun c _ other => update_of_ne other _ _
  · intro c member unlinked
    rw [new] at unlinked
    have here : c ∈ xs ++ p :: ys := by
      rcases mem_append.mp member with inXs | inYs
      · exact mem_append_left _ inXs
      · exact mem_append_right _ (mem_cons_of_mem _ inYs)
    have other : c ≠ p := by
      rintro rfl
      exact (nodup_cons.mp (perm_middle.nodup_iff.mp nodup)).1 member
    have notFirst : c ∉ p :: (after ++ before) := by
      rw [mem_cons, mem_append, or_comm (a := c ∈ after), ← mem_append]
      exact fun first => first.elim other unlinked
    have notLast : c ≠ g p := by
      rintro rfl
      exact notFirst ring.prev_mem
    rw [update_of_ne notLast]
    refine unlisted c here ?_
    rw [old, mem_append, or_comm, ← mem_append]
    exact notFirst

section

variable (skip : SkipList f g key (xs ++ p :: q :: ys)) (nodup : (xs ++ p :: q :: ys).Nodup)
include skip nodup

/-- The chunks that stay, without the one that is taken out and the next one, are linked as before. -/
theorem SkipList.others (old : firsts key none (xs ++ p :: q :: ys) = before ++ p :: after)
    (new : firsts key none (xs ++ q :: ys) = before ++ q :: after) {c : Nat} (member : c ∈ xs ++ q :: ys)
    (unlinked : c ∉ firsts key none (xs ++ q :: ys))
    : c ≠ q ∧ c ∉ p :: (after ++ before) ∧ f c = 0 := by
  rw [new, mem_append, mem_cons] at unlinked
  have other : c ≠ q := fun same => unlinked (.inr (.inl same))
  have here : c ∈ xs ++ p :: q :: ys := by
    rcases mem_append.mp member with inXs | inYs
    · exact mem_append_left _ inXs
    · exact mem_append_right _ (mem_cons_of_mem _ inYs)
  have stays : c ≠ p := by
    rintro rfl
    exact (nodup_cons.mp (perm_middle.nodup_iff.mp nodup)).1 member
  have notFirst : c ∉ p :: (after ++ before) := by
    rw [mem_cons, mem_append]
    rintro (same | later | earlier)
    · exact stays same
    · exact unlinked (.inr (.inr later))
    · exact unlinked (.inl earlier)
  refine ⟨other, notFirst, skip.unlisted c here ?_⟩
  rw [old]
  intro first
  exact notFirst ((perm_append_comm.cons p).mem_iff.mp (perm_middle.mem_iff.mp first))

/-- The next chunk, of the same size, takes the place of the first one. -/
theorem SkipList.promote (old : firsts key none (xs ++ p :: q :: ys) = before ++ p :: after)
    (new : firsts key none (xs ++ q :: ys) = before ++ q :: after) (several : after ++ before = r :: zs)
    : SkipList (update (update f q (f p)) (g p) q) (update (update g q (g p)) (f p) q) key
        (xs ++ q :: ys) := by
  have others := @SkipList.others _ _ _ _ _ _ _ _ _ skip nodup old new
  have ring := skip.ring
  have distinct : (p :: r :: zs).Nodup := by
    have sub : (before ++ p :: after).Nodup := old ▸ nodup.sublist firsts_sublist
    rw [← several]
    exact (perm_append_comm.nodup_iff).mp sub
  have notQ : q ∉ p :: r :: zs := by
    have sub : (before ++ q :: after).Nodup :=
      new ▸ (nodup_cons.mp (perm_middle.nodup_iff.mp nodup)).2.sublist firsts_sublist
    have notOther : q ∉ after ++ before := (nodup_cons.mp (perm_append_comm.nodup_iff.mp sub)).1
    rw [← several]
    refine fun member => (mem_cons.mp member).elim ?_ notOther
    rintro rfl
    exact (nodup_cons.mp (perm_middle.nodup_iff.mp nodup)).1
      (mem_append_right _ mem_cons_self)
  rw [old, ring_append_comm, cons_append, several] at ring
  have last := ring.prev_mem
  have notLast : q ≠ g p := by
    rintro rfl
    exact notQ last
  have notNext : q ≠ f p := by
    rw [ring.1.1]
    rintro rfl
    exact notQ (mem_cons_of_mem _ mem_cons_self)
  constructor
  · rw [new, ring_append_comm, cons_append, several]
    refine ring.replace distinct ?_ ?_ ?_ ?_ ?_ ?_
    · rw [update_of_ne notLast, update_self]
    · rw [update_self]
    · rw [update_self]
    · rw [update_of_ne notNext, update_self]
    · intro c member other
      rw [update_of_ne other, update_of_ne]
      rintro rfl
      exact notQ (mem_cons_of_mem _ member)
    · intro c member other
      rw [update_of_ne other, update_of_ne]
      rintro rfl
      exact notQ (mem_cons_of_mem _ member)
  · intro c member unlinked
    obtain ⟨other, notFirst, free⟩ := others member unlinked
    rw [update_of_ne, update_of_ne other, free]
    rintro rfl
    exact notFirst (several ▸ last)

/-- The next chunk, of the same size, becomes the only one in the ring. -/
theorem SkipList.promote_single (old : firsts key none (xs ++ p :: q :: ys) = [p])
    (new : firsts key none (xs ++ q :: ys) = [q])
    : SkipList (update f q q) (update g q q) key (xs ++ q :: ys) := by
  constructor
  · rw [new]
    exact ⟨update_self q q f, update_self q q g⟩
  · intro c member unlinked
    obtain ⟨other, _, free⟩ := @SkipList.others _ _ _ _ _ _ _ [] [] skip nodup old new c member unlinked
    rw [update_of_ne other, free]

end

/-! Large bins -/

/-- A free chunk of a large size: the chunk before it is in use, and its size stands behind it too. -/
structure FreeLarge (h : Heap) (p : Nat) : Prop where
  large : minLargeSize ≤ chunksize (h.head p)
  aligned : 16 ∣ chunksize (h.head p)
  flags : chunksize (h.head p) ||| prevInuse = h.head p
  foot : chunksize (h.head p) = h.foot p

/-- The chunks `cs` of a large bin, from the header on. -/
structure IsLargeBin (h : Heap) (bin : Nat) (cs : List Nat) : Prop where
  nodup : (bin :: cs).Nodup
  nonnull : ∀ c ∈ cs, c ≠ 0
  ring : Ring h.fd h.bk (bin :: cs)
  sorted : cs.Pairwise fun a b => h.head b ≤ h.head a
  free : ∀ c ∈ cs, FreeLarge h c
  skip : SkipList h.fdNextsize h.bkNextsize h.head cs
  header : h.fdNextsize bin ≠ 0

/-- A large chunk of the unsorted list, which is in no bin. Whoever puts a large chunk into that list clears
its `fd_nextsize`.
-/
structure Unsorted (h : Heap) (bin : Nat) (cs : List Nat) (v : Nat) : Prop where
  fresh : v ∉ bin :: cs
  nonnull : v ≠ 0
  free : FreeLarge h v
  unlisted : h.fdNextsize v = 0

variable {h : Heap}

theorem FreeLarge.odd (free : FreeLarge h p) : h.head p = chunksize (h.head p) + 1 := by
  obtain ⟨unit, size⟩ := free.aligned
  have flag : 2 ^ 4 * unit + 1 = 2 ^ 4 * unit ||| 1 := Nat.two_pow_add_eq_or_of_lt (by decide) unit
  have flags := free.flags
  rw [size] at flags ⊢
  exact (flag.trans flags).symm

theorem FreeLarge.main (free : FreeLarge h p) : chunkMainArena (h.head p) = true := by
  have aligned := free.aligned
  have odd := free.odd
  unfold chunkMainArena
  rw [decide_eq_true_eq]
  omega

theorem FreeLarge.notSmall (free : FreeLarge h p) : inSmallbinRange (h.head p) = false := by
  have large := free.large
  have odd := free.odd
  unfold inSmallbinRange
  rw [decide_eq_false_iff_not]
  omega

/-- A chunk gets its place between chunks that are not smaller and chunks that are not larger. -/
theorem IsLargeBin.inserted {fwd : Nat} {f g : Nat → Nat} (holds : IsLargeBin h bin (xs ++ ys))
    (new : Unsorted h bin (xs ++ ys) v) (here : ys ++ bin :: xs = fwd :: zs)
    (above : ∀ x ∈ xs, h.head v ≤ h.head x) (below : ∀ y ∈ ys, h.head y ≤ h.head v)
    (skip : SkipList f g h.head (xs ++ v :: ys)) (header : f bin ≠ 0)
    : IsLargeBin (linkChunk { h with fdNextsize := f, bkNextsize := g } v (h.bk fwd) fwd) bin
        (xs ++ v :: ys) := by
  have distinct : (v :: fwd :: zs).Nodup := by
    rw [← here]
    have all : (v :: (bin :: xs ++ ys)).Nodup := nodup_cons.mpr ⟨new.fresh, holds.nodup⟩
    exact ((perm_append_comm.cons v).nodup_iff).mp all
  have ring : Ring h.fd h.bk (fwd :: zs) := by
    rw [← here, ring_append_comm]
    exact holds.ring
  have last := ring.prev_mem
  rw [nodup_cons] at distinct
  have notLast : v ≠ h.bk fwd := by
    rintro rfl
    exact distinct.1 last
  have notFwd : v ≠ fwd := by
    rintro rfl
    exact distinct.1 mem_cons_self
  constructor
  · have all : (v :: (bin :: xs ++ ys)).Nodup := nodup_cons.mpr ⟨new.fresh, holds.nodup⟩
    exact (@perm_middle _ v (bin :: xs) ys).nodup_iff.mpr all
  · intro c member
    rcases mem_append.mp member with inXs | inYs
    · exact holds.nonnull c (mem_append_left _ inXs)
    · rcases mem_cons.mp inYs with rfl | inYs
      · exact new.nonnull
      · exact holds.nonnull c (mem_append_right _ inYs)
  · have inserted : Ring (update (update h.fd v fwd) (h.bk fwd) v)
        (update (update h.bk v (h.bk fwd)) fwd v) (v :: fwd :: zs) := by
      refine ring.insert distinct.2 ?_ (update_self _ _ _) (update_self _ _ _) ?_ ?_ ?_
      · rw [update_of_ne notLast, update_self]
      · rw [update_of_ne notFwd, update_self]
      · intro c member other
        rw [update_of_ne other, update_of_ne]
        rintro rfl
        exact distinct.1 member
      · intro c member
        rw [update_of_ne, update_of_ne]
        · rintro rfl
          exact distinct.1 (mem_cons_of_mem _ member)
        · rintro rfl
          exact (nodup_cons.mp distinct.2).1 member
    rw [← here, ← cons_append, ring_append_comm] at inserted
    exact inserted
  · have sorted := pairwise_append.mp holds.sorted
    refine pairwise_append.mpr ⟨sorted.1, pairwise_cons.mpr ⟨below, sorted.2.1⟩, ?_⟩
    intro x inXs y inYs
    rcases mem_cons.mp inYs with rfl | inYs
    · exact above x inXs
    · exact sorted.2.2 x inXs y inYs
  · have kept : ∀ {c}, FreeLarge h c
        → FreeLarge (linkChunk { h with fdNextsize := f, bkNextsize := g } v (h.bk fwd) fwd) c :=
      fun free => ⟨free.large, free.aligned, free.flags, free.foot⟩
    intro c member
    rcases mem_append.mp member with inXs | inYs
    · exact kept (holds.free c (mem_append_left _ inXs))
    · rcases mem_cons.mp inYs with rfl | inYs
      · exact kept new.free
      · exact kept (holds.free c (mem_append_right _ inYs))
  · exact skip
  · exact header

/-! Putting a chunk into a bin -/

theorem IsLargeBin.last (holds : IsLargeBin h bin cs) (some_ : cs ≠ [])
    : h.bk bin ∈ cs ∧ ∀ c ∈ cs, h.head (h.bk bin) ≤ h.head c := by
  rcases eq_nil_or_concat' cs with empty | ⟨before, last, rfl⟩
  · exact absurd empty some_
  · have links : Links h.fd h.bk bin (before ++ last :: []) bin := holds.ring
    have here : h.bk bin = last := (links_append.mp links).2.2
    rw [here]
    refine ⟨mem_append_right _ mem_cons_self, fun c member => ?_⟩
    rcases mem_append.mp member with earlier | same
    · exact (pairwise_append.mp holds.sorted).2.2 c earlier last mem_cons_self
    · rw [mem_singleton.mp same]

/-- The loop over the sizes ends at the first size that is not larger, by induction on the ring. -/
theorem skip_found {size fuel b : Nat} (links : Links h.fdNextsize g p cs b)
    (main : ∀ c ∈ p :: cs, chunkMainArena (h.head c) = true) (some_ : ∃ c ∈ p :: cs, h.head c ≤ size)
    (enough : cs.length < fuel)
    : ∃ before l after, p :: cs = before ++ l :: after ∧ iterate (skipTurn h size) fuel p = some l
      ∧ (∀ c ∈ before, size < h.head c) ∧ h.head l ≤ size := by
  induction cs generalizing p fuel with
  | nil =>
    obtain ⟨c, member, small⟩ := some_
    rw [mem_singleton.mp member] at small
    obtain ⟨fuel, rfl⟩ := Nat.exists_eq_add_of_lt enough
    refine ⟨[], p, [], rfl, ?_, nofun, small⟩
    rw [iterate, skipTurn, if_neg (Nat.not_lt.mpr small)]
  | cons q cs ih =>
    obtain ⟨fuel, rfl⟩ : ∃ k, fuel = k + 1 := ⟨fuel - 1, by omega⟩
    rw [iterate, skipTurn]
    by_cases larger : size < h.head p
    · rw [if_pos larger, links.1.1]
      simp only [main q (mem_cons_of_mem _ mem_cons_self), if_true]
      have some' : ∃ c ∈ q :: cs, h.head c ≤ size := by
        obtain ⟨c, member, small⟩ := some_
        rcases mem_cons.mp member with rfl | later
        · exact absurd larger (Nat.not_lt.mpr small)
        · exact ⟨c, later, small⟩
      obtain ⟨before, l, after, split, run, above, small⟩ :=
        ih links.2 (fun c member => main c (mem_cons_of_mem _ member)) some'
          (Nat.lt_of_succ_lt_succ enough)
      exact ⟨p :: before, l, after, by rw [split, cons_append], run,
        forall_mem_cons.mpr ⟨larger, above⟩, small⟩
    · rw [if_neg larger]
      exact ⟨[], p, q :: cs, rfl, rfl, nofun, Nat.not_lt.mp larger⟩

/-- The ring from the chunk on before which a chunk is put. -/
theorem IsLargeBin.ring_from {fwd : Nat} (holds : IsLargeBin h bin (xs ++ ys))
    (here : ys ++ bin :: xs = fwd :: zs)
    : Ring h.fd h.bk (fwd :: zs) := by
  rw [← here, ring_append_comm]
  exact holds.ring

theorem placeBefore_eq {fwd : Nat} (ring : Ring h.fd h.bk (fwd :: zs)) (f g : Nat → Nat)
    : placeBefore { h with fdNextsize := f, bkNextsize := g } v fwd
      = some (linkChunk { h with fdNextsize := f, bkNextsize := g } v (h.bk fwd) fwd) := by
  unfold placeBefore
  simp only [ring.next_prev, ne_eq, not_true_eq_false, if_false]

def Inserts (h : Heap) (bin : Nat) (cs : List Nat) (v : Nat) (result : Option Heap) : Prop :=
  ∃ h' cs', result = some h' ∧ IsLargeBin h' bin cs' ∧ cs'.Perm (v :: cs) ∧ h'.head = h.head

/-- A chunk with a new size gets its place in both rings. -/
theorem IsLargeBin.inserted_new {fwd : Nat} {zs' : List Nat} (holds : IsLargeBin h bin (xs ++ ys))
    (new : Unsorted h bin (xs ++ ys) v) (here : ys ++ bin :: xs = fwd :: zs)
    (above : ∀ x ∈ xs, h.head v < h.head x) (below : ∀ y ∈ ys, h.head y < h.head v)
    (hereSkip : firsts h.head (lastKey h.head none xs) ys ++ firsts h.head none xs = r :: zs')
    : IsLargeBin (linkChunk { h with
          fdNextsize := update (update h.fdNextsize v r) (h.bkNextsize r) v
          bkNextsize := update (update h.bkNextsize v (h.bkNextsize r)) r v } v (h.bk fwd) fwd)
        bin (xs ++ v :: ys) := by
  have noKey : ∀ {k}, k ≤ h.head v → lastKey h.head none xs ≠ some k := by
    intro k small same
    rcases lastKey_mem same with none_ | ⟨x, member, equal⟩
    · cases none_
    · exact absurd (above x member) (Nat.not_lt.mpr (equal ▸ small))
  have after : firsts h.head (some (h.head v)) ys = firsts h.head (lastKey h.head none xs) ys :=
    firsts_congr (fun y member same => (below y member).ne (Option.some.inj same).symm)
      fun y member => noKey (below y member).le
  have newFirsts : firsts h.head none (xs ++ v :: ys)
      = firsts h.head none xs ++ v :: firsts h.head (some (h.head v)) ys :=
    firsts_append_cons (noKey le_rfl)
  rw [after] at newFirsts
  refine holds.inserted new here (fun x member => (above x member).le) (fun y member => (below y member).le)
    (holds.skip.insert (nodup_cons.mpr ⟨?_, (nodup_cons.mp holds.nodup).2⟩) firsts_append
      newFirsts hereSkip) ?_
  · exact fun member => new.fresh (mem_cons_of_mem _ member)
  · have notNew : bin ≠ v := by
      rintro rfl
      exact new.fresh mem_cons_self
    have ring := holds.skip.ring
    rw [firsts_append, ring_append_comm, hereSkip] at ring
    have notLast : bin ≠ h.bkNextsize r := by
      intro same
      have member := ring.prev_mem
      rw [← hereSkip, mem_append, or_comm, ← mem_append, ← firsts_append, ← same] at member
      exact (nodup_cons.mp holds.nodup).1 (firsts_sublist.subset member)
    rw [update_of_ne notLast, update_of_ne notNew]
    exact holds.header

variable {fuel : Nat}

private theorem insert_empty (holds : IsLargeBin h bin []) (new : Unsorted h bin [] v)
    : Inserts h bin [] v (insertLargeChunk fuel h bin v) := by
  have here : h.fd bin = bin := holds.ring.1
  have back : h.bk bin = bin := holds.ring.2
  have notBin : bin ≠ v := fun same => new.fresh (mem_singleton.mpr same.symm)
  have header : update h.fdNextsize v v bin ≠ 0 := by
    rw [update_of_ne notBin]
    exact holds.header
  have inserted := @IsLargeBin.inserted [] [] [] v bin h bin _ _ holds new rfl nofun nofun
    (@SkipList.single _ h.bkNextsize _ v) header
  rw [back] at inserted
  unfold insertLargeChunk
  rw [here]
  simp only [ne_eq, not_true_eq_false, if_false]
  exact ⟨_, [v], rfl, inserted, .refl _, rfl⟩

private theorem insert_smallest (holds : IsLargeBin h bin cs) (new : Unsorted h bin cs v) (some_ : cs ≠ [])
    (small : h.head v < h.head (h.bk bin))
    : Inserts h bin cs v (insertLargeChunk fuel h bin v) := by
  obtain ⟨lastIn, smallest⟩ := holds.last some_
  cases cs with
  | nil => exact absurd rfl some_
  | cons c cs =>
  have here : h.fd bin = c := holds.ring.1.1
  have notBin : c ≠ bin := by
    rintro rfl
    exact (nodup_cons.mp holds.nodup).1 mem_cons_self
  rw [← append_nil (c :: cs)] at holds new
  have inserted := holds.inserted_new new rfl
    (fun x member => Nat.lt_of_lt_of_le small (smallest x member)) nofun rfl
  unfold insertLargeChunk
  simp only [here, ne_eq, notBin, not_false_eq_true, if_true, new.free.flags,
    (holds.free _ (mem_append_left _ lastIn)).main, Bool.true_eq_false, if_false, if_pos small]
  refine ⟨_, _, rfl, ?_, perm_append_singleton v (c :: cs), rfl⟩
  simp only [Heap.setFdNextsize, Heap.setBkNextsize, update_self]
  exact inserted

/-- The scan ends at the first chunk of a size that is not larger. -/
theorem IsLargeBin.scanned {fuel c : Nat} (holds : IsLargeBin h bin (c :: cs))
    (larger : h.head (h.bk bin) ≤ h.head v) (enough : (c :: cs).length < fuel)
    : ∃ xs l ys, c :: cs = xs ++ l :: ys ∧ iterate (skipTurn h (h.head v)) fuel c = some l
      ∧ (∀ x ∈ xs, h.head v < h.head x) ∧ h.head l ≤ h.head v
      ∧ lastKey h.head none xs ≠ some (h.head l) := by
  obtain ⟨lastIn, _⟩ := holds.last nofun
  have sub : (firsts h.head (some (h.head c)) cs).Sublist cs := firsts_sublist
  have notLarger : ∃ x ∈ c :: firsts h.head (some (h.head c)) cs, h.head x ≤ h.head v := by
    rcases @firsts_covers h.head none _ _ lastIn with none_ | ⟨x, member, equal⟩
    · cases none_
    · exact ⟨x, member, equal ▸ larger⟩
  obtain ⟨before, l, after, split, run, above, small⟩ := skip_found holds.skip.ring
    (fun x member => (holds.free x ((sub.cons_cons c).subset member)).main) notLarger
    (Nat.lt_of_le_of_lt sub.length_le (Nat.lt_of_succ_lt enough))
  have first : l ∈ firsts h.head none (c :: cs) := by
    change l ∈ c :: firsts h.head (some (h.head c)) cs
    rw [split]
    exact mem_append_right _ mem_cons_self
  obtain ⟨xs, ys, same, newKey⟩ := firsts_split first
  have splits : firsts h.head none xs ++ l :: firsts h.head (some (h.head l)) ys
      = before ++ l :: after := by
    rw [← firsts_append_cons newKey, ← same]
    exact split
  have distinct : (xs ++ l :: ys).Nodup := same ▸ (nodup_cons.mp holds.nodup).2
  have notBefore : l ∉ xs := fun member =>
    (nodup_append.mp distinct).2.2 l member l mem_cons_self rfl
  have notAfter : l ∉ ys := (nodup_cons.mp (nodup_append.mp distinct).2.1).1
  obtain ⟨equal, _, _⟩ := (append_cons_inj_of_notMem
    (fun member => notBefore (firsts_sublist.subset member)) fun member => notAfter (firsts_sublist.subset member)).mp splits
  refine ⟨xs, l, ys, same, run, fun x member => ?_, small, newKey⟩
  rcases @firsts_covers h.head none _ _ member with none_ | ⟨y, first, equalKey⟩
  · cases none_
  · rw [← equalKey]
    exact above y (equal ▸ first)

/-- A chunk that is not smaller than all of the bin is put behind the first chunk of its size, or before
that of the next smaller size.
-/
theorem insert_scanned (holds : IsLargeBin h bin cs) (new : Unsorted h bin cs v) (some_ : cs ≠ [])
    (larger : h.head (h.bk bin) ≤ h.head v) (enough : cs.length < fuel)
    : Inserts h bin cs v (insertLargeChunk fuel h bin v) := by
  obtain ⟨lastIn, smallest⟩ := holds.last some_
  have lastMain := (holds.free _ lastIn).main
  obtain ⟨c, cs', rfl⟩ := exists_cons_of_ne_nil some_
  have here : h.fd bin = c := holds.ring.1.1
  have notBin : c ≠ bin := by
    rintro rfl
    exact (nodup_cons.mp holds.nodup).1 mem_cons_self
  have main := (holds.free c mem_cons_self).main
  unfold insertLargeChunk
  simp only [here, ne_eq, notBin, not_false_eq_true, if_true, new.free.flags, lastMain, main,
    Bool.true_eq_false, if_false, if_neg (Nat.not_lt.mpr larger)]
  obtain ⟨xs, l, ys, same, run, above, small, newKey⟩ := holds.scanned larger enough
  rw [run]
  rw [same] at holds new ⊢
  have sorted := (pairwise_append.mp holds.sorted).2.1
  have below : ∀ y ∈ l :: ys, h.head y ≤ h.head l := by
    intro y member
    rcases mem_cons.mp member with rfl | later
    · exact le_rfl
    · exact (pairwise_cons.mp sorted).1 y later
  simp only
  by_cases equal : h.head v = h.head l
  · -- behind the first chunk of the size, which stays the first one
    rw [if_pos equal]
    have nextHere : ∃ fwd zs, ys ++ bin :: (xs ++ [l]) = fwd :: zs ∧ h.fd l = fwd := by
      have links : Links h.fd h.bk bin (xs ++ l :: ys) bin := holds.ring
      have after := (links_append.mp links).2
      cases ys with
      | nil => exact ⟨bin, xs ++ [l], rfl, after.1⟩
      | cons y ys => exact ⟨y, ys ++ bin :: (xs ++ [l]), rfl, after.1.1⟩
    obtain ⟨fwd, zs, hereNext, next⟩ := nextHere
    rw [append_cons] at holds new
    rw [next, placeBefore_eq (holds.ring_from hereNext) h.fdNextsize h.bkNextsize]
    refine ⟨_, xs ++ [l] ++ v :: ys, rfl, holds.inserted new hereNext ?_ ?_ ?_ holds.header, ?_, rfl⟩
    · intro x member
      rcases mem_append.mp member with earlier | last
      · exact (above x earlier).le
      · rw [mem_singleton.mp last]
        exact equal.le
    · exact fun y member => equal ▸ below y (mem_cons_of_mem _ member)
    · refine holds.skip.insert_second ?_ new.unlisted
      rw [← append_cons, ← append_cons]
      exact firsts_second equal
    · have permuted : (xs ++ [l] ++ v :: ys).Perm (v :: (xs ++ [l] ++ ys)) := perm_middle
      rwa [← append_cons xs l ys] at permuted
  · -- before the first chunk of the next smaller size
    rw [if_neg equal]
    have smaller := Nat.lt_of_le_of_ne small (Ne.symm equal)
    have notNew : v ≠ l := by
      rintro rfl
      exact new.fresh (mem_cons_of_mem _ (mem_append_right _ mem_cons_self))
    have skipRing := holds.skip.ring
    rw [firsts_append_cons newKey, ring_append_comm, cons_append] at skipRing
    have notLast : h.bkNextsize l ≠ v := by
      rintro rfl
      have member := skipRing.prev_mem
      rw [← cons_append, mem_append, or_comm, ← mem_append,
        ← firsts_append_cons newKey] at member
      exact new.fresh (mem_cons_of_mem _ (firsts_sublist.subset member))
    have after : firsts h.head (lastKey h.head none xs) (l :: ys)
        = l :: firsts h.head (some (h.head l)) ys :=
      if_neg newKey
    have inserted := holds.inserted_new new (cons_append ..) above
      (fun y member => Nat.lt_of_le_of_lt (below y member) smaller) (by rw [after, cons_append])
    simp only [Heap.setFdNextsize, Heap.setBkNextsize, update_self, update_of_ne notNew.symm,
      update_of_ne notLast, skipRing.next_prev, not_true_eq_false, if_false, update_of_ne notNew]
    rw [placeBefore_eq (holds.ring_from (cons_append ..))]
    exact ⟨_, _, rfl, inserted, perm_middle, rfl⟩

theorem insertLargeChunk_inserts (holds : IsLargeBin h bin cs) (new : Unsorted h bin cs v)
    (enough : cs.length < fuel)
    : Inserts h bin cs v (insertLargeChunk fuel h bin v) := by
  by_cases some_ : cs = []
  · subst some_
    exact insert_empty holds new
  · rcases Nat.lt_or_ge (h.head v) (h.head (h.bk bin)) with small | larger
    · exact insert_smallest holds new some_ small
    · exact insert_scanned holds new some_ larger enough

/-! Taking a chunk out of a bin -/

def Removes (h : Heap) (bin : Nat) (cs : List Nat) (p : Nat) (result : Option Heap) : Prop :=
  ∃ h' cs', result = some h' ∧ IsLargeBin h' bin cs' ∧ (p :: cs').Perm cs ∧ h'.head = h.head

theorem IsLargeBin.ring_at (holds : IsLargeBin h bin (xs ++ p :: ys))
    : Ring h.fd h.bk (p :: (ys ++ bin :: xs)) := by
  rw [← cons_append, ring_append_comm]
  exact holds.ring

theorem IsLargeBin.removes (holds : IsLargeBin h bin (xs ++ p :: ys))
    (skip : SkipList f g h.head (xs ++ ys)) (header : f bin ≠ 0)
    : Removes h bin (xs ++ p :: ys) p (some { h with
        bk := update h.bk (h.fd p) (h.bk p)
        fd := update h.fd (h.bk p) (h.fd p)
        fdNextsize := f
        bkNextsize := g }) := by
  have sub : (xs ++ ys).Sublist (xs ++ p :: ys) := (sublist_cons_self p ys).append_left xs
  have distinct : (p :: (ys ++ bin :: xs)).Nodup := by
    have all := perm_append_comm.nodup_iff.mp (show ((bin :: xs) ++ p :: ys).Nodup from holds.nodup)
    exact all
  refine ⟨_, xs ++ ys, rfl, ⟨holds.nodup.sublist (sub.cons_cons bin), fun c member =>
    holds.nonnull c (sub.subset member), ?_, holds.sorted.sublist sub, fun c member => ?_, skip, header⟩,
    perm_middle.symm, rfl⟩
  · have erased := holds.ring_at.erase distinct (update_self (h.bk p) (h.fd p) h.fd)
      (update_self (h.fd p) (h.bk p) h.bk) (fun c _ other => update_of_ne other _ _)
      fun c _ other => update_of_ne other _ _
    rw [ring_append_comm] at erased
    exact erased
  · have free := holds.free c (sub.subset member)
    exact ⟨free.large, free.aligned, free.flags, free.foot⟩

/-- The first chunks of the sizes are those with links to other sizes. -/
theorem IsLargeBin.fdNextsize_eq_zero_iff {c : Nat} (holds : IsLargeBin h bin cs) (member : c ∈ cs)
    : h.fdNextsize c = 0 ↔ c ∉ firsts h.head none cs := by
  constructor
  · intro unlinked first
    obtain ⟨before, after, split⟩ := append_of_mem first
    have ring := holds.skip.ring
    rw [split, ring_append_comm] at ring
    have next := Links.next_mem ring
    rw [unlinked, mem_append, mem_singleton] at next
    have inBin : 0 ∈ firsts h.head none cs := by
      rw [split, mem_append, mem_cons]
      rcases next with other | same
      · exact (mem_append.mp other).elim (fun later => .inr (.inr later)) .inl
      · exact .inr (.inl same)
    exact holds.nonnull 0 (firsts_sublist.subset inBin) rfl
  · exact holds.skip.unlisted c member

/-- A chunk is the first one of its size if the chunk before it has another size. -/
theorem first_iff (nodup : (xs ++ p :: ys).Nodup)
    : p ∈ firsts key none (xs ++ p :: ys) ↔ lastKey key none xs ≠ some (key p) := by
  constructor
  · intro first same
    rw [firsts_append, firsts, if_pos same, ← firsts_append] at first
    exact (nodup_cons.mp (perm_middle.nodup_iff.mp nodup)).1 (firsts_sublist.subset first)
  · intro new
    rw [firsts_append_cons new]
    exact mem_append_right _ mem_cons_self

/-- The heap behind the first half of `unlink_chunk`. -/
def Heap.unlinked (h : Heap) (p : Nat) : Heap :=
  { h with
    bk := update h.bk (h.fd p) (h.bk p)
    fd := update h.fd (h.bk p) (h.fd p) }

/-- The only chunk of its size is taken out of both rings. -/
theorem unlinkNextsize_only (holds : IsLargeBin h bin (xs ++ p :: ys))
    (first : lastKey h.head none xs ≠ some (h.head p)) (only : ∀ y ∈ ys, h.head y ≠ h.head p)
    (linked : h.fdNextsize (h.fd p) ≠ 0)
    : Removes h bin (xs ++ p :: ys) p (unlinkNextsize (h.unlinked p) p (h.fd p)) := by
  have nodup := (nodup_cons.mp holds.nodup).2
  have old := @firsts_append_cons h.head none xs ys p first
  have ring := holds.skip.ring
  rw [old, ring_append_comm, cons_append] at ring
  have sorted := pairwise_append.mp holds.sorted
  have after : firsts h.head (some (h.head p)) ys = firsts h.head (lastKey h.head none xs) ys := by
    refine firsts_congr (fun y member same => only y member (Option.some.inj same).symm) ?_
    intro y member same
    rcases lastKey_mem same with none_ | ⟨x, earlier, equal⟩
    · cases none_
    · have above := sorted.2.2 x earlier p mem_cons_self
      have below := (pairwise_cons.mp sorted.2.1).1 y member
      exact only y member (Nat.le_antisymm below (equal ▸ above))
  have erased := holds.skip.erase nodup old (firsts_append.trans (by rw [after]))
  have header : update h.fdNextsize (h.bkNextsize p) (h.fdNextsize p) bin ≠ 0 := by
    have member := ring.prev_mem
    rw [← cons_append, mem_append, or_comm, ← mem_append, ← old] at member
    rw [update_of_ne]
    · exact holds.header
    · rintro rfl
      exact (nodup_cons.mp holds.nodup).1 (firsts_sublist.subset member)
  have stays : update h.bkNextsize (h.fdNextsize p) (h.bkNextsize p) p = h.bkNextsize p := by
    by_cases self : p = h.fdNextsize p
    · rw [← self, update_self]
    · exact update_of_ne self _ _
  unfold unlinkNextsize Heap.unlinked
  simp only [ring.prev_next, ring.next_prev, not_true_eq_false, or_self, if_false, ne_eq, if_neg linked,
    Heap.setFdNextsize, Heap.setBkNextsize, stays]
  exact holds.removes erased header

/-- The next chunk has the same size and takes the place of the first one. -/
theorem unlinkNextsize_promotes (holds : IsLargeBin h bin (xs ++ p :: q :: ys))
    (first : lastKey h.head none xs ≠ some (h.head p)) (same : h.head q = h.head p)
    : Removes h bin (xs ++ p :: q :: ys) p (unlinkNextsize (h.unlinked p) p (h.fd p)) := by
  have nodup := (nodup_cons.mp holds.nodup).2
  have after : firsts h.head (some (h.head p)) (q :: ys) = firsts h.head (some (h.head q)) ys := by
    rw [firsts, if_pos (congrArg some same.symm), same]
  have old := @firsts_append_cons h.head none xs (q :: ys) p first
  have new := @firsts_append_cons h.head none xs ys q (same ▸ first)
  rw [after] at old
  have here : h.fd p = q := holds.ring_at.1.1
  have second : h.fdNextsize q = 0 := by
    refine (holds.fdNextsize_eq_zero_iff ?_).mpr fun member => ?_
    · exact mem_append_right _ (mem_cons_of_mem _ mem_cons_self)
    · rw [firsts_second same] at member
      have distinct : (q :: (xs ++ p :: ys)).Nodup := by
        rw [append_cons] at nodup ⊢
        exact perm_middle.nodup_iff.mp nodup
      exact (nodup_cons.mp distinct).1 (firsts_sublist.subset member)
  have notSelf : p ≠ q := by
    rintro rfl
    exact (nodup_cons.mp (nodup_append.mp nodup).2.1).1 mem_cons_self
  have notBin : ∀ {c}, c ∈ xs ++ p :: q :: ys → bin ≠ c := by
    rintro c member rfl
    exact (nodup_cons.mp holds.nodup).1 member
  have binQ : bin ≠ q := notBin (mem_append_right _ (mem_cons_of_mem _ mem_cons_self))
  have ring := holds.skip.ring
  rw [old, ring_append_comm, cons_append] at ring
  unfold unlinkNextsize Heap.unlinked
  simp only [ring.prev_next, ring.next_prev, not_true_eq_false, or_self, if_false, ne_eq, here, second,
    if_true, Heap.setFdNextsize, Heap.setBkNextsize]
  cases several : firsts h.head (some (h.head q)) ys ++ firsts h.head none xs with
  | nil =>
    -- the ring collapses to the next chunk
    rw [several] at ring
    obtain ⟨none_, empty⟩ := append_eq_nil_iff.mp several
    rw [empty, none_] at old new
    rw [if_pos ring.1]
    have removed := holds.removes (holds.skip.promote_single nodup old new)
      (by rw [update_of_ne binQ]; exact holds.header)
    rwa [here] at removed
  | cons r zs =>
    rw [several] at ring
    have next : h.fdNextsize p = r := ring.1.1
    have distinct : (p :: r :: zs).Nodup := by
      have sub : (firsts h.head none xs ++ p :: firsts h.head (some (h.head q)) ys).Nodup :=
        old ▸ nodup.sublist firsts_sublist
      rw [← several]
      exact (perm_append_comm.nodup_iff).mp sub
    have notOnly : h.fdNextsize p ≠ p := by
      rw [next]
      rintro rfl
      exact (nodup_cons.mp distinct).1 mem_cons_self
    have member := ring.prev_mem
    rw [← several, ← cons_append, mem_append, or_comm, ← mem_append, ← old] at member
    have binLast := notBin (firsts_sublist.subset member)
    have removed := holds.removes (holds.skip.promote nodup old new several)
      (by rw [update_of_ne binLast, update_of_ne binQ]; exact holds.header)
    rw [here] at removed
    simp only [if_neg notOnly, update_of_ne notSelf, update_of_ne (Ne.symm notOnly)]
    exact removed

/-- `unlink_chunk` takes a chunk out of a large bin. -/
theorem unlinkChunk_removes (holds : IsLargeBin h bin cs) (member : p ∈ cs)
    : Removes h bin cs p (unlinkChunk h p) := by
  obtain ⟨xs, ys, rfl⟩ := append_of_mem member
  have free := holds.free p member
  have nodup := (nodup_cons.mp holds.nodup).2
  have ring := holds.ring_at
  unfold unlinkChunk
  simp only [free.foot, ne_eq, not_true_eq_false, if_false, ring.prev_next, ring.next_prev, or_self]
  by_cases unlinked : h.fdNextsize p = 0
  · -- the first chunk of the size stays
    rw [if_neg fun linked => linked.2 unlinked]
    have notFirst := (holds.fdNextsize_eq_zero_iff member).mp unlinked
    rw [first_iff nodup, not_not] at notFirst
    refine holds.removes (holds.skip.erase_second ?_) holds.header
    rw [firsts_append, firsts_append, firsts, if_pos notFirst]
  · rw [if_pos ⟨free.notSmall, unlinked⟩]
    rw [holds.fdNextsize_eq_zero_iff member, not_not, first_iff nodup] at unlinked
    cases ys with
    | nil =>
      have here : h.fd p = bin := ring.1.1
      exact unlinkNextsize_only holds unlinked (fun _ later => by cases later) (here ▸ holds.header)
    | cons q ys =>
      by_cases same : h.head q = h.head p
      · exact unlinkNextsize_promotes holds unlinked same
      · have here : h.fd p = q := ring.1.1
        have sorted := (pairwise_append.mp holds.sorted).2.1
        have below := (pairwise_cons.mp sorted).1
        have smaller := Nat.lt_of_le_of_ne (below q mem_cons_self) same
        have only : ∀ y ∈ q :: ys, h.head y ≠ h.head p := by
          intro y later
          rcases mem_cons.mp later with rfl | later
          · exact same
          · have next := (pairwise_cons.mp (pairwise_cons.mp sorted).2).1 y later
            exact (Nat.lt_of_le_of_lt next smaller).ne
        have memberQ : q ∈ xs ++ p :: q :: ys :=
          mem_append_right _ (mem_cons_of_mem _ mem_cons_self)
        refine unlinkNextsize_only holds unlinked only ?_
        rw [here, ne_eq, holds.fdNextsize_eq_zero_iff memberQ, not_not]
        have old := @firsts_append_cons h.head none xs (q :: ys) p unlinked
        rw [old, firsts, if_neg fun equal => same (Option.some.inj equal).symm]
        exact mem_append_right _ (mem_cons_of_mem _ mem_cons_self)

/-! The bins -/

structure LargeBin where
  heap : Heap
  bin : Nat
  chunks : List Nat
  holds : IsLargeBin heap bin chunks

/-- Insertions and removals give such a bin again, with the one chunk more or less. No check for
corruption and no assertion fails.
-/
theorem largeBin_kept (bin : LargeBin)
    : (∀ victim, Unsorted bin.heap bin.bin bin.chunks victim → ∀ fuel, bin.chunks.length < fuel →
        Inserts bin.heap bin.bin bin.chunks victim (insertLargeChunk fuel bin.heap bin.bin victim))
      ∧ ∀ p ∈ bin.chunks, Removes bin.heap bin.bin bin.chunks p (unlinkChunk bin.heap p) :=
  ⟨fun _ new _ enough => insertLargeChunk_inserts bin.holds new enough,
    fun _ member => unlinkChunk_removes bin.holds member⟩

/-- Two chunks of one size, at 112 and 2112, with the header of their bin at 64. -/
def pairHeap : Heap where
  head _ := 1041
  foot _ := 1040
  fd p := if p = 64 then 112 else if p = 112 then 2112 else 64
  bk p := if p = 64 then 2112 else if p = 112 then 64 else 112
  fdNextsize p := if p = 64 then 80 else if p = 112 then 112 else 0
  bkNextsize p := if p = 64 then 80 else if p = 112 then 112 else 0
  marked := true

theorem pairHeap_free (c : Nat) : FreeLarge pairHeap c where
  large := (by decide : minLargeSize ≤ chunksize 1041)
  aligned := (by decide : 16 ∣ chunksize 1041)
  flags := (by decide : chunksize 1041 ||| prevInuse = 1041)
  foot := (by decide : chunksize 1041 = 1040)

def pairBin : LargeBin where
  heap := pairHeap
  bin := 64
  chunks := [112, 2112]
  holds :=
    { nodup := by decide
      nonnull := by decide
      ring := ⟨⟨rfl, rfl⟩, ⟨rfl, rfl⟩, rfl, rfl⟩
      sorted := by decide
      free := fun c _ => pairHeap_free c
      skip := ⟨⟨rfl, rfl⟩, by decide⟩
      header := by decide }

/-- A third chunk of the size is inserted, and the first chunk of the size is removed. -/
theorem largeBin_kept_pair
    : Inserts pairHeap 64 [112, 2112] 4112 (insertLargeChunk 3 pairHeap 64 4112)
      ∧ Removes pairHeap 64 [112, 2112] 112 (unlinkChunk pairHeap 112) := by
  have new : Unsorted pairHeap 64 [112, 2112] 4112 :=
    ⟨by decide, by decide, pairHeap_free 4112, rfl⟩
  exact ⟨(largeBin_kept pairBin).1 4112 new 3 (by decide), (largeBin_kept pairBin).2 112 mem_cons_self⟩

end Nglibc.Malloc
