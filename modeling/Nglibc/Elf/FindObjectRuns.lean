import Nglibc.Elf.FindObjectChain

/-! Any sequence of updates and closes: the search finds exactly the live objects, and no assertion
fails.
-/

namespace Nglibc.FindObject

open List

variable {live : List LinkMap} {chain : List Segment}

/-! An update -/

/-- The merge of two strictly descending lists without common starts descends strictly. -/
theorem merge_descending {xs ys : List Mapping}
    (first : xs.Pairwise fun a b => b.mapStart < a.mapStart)
    (second : ys.Pairwise fun a b => b.mapStart < a.mapStart)
    (differ : ∀ x ∈ xs, ∀ y ∈ ys, x.mapStart ≠ y.mapStart)
    : (xs.merge ys above).Pairwise fun a b => b.mapStart < a.mapStart := by
  induction xs generalizing ys with
  | nil => simpa using second
  | cons x xs ihx =>
    induction ys with
    | nil => simpa using first
    | cons y ys ihy =>
      obtain ⟨belowX, restX⟩ := pairwise_cons.mp first
      obtain ⟨belowY, restY⟩ := pairwise_cons.mp second
      have distinct := differ x mem_cons_self y mem_cons_self
      rw [cons_merge_cons]
      by_cases larger : y.mapStart < x.mapStart
      · rw [above, decide_eq_true larger]
        refine pairwise_cons.mpr ⟨?_, ihx restX second ?_⟩
        · intro z mem
          rcases mem_merge.mp mem with inX | inY
          · exact belowX z inX
          · rcases mem_cons.mp inY with rfl | inY
            · exact larger
            · exact (belowY z inY).trans larger
        · exact fun a memA => differ a (mem_cons_of_mem x memA)
      · have smaller : x.mapStart < y.mapStart := by omega
        rw [above, decide_eq_false larger]
        refine pairwise_cons.mpr ⟨?_, ihy restY ?_⟩
        · intro z mem
          rcases mem_merge.mp mem with inX | inY
          · rcases mem_cons.mp inX with rfl | inX
            · exact smaller
            · exact (belowX z inX).trans smaller
          · exact belowY z inY
        · exact fun a memA b memB => differ a memA b (mem_cons_of_mem y memB)

/-- A new segment has at least the size that is asked for, and the assertion holds. -/
theorem allocate_cases {size : Nat} (previous : List Segment) (memory : Memory)
    : (allocate size previous memory = some none ∧ memory.Fails)
      ∨ ∃ seg, allocate size previous memory = some (some seg) ∧ size ≤ seg.allocated := by
  have atLeast : size ≤ grownSize size previous := by
    cases previous <;> (simp only [grownSize]; split <;> omega)
  simp only [allocate]
  generalize grownSize size previous = wanted at atLeast
  cases missing : memory.segment (32 + wanted * 32 + 2 * 128) with
  | none => exact .inl ⟨rfl, .inr ⟨_, missing⟩⟩
  | some ptr =>
    have enough : wanted
        ≤ ((ptr + (32 + wanted * 32 + 2 * 128)) / 128 * 128 - (ptr + 127) / 128 * 128 - 32) / 32 := by
      omega
    simp only
    rw [if_pos enough]
    exact .inr ⟨_, rfl, atLeast.trans enough⟩

theorem Holds.streamFrom_eq (holds : Holds live chain)
    : streamFrom chain (firstIndex chain) = stream chain := by
  cases chain with
  | nil => rfl
  | cons seg previous =>
    rw [streamFrom, stream, firstIndex]
    split
    next empty =>
      obtain rfl := holds.single seg previous rfl empty
      simp [empty, stream]
    next => rfl

/-- A merge into a chain with enough space succeeds, and the chain then holds the merge. -/
theorem merge_spec {d : Data} (holds : Holds live d.active) {loaded : List LinkMap}
    {remaining : Nat} {target : List Segment}
    (count : remaining = countUsed d.active + loaded.length) (nonempty : 0 < remaining)
    (space : remaining ≤ countAllocated target) (positive : ∀ s ∈ target, 0 < s.allocated)
    : ∃ seg previous, d.merge loaded remaining target = some { d with
          chains := Function.update d.chains (!d.index) (seg :: previous)
          version := d.version + 1 }
        ∧ seg.size ≠ 0
        ∧ stream (seg :: previous)
          = (opened (stream d.active)).merge (loaded.reverse.map fromMap) above
        ∧ ∀ s ∈ seg :: previous, 0 < s.allocated := by
  cases target with
  | nil => exact absurd space (by simp [countAllocated]; omega)
  | cons seg previous =>
    have total : countAllocated (seg :: previous) = seg.allocated + countAllocated previous :=
      sum_cons
    have room : 0 < seg.allocated := positive seg mem_cons_self
    have size : 0 < (seg.initSize remaining).size ∧ (seg.initSize remaining).size ≤ remaining
        ∧ remaining ≤ (seg.initSize remaining).size + countAllocated previous := by
      simp only [Segment.initSize]
      split <;> omega
    have stream' := holds.streamFrom_eq
    have length : remaining = (merged d.active (firstIndex d.active) loaded.reverse).length := by
      rw [merged, stream', length_merge, length_map, length_reverse, ← countUsed_eq,
        count]
    obtain ⟨seg', previous', result, sizeEq, -, written, allocated⟩ :=
      mergeLoop_spec remaining d.active (firstIndex d.active) loaded.reverse
        (seg.initSize remaining) previous (seg.initSize remaining).size length size.2.1 size.2.2
        (fun s mem => positive s (mem_cons_of_mem seg mem))
    refine ⟨seg', previous', ?_, by omega, ?_, ?_⟩
    · simp only [Data.merge, result, Option.map_some]
    · rw [stream, if_neg (by omega), sizeEq, written, merged, stream']
    · intro s mem
      have inNew : s.allocated ∈ (seg.initSize remaining :: previous).map (·.allocated) :=
        allocated ▸ mem_map_of_mem mem
      obtain ⟨t, memT, same⟩ := mem_map.mp inNew
      rw [← same]
      rcases mem_cons.mp memT with rfl | inRest
      · exact room
      · exact positive t (mem_cons_of_mem seg inRest)

/-- The merge of the open elements with new objects holds all of them. -/
theorem Holds.merge (holds : Holds live chain) {new : List LinkMap}
    (separate : Separate (new ++ live)) {seg : Segment} {previous : List Segment}
    (size : seg.size ≠ 0)
    (streamEq : stream (seg :: previous) = (opened (stream chain)).merge
      ((SelectionSort.sort LinkMap.mapStart new).reverse.map fromMap) above)
    : Holds (new ++ live) (seg :: previous) := by
  have mem_iff : ∀ o, o ∈ stream (seg :: previous)
      ↔ o ∈ opened (stream chain) ∨ ∃ l ∈ new, o = fromMap l := by
    intro o
    rw [streamEq, mem_merge, mem_map]
    refine or_congr Iff.rfl ⟨?_, ?_⟩
    · rintro ⟨l, mem, rfl⟩
      exact ⟨l, (SelectionSort.sort_perm new).subset (mem_reverse.mp mem), rfl⟩
    · rintro ⟨l, mem, rfl⟩
      exact ⟨l, mem_reverse.mpr ((SelectionSort.sort_perm new).symm.subset mem), rfl⟩
  have ofOpened : ∀ o ∈ opened (stream chain), ∃ l ∈ live, o = fromMap l := by
    intro o mem
    obtain ⟨inside, isOpen⟩ := mem_filter.mp mem
    exact holds.isOpen o inside isOpen
  have ofMem : ∀ o ∈ stream (seg :: previous), ∃ l ∈ new ++ live, o = fromMap l := by
    intro o mem
    rcases (mem_iff o).mp mem with old | ⟨l, inNew, rfl⟩
    · obtain ⟨l, inLive, rfl⟩ := ofOpened o old
      exact ⟨l, mem_append_right new inLive, rfl⟩
    · exact ⟨l, mem_append_left live inNew, rfl⟩
  have nodup := separate.nodup
  have differ : ∀ k ∈ new, ∀ l ∈ live, k ≠ l := by
    rintro k inNew l inLive rfl
    exact (nodup_append.mp nodup).2.2 k inNew k inLive rfl
  have starts : (stream (seg :: previous)).Pairwise fun a b => b.mapStart < a.mapStart := by
    rw [streamEq]
    apply merge_descending
    · exact (holds.descending.imp fun order => order.2).sublist filter_sublist
    · rw [pairwise_map, pairwise_reverse]
      have distinct : (SelectionSort.sort LinkMap.mapStart new).Nodup :=
        (SelectionSort.sort_perm new).nodup_iff.mpr (nodup_append.mp nodup).1
      refine ((SelectionSort.sort_sorted new).and distinct).imp_of_mem ?_
      rintro k l memK memL ⟨le, ne⟩
      have inK := mem_append_left live ((SelectionSort.sort_perm new).subset memK)
      have inL := mem_append_left live ((SelectionSort.sort_perm new).subset memL)
      exact Nat.lt_of_le_of_ne le (separate.start_ne inK inL ne)
    · intro x memX y memY
      obtain ⟨k, inLive, rfl⟩ := ofOpened x memX
      obtain ⟨l, memL, rfl⟩ := mem_map.mp memY
      have inNew : l ∈ new := (SelectionSort.sort_perm new).subset (mem_reverse.mp memL)
      exact (separate.start_ne (mem_append_left live inNew)
        (mem_append_right new inLive) (differ l inNew k inLive)).symm
  constructor
  · refine starts.imp_of_mem ?_
    intro a b memA memB less
    obtain ⟨k, inK, rfl⟩ := ofMem a memA
    obtain ⟨l, inL, rfl⟩ := ofMem b memB
    exact ⟨separate.end_le inK inL less, less⟩
  · exact fun o mem _ => ofMem o mem
  · intro o mem isClosed
    obtain ⟨l, -, rfl⟩ := ofMem o mem
    exact nomatch isClosed
  · intro l mem
    rcases mem_append.mp mem with inNew | inLive
    · exact (mem_iff _).mpr (.inr ⟨l, inNew, rfl⟩)
    · exact (mem_iff _).mpr (.inl (mem_filter.mpr ⟨holds.complete l inLive, rfl⟩))
  · rintro s rest ⟨⟩ empty
    exact absurd empty size

/-! Runs -/

/-- The state before the first `dlopen`: nothing is in the chains but perhaps an empty segment. -/
structure Data.Start (d : Data) : Prop where
  initialized : d.main.mapEnd ≠ 0
  empty : ∀ seg previous, d.active = seg :: previous → seg.size = 0 ∧ previous = []
  positive : ∀ index, ∀ s ∈ d.chains index, 0 < s.allocated

/-- An address that no mapping from the start covers. -/
def Data.Outside (d : Data) (pc : Nat) : Prop :=
  ¬ d.main.Covers pc ∧ ∀ o ∈ d.nodelete, ¬ o.Covers pc

def newObjects (live maps : List LinkMap) : List LinkMap := maps.filter fun l => l.real ∧ l ∉ live

/-- The runs from a start, with the live objects: an update adds objects with addresses of their own
unless it fails, and a live object is closed.
-/
inductive Reachable (d₀ : Data) : World → List LinkMap → Prop
  | start : Reachable d₀ ⟨d₀, []⟩ []
  | update {w w' : World} {live maps : List LinkMap} {memory : Memory} {ok : Bool}
      (before : Reachable d₀ w live) (separate : Separate (newObjects live maps ++ live))
      (updated : w.update maps memory = some (ok, w')) :
      Reachable d₀ w' (if ok then newObjects live maps ++ live else live)
  | dlclose {w : World} {live : List LinkMap} {l : LinkMap}
      (before : Reachable d₀ w live) (mem : l ∈ live) :
      Reachable d₀ (w.dlclose l) (live.erase l)

structure Invariant (d₀ : Data) (w : World) (live : List LinkMap) : Prop where
  main : w.data.main = d₀.main
  nodelete : w.data.nodelete = d₀.nodelete
  processed : w.processed = live
  separate : Separate live
  holds : Holds live w.data.active
  positive : ∀ index, ∀ s ∈ w.data.chains index, 0 < s.allocated

variable {d₀ : Data} {w : World}

theorem Invariant.start (start : d₀.Start) : Invariant d₀ ⟨d₀, []⟩ [] := by
  have nothing : stream d₀.active = [] := by
    cases shape : d₀.active with
    | nil => rfl
    | cons seg previous => rw [stream, if_pos (start.empty seg previous shape).1]
  refine ⟨rfl, rfl, rfl, ⟨fun _ mem => (not_mem_nil mem).elim, .nil⟩, ?_, start.positive⟩
  constructor
  · rw [nothing]
    exact .nil
  · simp [nothing]
  · simp [nothing]
  · intro _ mem
    cases mem
  · exact fun seg previous shape _ => (start.empty seg previous shape).2

theorem active_next (d : Data) (chain : List Segment)
    : Data.active { d with
        chains := Function.update d.chains (!d.index) chain
        version := d.version + 1 } = chain := by
  have other : Data.index { d with
      chains := Function.update d.chains (!d.index) chain
      version := d.version + 1 } = !d.index := by
    rcases Nat.mod_two_eq_zero_or_one d.version with even | odd
    · simp [Data.index, even, Nat.add_mod]
    · simp [Data.index, odd, Nat.add_mod]
  rw [Data.active, other]
  exact Function.update_self _ _ _

/-- The chains of a world after one of them is replaced. -/
theorem update_positive {chains : Bool → List Segment} {index : Bool} {chain : List Segment}
    (positive : ∀ index, ∀ s ∈ chains index, 0 < s.allocated)
    (new : ∀ s ∈ chain, 0 < s.allocated)
    : ∀ i, ∀ s ∈ Function.update chains index chain i, 0 < s.allocated := by
  intro i
  by_cases same : i = index
  · rw [same, Function.update_self]
    exact new
  · rw [Function.update_of_ne same]
    exact positive i

section

variable (invariant : Invariant d₀ w live)
include invariant

/-- An update of objects with addresses of their own fails and changes nothing, or it adds them. -/
theorem Invariant.update1 {new : List LinkMap} (some' : new ≠ []) (separate : Separate (new ++ live))
    (memory : Memory)
    : (w.data.update1 (SelectionSort.sort LinkMap.mapStart new) memory = some (false, w.data)
        ∧ memory.Fails)
      ∨ ∃ d, w.data.update1 (SelectionSort.sort LinkMap.mapStart new) memory = some (true, d)
        ∧ Invariant d₀ ⟨d, new ++ live⟩ (new ++ live) := by
  have length : (SelectionSort.sort LinkMap.mapStart new).length = new.length :=
    (SelectionSort.sort_perm new).length_eq
  have notEmpty : 0 < new.length := length_pos_iff.mpr some'
  have added : ∀ target : List Segment,
      countUsed w.data.active + (SelectionSort.sort LinkMap.mapStart new).length
        ≤ countAllocated target →
      (∀ s ∈ target, 0 < s.allocated) →
      ∃ d, (w.data.merge (SelectionSort.sort LinkMap.mapStart new)
          (countUsed w.data.active + (SelectionSort.sort LinkMap.mapStart new).length)
          target).map (true, ·) = some (true, d)
        ∧ Invariant d₀ ⟨d, new ++ live⟩ (new ++ live) := by
    intro target space positive
    obtain ⟨seg, previous, result, size, streamEq, allocated⟩ :=
      merge_spec invariant.holds rfl (by omega) space positive
    refine ⟨_, by rw [result, Option.map_some], ?_⟩
    exact {
      main := invariant.main
      nodelete := invariant.nodelete
      processed := rfl
      separate := separate
      holds := by
        rw [active_next]
        exact invariant.holds.merge separate size streamEq
      positive := update_positive invariant.positive allocated
    }
  rw [Data.update1]
  split
  next short =>
    rcases allocate_cases (w.data.chains (!w.data.index)) memory
      with ⟨failed, fails⟩ | ⟨seg, got, enough⟩
    · exact .inl ⟨by rw [failed], fails⟩
    · right
      simp only [got]
      have total : countAllocated (seg :: w.data.chains (!w.data.index))
          = seg.allocated + countAllocated (w.data.chains (!w.data.index)) := sum_cons
      apply added
      · omega
      · intro s mem
        rcases mem_cons.mp mem with rfl | inOld
        · omega
        · exact invariant.positive _ s inOld
  next long => exact .inr (added _ (Nat.le_of_not_lt long) (invariant.positive _))

/-- An update keeps the invariant, no assertion fails, and it changes nothing if memory is missing. -/
theorem Invariant.update {maps : List LinkMap} (separate : Separate (newObjects live maps ++ live))
    (memory : Memory)
    : ∃ ok w', w.update maps memory = some (ok, w')
      ∧ Invariant d₀ w' (if ok then newObjects live maps ++ live else live)
      ∧ (ok = false → w' = w ∧ memory.Fails) := by
  have new : w.unprocessed maps = newObjects live maps := by
    rw [World.unprocessed, invariant.processed, newObjects]
  rw [World.update, new]
  split
  next empty =>
    refine ⟨true, w, rfl, ?_, nofun⟩
    rw [empty]
    exact invariant
  next some' =>
    split
    next =>
      simp only
      rcases invariant.update1 some' separate memory with ⟨failed, fails⟩ | ⟨d, added, next⟩
      · exact ⟨false, w, by rw [failed]; rfl, invariant, fun _ => ⟨rfl, fails⟩⟩
      · refine ⟨true, ⟨d, newObjects live maps ++ live⟩, ?_, next, nofun⟩
        rw [added, ← invariant.processed]
        rfl
    next missing =>
      exact ⟨false, w, rfl, invariant, fun _ => ⟨rfl, .inl (Bool.not_eq_true _ ▸ missing)⟩⟩

theorem Invariant.dlclose {l : LinkMap} (mem : l ∈ live)
    : Invariant d₀ (w.dlclose l) (live.erase l) where
  main := invariant.main
  nodelete := invariant.nodelete
  processed := congrArg (·.erase l) invariant.processed
  separate := ⟨fun k inside => invariant.separate.nonempty k (mem_of_mem_erase inside),
    invariant.separate.disjoint.sublist erase_sublist⟩
  holds := by
    have active : (w.dlclose l).data.active = close l.mapStart w.data.active :=
      Function.update_self _ _ _
    rw [active]
    exact invariant.holds.close invariant.separate mem
  positive := by
    apply update_positive invariant.positive
    intro s inside
    have sizes := close_sizes l.mapStart w.data.active
    have image : (s.allocated, s.size)
        ∈ w.data.active.map fun seg => (seg.allocated, seg.size) :=
      sizes ▸ mem_map_of_mem inside
    obtain ⟨t, memT, same⟩ := mem_map.mp image
    have equal : t.allocated = s.allocated := congrArg Prod.fst same
    exact equal ▸ invariant.positive _ t memT

end

/-- Every run keeps the invariant, by induction on the run. -/
theorem Reachable.invariant (start : d₀.Start) (reachable : Reachable d₀ w live)
    : Invariant d₀ w live := by
  induction reachable with
  | start => exact .start start
  | @update w _ live maps memory _ _ separate updated ih =>
    obtain ⟨_, _, equal, next, -⟩ := ih.update separate memory
    obtain ⟨rfl, rfl⟩ := Prod.mk.inj (Option.some.inj (equal.symm.trans updated))
    exact next
  | dlclose _ mem ih => exact ih.dlclose mem

/-- Outside of the mappings from the start the search consults only the active chain. -/
theorem Invariant.find_eq (start : d₀.Start) (invariant : Invariant d₀ w live)
    (namespaces : List (List LinkMap)) {pc : Nat} (outside : d₀.Outside pc)
    : find namespaces w.data pc = some (
        match findLoaded pc w.data.active with
        | some o => (0, some (toExternal o))
        | none => (-1, none)) := by
  have initialized : w.data.main.mapEnd ≠ 0 := invariant.main ▸ start.initialized
  have notMain : ¬ w.data.main.Covers pc := invariant.main ▸ outside.1
  have notNodelete : w.data.findNodelete pc = none := by
    cases found : w.data.findNodelete pc with
    | none => rfl
    | some o =>
      obtain ⟨mem, covers⟩ := Data.findNodelete_covers found
      exact (outside.2 o (invariant.nodelete ▸ mem) covers).elim
  rw [find, if_neg initialized, if_neg notMain, notNodelete]
  cases findLoaded pc w.data.active <;> rfl

/-- After any run the search finds at every address outside of the mappings from the start the live
object that covers it, or nothing. An update fails no assertion. It fails only if memory is missing,
and changes no answer then.
-/
theorem find_refines (namespaces : List (List LinkMap)) (d₀ : Data) (start : d₀.Start) (w : World)
    (live : List LinkMap) (reachable : Reachable d₀ w live)
    : (∀ pc, d₀.Outside pc → (∀ l ∈ live, l.Covers pc →
          find namespaces w.data pc = some (0, some (toExternal (fromMap l))))
        ∧ ((∀ l ∈ live, ¬ l.Covers pc) → find namespaces w.data pc = some (-1, none)))
      ∧ ∀ maps memory, Separate (newObjects live maps ++ live) →
        ∃ ok w', w.update maps memory = some (ok, w') ∧ (ok = false → memory.Fails
            ∧ ∀ pc, find namespaces w'.data pc = find namespaces w.data pc) := by
  have invariant := reachable.invariant start
  refine ⟨fun pc outside => ⟨?_, ?_⟩, ?_⟩
  · intro l mem covers
    rw [invariant.find_eq start namespaces outside, invariant.holds.find_live mem covers]
  · intro none
    rw [invariant.find_eq start namespaces outside, invariant.holds.find_none none]
  · intro maps memory separate
    obtain ⟨ok, w', updated, -, failed⟩ := invariant.update separate memory
    refine ⟨ok, w', updated, fun isFailed => ?_⟩
    obtain ⟨same, fails⟩ := failed isFailed
    exact ⟨fails, fun pc => by rw [same]⟩

theorem Program.WellFormed.start {p : Program} (wf : p.WellFormed) (contents : Nat → Mapping)
    : (init p contents).Start where
  initialized := wf.initialized contents
  empty := by
    intro seg previous shape
    have shape : (init p contents).chains false = seg :: previous := shape
    simp only [init] at shape
    split at shape
    · cases shape
    · obtain ⟨rfl, rfl⟩ := List.cons.inj shape
      exact ⟨rfl, rfl⟩
  positive := by
    intro index s mem
    simp only [init] at mem
    split at mem
    · cases mem
    · obtain rfl := mem_singleton.mp mem
      simp only [allocateUnpadded]
      split <;> omega

def plugin : LinkMap := ⟨3, 0, 32768, 36864, 32768, [⟨.load, 0, 4096⟩], true, true, .loaded, false⟩

def codec : LinkMap := ⟨4, 0, 65536, 69632, 65536, [⟨.load, 0, 4096⟩], true, true, .loaded, false⟩

/-- The plugin is opened, then the codec, and the plugin is closed. -/
theorem find_refines_plugin
    : ∃ w, Reachable (init audited fun _ => unused) w [codec]
      ∧ find audited.namespaces w.data 65536 = some (0, some (toExternal (fromMap codec)))
      ∧ find audited.namespaces w.data 32768 = some (-1, none) := by
  have apart : Separate (newObjects [plugin] [codec, plugin] ++ [plugin]) := by
    refine ⟨by decide, pairwise_pair.mpr fun pc inCodec inPlugin => ?_⟩
    have low : codec.mapStart ≤ pc := inCodec.1
    have high : pc < plugin.mapEnd := inPlugin.2
    exact absurd (low.trans_lt high) (by decide)
  have single : Separate (newObjects [] [plugin] ++ []) := ⟨by decide, pairwise_singleton _ _⟩
  obtain ⟨w₁, opened⟩ : ∃ w, World.update ⟨init audited fun _ => unused, []⟩ [plugin]
      ⟨true, fun _ => some 65536, fun _ => unused⟩ = some (true, w) := ⟨_, rfl⟩
  obtain ⟨w₂, openedAgain⟩ : ∃ w, w₁.update [codec, plugin]
      ⟨true, fun _ => some 65536, fun _ => unused⟩ = some (true, w) := by
    cases opened
    exact ⟨_, rfl⟩
  have reachable : Reachable (init audited fun _ => unused) (w₂.dlclose plugin) [codec] :=
    .dlclose (.update (.update .start single opened) apart openedAgain) (by decide)
  have refines := find_refines audited.namespaces (init audited fun _ => unused)
    (audited_wellFormed.start _) _ [codec] reachable
  refine ⟨_, reachable, (refines.1 65536 ⟨by decide, nofun⟩).1 codec (mem_singleton_self _)
    (by decide), (refines.1 32768 ⟨by decide, nofun⟩).2 ?_⟩
  exact forall_mem_singleton.mpr (by decide)

end Nglibc.FindObject
