import Nglibc.Elf.FindObject

/-! What `_dl_find_object_init` records of the objects that are loaded at the start, and where the
fast search then agrees with the slow one.
-/

namespace Nglibc.FindObject

open List

/-- The link maps at the start: the main program, what follows it in its namespace, and the other
namespaces.
-/
structure Program where
  main : LinkMap
  base : List LinkMap
  others : List (List LinkMap)

def Program.namespaces (p : Program) : List (List LinkMap) := (p.main :: p.base) :: p.others

def Program.all (p : Program) : List LinkMap := p.namespaces.flatten

def Program.mainPieces (p : Program) : List Mapping :=
  if p.main.contiguous then []
  else
    (p.main.phdr.filter (·.type = .load)).map fun ph =>
      { fromMap p.main with
        mapStart := (ph.vaddr + p.main.addr) % 2 ^ 64
        mapEnd := ((ph.vaddr + p.main.addr) % 2 ^ 64 + ph.memsz) % 2 ^ 64 }

def Program.Other (p : Program) (l : LinkMap) : Prop := l.pointer ≠ p.main.pointer ∧ l.real = true

def LinkMap.Nodelete (l : LinkMap) : Prop := l.type = .library ∨ l.nodeleteActive = true

instance (p : Program) (l : LinkMap) : Decidable (p.Other l) := inferInstanceAs (Decidable (_ ∧ _))

instance (l : LinkMap) : Decidable l.Nodelete := inferInstanceAs (Decidable (_ ∨ _))

def Program.nodelete (p : Program) : List LinkMap := p.all.filter fun l => p.Other l ∧ l.Nodelete

def Program.loaded (p : Program) : List LinkMap :=
  p.all.filter fun l => p.Other l ∧ ¬ l.Nodelete ∧ l.type = .loaded

/-- `_dlfo_process_initial`: the arrays that the second pass fills and whose lengths the first one
counts.
-/
def processInitial (p : Program) : List Mapping × List Mapping :=
  (p.mainPieces ++ p.nodelete.map fromMap, p.loaded.map fromMap)

/-- `_dlfo_mappings_segment_allocate_unpadded`, with what the memory holds. -/
def allocateUnpadded (size : Nat) (contents : Nat → Mapping) : Segment where
  allocated := if size < 63 then 63 else size
  size := 0
  objects := contents

def storeAll (os : List Mapping) (objects : Nat → Mapping) : Nat → Mapping :=
  fun i => os[i]?.getD (objects i)

def Segment.used (seg : Segment) : List Mapping := (List.range seg.size).map seg.objects

/-- `_dlfo_sort_mappings`. -/
def sortMappings (os : List Mapping) : List Mapping := SelectionSort.sort Mapping.mapStart os

/-- `_dl_find_object_init`, when memory can be allocated. -/
def init (p : Program) (contents : Nat → Mapping) : Data :=
  let (nodelete, loaded) := processInitial p
  let nodelete := sortMappings nodelete
  { main :=
      if p.main.contiguous then fromMap p.main
      else { unused with mapStart := 2 ^ 64 - 1, mapEnd := 2 ^ 64 - 1 }
    nodelete
    nodeleteEnd := (nodelete.getLast?.map (·.mapEnd)).getD 0
    version := 0
    chains := fun index =>
      if index ∨ loaded = [] then []
      else
        let seg := allocateUnpadded loaded.length contents
        let seg := { seg with objects := storeAll loaded seg.objects }
        [{ seg with objects := storeAll (sortMappings seg.used) seg.objects }] }

/-- The objects at the start: contiguous ranges that do not overlap, where proxies have none, and
every object but the main program is a library or can be unloaded.
-/
structure Program.WellFormed (p : Program) : Prop where
  contiguous : ∀ l ∈ p.all, l.contiguous = true
  nonempty : ∀ l ∈ p.all, l.real = true → l.mapStart < l.mapEnd
  proxy : ∀ l ∈ p.all, l.real = false → l.mapEnd = 0
  main : p.main.real = true
  disjoint : p.all.Pairwise fun k l => ∀ pc, k.Covers pc → ¬ l.Covers pc
  pointers : p.all.Pairwise fun k l => k.pointer ≠ l.pointer
  kinds : ∀ l ∈ p.all, p.Other l → l.Nodelete ∨ l.type = .loaded
  ns : ∀ (n : Nat) (maps : List LinkMap), p.namespaces[n]? = some maps → ∀ l ∈ maps, l.ns = n

variable {p : Program} {pc : Nat}

/-- The slow search along namespaces finds the first object that covers `pc`. -/
theorem findSlow_eq (namespaces : List (List LinkMap)) (n : Nat)
    (contiguous : ∀ l ∈ namespaces.flatten, l.contiguous = true)
    (ns : ∀ (i : Nat) (maps : List LinkMap), namespaces[i]? = some maps → ∀ l ∈ maps, l.ns = n + i)
    : findSlow pc n namespaces = some (
      match namespaces.flatten.find? fun l => decide (l.Covers pc) with
      | some l => (1, some (toExternal (fromMap l)))
      | none => (-1, none)) := by
  induction namespaces generalizing n with
  | nil => rfl
  | cons maps rest ih =>
    have same : (maps.find? fun l => decide (l.Covers pc) && (l.contiguous || insideObject l pc))
        = maps.find? fun l => decide (l.Covers pc) := by
      apply find?_congr
      intro l mem
      simp [contiguous l (by simp [mem])]
    rw [findSlow, same, flatten_cons, find?_append]
    cases found : maps.find? fun l => decide (l.Covers pc) with
    | some l =>
      have home : n = l.ns := (ns 0 maps rfl l (mem_of_find?_eq_some found)).symm
      simp only [if_pos home, Option.some_or]
    | none =>
      apply ih
      · exact fun l mem => contiguous l (by simp [mem])
      · intro i maps' at' l mem
        rw [ns (i + 1) maps' (by simpa using at') l mem]
        omega

theorem Program.mem_main : p.main ∈ p.all := by simp [Program.all, Program.namespaces]

/-- No two objects cover the same address. -/
theorem Program.WellFormed.unique (wf : p.WellFormed) {k l : LinkMap} (memK : k ∈ p.all)
    (memL : l ∈ p.all) (coversK : k.Covers pc) (coversL : l.Covers pc)
    : k = l := by
  by_contra differ
  have symmetric : Std.Symm fun k l : LinkMap => ∀ pc, k.Covers pc → ¬ l.Covers pc :=
    ⟨fun _ _ apart pc inL inK => apart pc inK inL⟩
  exact wf.disjoint.forall memK memL differ pc coversK coversL

variable {l : LinkMap}

section

variable (wf : p.WellFormed)
include wf

theorem Program.WellFormed.slow (mem : l ∈ p.all) (covers : l.Covers pc)
    : findSlow pc 0 p.namespaces = some (1, some (toExternal (fromMap l))) := by
  have found : (p.all.find? fun l => decide (l.Covers pc)) = some l := by
    cases search : p.all.find? fun l => decide (l.Covers pc) with
    | none => exact absurd covers (by simpa using find?_eq_none.mp search l mem)
    | some k =>
      have coversK : k.Covers pc := by simpa using find?_some search
      rw [wf.unique (mem_of_find?_eq_some search) mem coversK covers]
  rw [findSlow_eq p.namespaces 0 wf.contiguous (by simpa using wf.ns)]
  exact congrArg (fun found : Option LinkMap => some (match found with
    | some l => ((1 : Int), some (toExternal (fromMap l)))
    | none => (-1, none))) found

theorem Program.WellFormed.slow_none (outside : ∀ l ∈ p.all, ¬ l.Covers pc)
    : findSlow pc 0 p.namespaces = some (-1, none) := by
  have missing : (p.all.find? fun l => decide (l.Covers pc)) = none := by
    apply find?_eq_none.mpr
    simpa using outside
  rw [findSlow_eq p.namespaces 0 wf.contiguous (by simpa using wf.ns)]
  exact congrArg (fun found : Option LinkMap => some (match found with
    | some l => ((1 : Int), some (toExternal (fromMap l)))
    | none => (-1, none))) missing

theorem Program.WellFormed.sorted_perm (contents : Nat → Mapping)
    : (init p contents).nodelete.Perm (p.nodelete.map fromMap) := by
  have none : p.mainPieces = [] := if_pos (wf.contiguous p.main p.mem_main)
  have array : (init p contents).nodelete
      = sortMappings (p.mainPieces ++ p.nodelete.map fromMap) := rfl
  rw [array, none]
  exact SelectionSort.sort_perm _

/-- An element of the array stands for an object. -/
theorem Program.WellFormed.of_mem_sorted {contents : Nat → Mapping} {o : Mapping}
    (mem : o ∈ (init p contents).nodelete)
    : ∃ l ∈ p.all, o = fromMap l ∧ p.Other l ∧ l.Nodelete := by
  obtain ⟨l, memL, rfl⟩ := mem_map.mp ((wf.sorted_perm contents).subset mem)
  obtain ⟨inside, kind⟩ := mem_filter.mp memL
  exact ⟨l, inside, rfl, by simpa using kind⟩

/-- Disjoint ranges in the order of their starts follow each other. -/
theorem Program.WellFormed.sorted (contents : Nat → Mapping)
    : (init p contents).nodelete.Pairwise fun a b =>
        a.mapEnd ≤ b.mapStart ∧ a.mapStart < b.mapStart := by
  have byStart : (init p contents).nodelete.Pairwise fun a b => a.mapStart ≤ b.mapStart :=
    SelectionSort.sort_sorted _
  have distinct : (init p contents).nodelete.Pairwise fun a b => ∀ pc, a.Covers pc → ¬ b.Covers pc := by
    have symmetric : ∀ {a b : Mapping}, (∀ pc, a.Covers pc → ¬ b.Covers pc) →
        ∀ pc, b.Covers pc → ¬ a.Covers pc := fun apart pc inB inA => apart pc inA inB
    refine ((wf.sorted_perm contents).pairwise_iff symmetric).mpr ?_
    rw [pairwise_map]
    exact wf.disjoint.sublist filter_sublist
  refine (byStart.and distinct).imp_of_mem ?_
  rintro a b memA memB ⟨le, apart⟩
  obtain ⟨k, memK, rfl, otherK, -⟩ := wf.of_mem_sorted memA
  obtain ⟨l, memL, rfl, otherL, -⟩ := wf.of_mem_sorted memB
  have nonemptyL := wf.nonempty l memL otherL.2
  have nonemptyK := wf.nonempty k memK otherK.2
  have notCovered : ¬ k.Covers l.mapStart :=
    fun covers => apart l.mapStart covers ⟨le_rfl, nonemptyL⟩
  have ends : k.mapEnd ≤ l.mapStart := by
    by_contra above
    exact notCovered ⟨le, Nat.lt_of_not_le above⟩
  exact ⟨ends, Nat.lt_of_lt_of_le nonemptyK ends⟩

end

theorem ordered_of_pairwise {os : List Mapping}
    (sorted : os.Pairwise fun a b => a.mapEnd ≤ b.mapStart ∧ a.mapStart < b.mapStart)
    : Ordered (fun i => os.getD i unused) os.length := by
  intro i j less bound
  have atI : os.getD i unused = os[i] := getD_eq_getElem _ _ (less.trans bound)
  have atJ : os.getD j unused = os[j] := getD_eq_getElem _ _ bound
  simp only [atI, atJ]
  exact pairwise_iff_getElem.mp sorted i j (less.trans bound) bound less

/-- The fast search finds the objects that cannot be unloaded. -/
theorem Program.WellFormed.findNodelete (wf : p.WellFormed) (contents : Nat → Mapping)
    {o : Mapping} (mem : o ∈ (init p contents).nodelete) (covers : o.Covers pc)
    : (init p contents).findNodelete pc = some o := by
  have sorted := wf.sorted contents
  have nonempty : ∀ o ∈ (init p contents).nodelete, o.mapStart < o.mapEnd := by
    intro o mem
    obtain ⟨l, inside, rfl, other, -⟩ := wf.of_mem_sorted mem
    exact wf.nonempty l inside other.2
  have last : (init p contents).nodeleteEnd
      = ((init p contents).nodelete.getLast?.map (·.mapEnd)).getD 0 := rfl
  rw [Data.findNodelete]
  generalize (init p contents).nodelete = os at mem sorted nonempty last
  cases os with
  | nil => cases mem
  | cons first rest =>
    have ordered := ordered_of_pairwise sorted
    obtain ⟨i, bound, at'⟩ := mem_iff_getElem.mp mem
    have element : (first :: rest).getD i unused = o := (getD_eq_getElem _ _ bound).trans at'
    have below : first.mapStart ≤ pc := by
      rcases mem_cons.mp mem with rfl | later
      · exact covers.1
      · have := ((pairwise_cons.mp sorted).1 o later).2
        have := covers.1
        omega
    have above : pc < (init p contents).nodeleteEnd := by
      have final : (init p contents).nodeleteEnd = ((first :: rest).getLast (cons_ne_nil first rest)).mapEnd := by
        rw [last]
        rfl
      rw [final, getLast_eq_getElem]
      have stop := covers.2
      rcases Nat.lt_or_ge i ((first :: rest).length - 1) with earlier | atEnd
      · have next := pairwise_iff_getElem.mp sorted i ((first :: rest).length - 1) bound
          (by simp) earlier
        rw [at'] at next
        have longer := nonempty ((first :: rest)[(first :: rest).length - 1]) (getElem_mem _)
        omega
      · have same : i = (first :: rest).length - 1 := by omega
        subst same
        rwa [at']
    simp only
    have position : lookup pc (fun i => (first :: rest).getD i unused) (rest.length + 1) = some i :=
      lookup_complete ordered bound (element.symm ▸ covers)
    rw [if_pos ⟨below, above⟩, position]
    exact congrArg some element

section

variable (wf : p.WellFormed) (contents : Nat → Mapping)
include wf

/-- An object that covers an address is the main program, cannot be unloaded, or can. -/
theorem Program.WellFormed.cases (mem : l ∈ p.all) (covers : l.Covers pc)
    : l = p.main ∨ (l ∈ p.nodelete ∧ l ∉ p.loaded) ∨ l ∈ p.loaded := by
  by_cases isMain : l.pointer = p.main.pointer
  · left
    by_contra differ
    have symmetric : Std.Symm fun k l : LinkMap => k.pointer ≠ l.pointer := ⟨fun _ _ => Ne.symm⟩
    exact wf.pointers.forall mem p.mem_main differ isMain
  · right
    have real : l.real = true := by
      by_contra proxy
      have := wf.proxy l mem (by simpa using proxy)
      have := covers.2
      omega
    have other : p.Other l := ⟨isMain, real⟩
    by_cases nodelete : l.Nodelete
    · left
      simp [Program.nodelete, Program.loaded, mem, other, nodelete]
    · right
      have loaded := (wf.kinds l mem other).resolve_left nodelete
      simp [Program.loaded, mem, other, nodelete, loaded]

theorem Program.WellFormed.main_eq : (init p contents).main = fromMap p.main :=
  if_pos (wf.contiguous p.main p.mem_main)

theorem Program.WellFormed.initialized : (init p contents).main.mapEnd ≠ 0 := by
  have nonempty := wf.nonempty p.main p.mem_main wf.main
  rw [wf.main_eq]
  exact Nat.ne_of_gt (Nat.zero_lt_of_lt nonempty)

omit wf in
/-- The segment of the objects that can be unloaded stays empty. -/
theorem findLoaded_init : findLoaded pc (init p contents).active = none := by
  have active : (init p contents).active = (init p contents).chains false := rfl
  rw [active]
  simp only [init]
  split
  · rfl
  · exact if_pos rfl

/-- Outside of the main program the fast search finds the objects that cannot be unloaded, and no
others.
-/
theorem Program.WellFormed.find_eq (outsideMain : ¬ p.main.Covers pc)
    : find p.namespaces (init p contents) pc = some (
        match (init p contents).findNodelete pc with
        | some o => (0, some (toExternal o))
        | none => (-1, none)) := by
  have notMain : ¬ (init p contents).main.Covers pc := by rwa [wf.main_eq]
  rw [find, if_neg (wf.initialized contents), if_neg notMain]
  cases (init p contents).findNodelete pc with
  | some o => rfl
  | none => simp only [findLoaded_init]

theorem Program.WellFormed.find_main (covers : p.main.Covers pc)
    : find p.namespaces (init p contents) pc = some (0, some (toExternal (fromMap p.main))) := by
  have inMain : (init p contents).main.Covers pc := by rwa [wf.main_eq]
  rw [find, if_neg (wf.initialized contents), if_pos inMain, wf.main_eq]

theorem Program.WellFormed.find_nodelete (mem : l ∈ p.nodelete) (covers : l.Covers pc)
    : find p.namespaces (init p contents) pc = some (0, some (toExternal (fromMap l))) := by
  obtain ⟨inside, other⟩ := mem_filter.mp mem
  have other : p.Other l ∧ l.Nodelete := by simpa using other
  have outsideMain : ¬ p.main.Covers pc := by
    intro coversMain
    have same := wf.unique inside p.mem_main covers coversMain
    exact other.1.1 (congrArg LinkMap.pointer same)
  have found : (init p contents).findNodelete pc = some (fromMap l) :=
    wf.findNodelete contents ((wf.sorted_perm contents).symm.subset (mem_map_of_mem mem)) covers
  rw [wf.find_eq contents outsideMain, found]

/-- Where no object that the arrays hold covers the address, the fast search finds none. -/
theorem Program.WellFormed.find_none (outsideMain : ¬ p.main.Covers pc)
    (outside : ∀ l ∈ p.all, l.Covers pc → ¬ l.Nodelete)
    : find p.namespaces (init p contents) pc = some (-1, none) := by
  rw [wf.find_eq contents outsideMain]
  cases found : (init p contents).findNodelete pc with
  | none => rfl
  | some o =>
    obtain ⟨mem, covers⟩ := Data.findNodelete_covers found
    obtain ⟨l, inside, rfl, -, nodelete⟩ := wf.of_mem_sorted mem
    exact (outside l inside covers nodelete).elim

theorem Program.WellFormed.find_loaded (mem : l ∈ p.loaded) (covers : l.Covers pc)
    : find p.namespaces (init p contents) pc = some (-1, none) := by
  obtain ⟨inside, kind⟩ := mem_filter.mp mem
  have kind : p.Other l ∧ ¬ l.Nodelete ∧ l.type = .loaded := by simpa using kind
  apply wf.find_none contents
  · intro coversMain
    have same := wf.unique inside p.mem_main covers coversMain
    exact kind.1.1 (congrArg LinkMap.pointer same)
  · intro k memK coversK
    rw [wf.unique memK inside coversK covers]
    exact kind.2.1

end

/-- The two searches return the same exactly where no object covers the address, as the slow one has
another status for success. They store the same data exactly where no object that can be unloaded
covers it.
-/
theorem find_agrees_iff (p : Program) (wf : p.WellFormed) (contents : Nat → Mapping) (pc : Nat)
    : (find p.namespaces (init p contents) pc = findSlow pc 0 p.namespaces
        ↔ ∀ l ∈ p.all, ¬ l.Covers pc)
      ∧ ((find p.namespaces (init p contents) pc).map Prod.snd
          = (findSlow pc 0 p.namespaces).map Prod.snd
        ↔ ∀ l ∈ p.loaded, ¬ l.Covers pc) := by
  by_cases covered : ∃ l ∈ p.all, l.Covers pc
  · obtain ⟨l, mem, covers⟩ := covered
    have some : ¬ ∀ l ∈ p.all, ¬ l.Covers pc := fun outside => outside l mem covers
    have loadedIff : (∀ k ∈ p.loaded, ¬ k.Covers pc) ↔ l ∉ p.loaded := by
      constructor
      · exact fun outside loaded => outside l loaded covers
      · intro notLoaded k loaded coversK
        have same := wf.unique (mem_filter.mp loaded).1 mem coversK covers
        exact notLoaded (same ▸ loaded)
    rw [wf.slow mem covers, loadedIff]
    rcases wf.cases mem covers with rfl | ⟨nodelete, notLoaded⟩ | loaded
    · have notLoaded : p.main ∉ p.loaded := by simp [Program.loaded, Program.Other]
      rw [wf.find_main contents covers]
      simp [some, notLoaded]
    · rw [wf.find_nodelete contents nodelete covers]
      simp [some, notLoaded]
    · rw [wf.find_loaded contents loaded covers]
      simp [some, loaded]
  · have outside : ∀ l ∈ p.all, ¬ l.Covers pc := fun l mem covers => covered ⟨l, mem, covers⟩
    have outsideLoaded : ∀ l ∈ p.loaded, ¬ l.Covers pc :=
      fun l loaded => outside l (mem_filter.mp loaded).1
    rw [wf.slow_none outside, wf.find_none contents (outside p.main p.mem_main)
      (fun l mem covers => (outside l mem covers).elim)]
    exact ⟨⟨fun _ => outside, fun _ => rfl⟩, ⟨fun _ => outsideLoaded, fun _ => rfl⟩⟩

def audited : Program where
  main := ⟨1, 0, 4096, 8192, 0, [⟨.load, 4096, 4096⟩], true, true, .executable, false⟩
  base := []
  others := [[⟨2, 1, 16384, 20480, 16384, [⟨.load, 0, 4096⟩], true, true, .loaded, false⟩]]

theorem audited_wellFormed : audited.WellFormed where
  contiguous := by decide
  nonempty := by decide
  proxy := by decide
  main := rfl
  disjoint := by
    refine pairwise_pair.mpr fun pc inMain inModule => ?_
    have below : pc < 8192 := inMain.2
    have above : 16384 ≤ pc := inModule.1
    omega
  pointers := by decide
  kinds := by decide
  ns := by
    intro n maps at' l mem
    match n, at' with
    | 0, at' | 1, at' =>
      cases at'
      exact (mem_singleton.mp mem).symm ▸ rfl
    | _ + 2, at' => exact nomatch at'

theorem find_agrees_audited
    : (find audited.namespaces (init audited fun _ => unused) 0 = findSlow 0 0 audited.namespaces
        ↔ ∀ l ∈ audited.all, ¬ l.Covers 0)
      ∧ ((find audited.namespaces (init audited fun _ => unused) 0).map Prod.snd
          = (findSlow 0 0 audited.namespaces).map Prod.snd
        ↔ ∀ l ∈ audited.loaded, ¬ l.Covers 0) :=
  find_agrees_iff audited audited_wellFormed (fun _ => unused) 0

/-- In the audit module the slow search succeeds with status 1, and the fast one finds nothing. In
the main program both succeed, one with status 0.
-/
theorem find_disagrees
    : audited.WellFormed ∧ find audited.namespaces (init audited fun _ => unused) 16384
        ≠ findSlow 16384 0 audited.namespaces
      ∧ find audited.namespaces (init audited fun _ => unused) 4096
        ≠ findSlow 4096 0 audited.namespaces :=
  ⟨audited_wellFormed, by decide, by decide⟩

end Nglibc.FindObject
