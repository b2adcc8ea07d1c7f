import Mathlib.Data.List.TakeWhile
import Mathlib.Tactic

/-! Resolution of path names in a tree of directories, files and symbolic links. -/

namespace Nglibc.Paths

open List

structure CString where
  bytes : List UInt8
  noNul : 0 ∉ bytes
deriving DecidableEq

inductive Errno where
  | ENOENT
  | ENOTDIR
  | EINVAL
  | ELOOP
  | ENAMETOOLONG
deriving DecidableEq

inductive Node where
  | dir (entries : List (List UInt8 × Node))
  | file
  | link (target : CString)

def Node.IsLink : Node → Prop
  | .link _ => True
  | _ => False

def slash : UInt8 := 47

def dot : List UInt8 := [46]

def dotDot : List UInt8 := [46, 46]

structure ValidName (name : List UInt8) : Prop where
  nonempty : name ≠ []
  noSlash : slash ∉ name
  notDot : name ≠ dot
  notDotDot : name ≠ dotDot

def skipSlashes (text : List UInt8) : List UInt8 := text.dropWhile (· = slash)

def component (text : List UInt8) : List UInt8 := text.takeWhile (· ≠ slash)

def afterComponent (text : List UInt8) : List UInt8 := text.dropWhile (· ≠ slash)

variable {root : Node} {path : List (List UInt8)} {text : List UInt8} {rest : List UInt8}

theorem skipSlashes_head {c : UInt8} (body : skipSlashes text = c :: rest)
    : c ≠ slash := by
  unfold skipSlashes at body
  have nonempty : text.dropWhile (fun c => decide (c = slash)) ≠ [] := by
    rw [body]
    exact cons_ne_nil _ _
  have head := head_dropWhile_not _ nonempty
  simp only [body, head_cons, decide_eq_false_iff_not] at head
  exact head

theorem afterComponent_length {c : UInt8} (body : skipSlashes text = c :: rest)
    : (afterComponent (c :: rest)).length < text.length := by
  have noSlash := skipSlashes_head body
  have shorter : (c :: rest).length ≤ text.length := by
    rw [← body]
    exact (dropWhile_suffix _).length_le
  have after : (afterComponent (c :: rest)).length ≤ rest.length := by
    unfold afterComponent
    rw [dropWhile_cons_of_pos (by simpa using noSlash)]
    exact (dropWhile_suffix _).length_le
  rw [length_cons] at shorter
  omega

def components (text : List UInt8) : List (List UInt8) :=
  if text = [] then []
  else
    match _body : skipSlashes text with
    | [] => [dot]
    | c :: rest => component (c :: rest) :: components (afterComponent (c :: rest))
termination_by text.length
decreasing_by exact afterComponent_length _body

/-- The entry that a path without links leads to. -/
def Node.find : Node → List (List UInt8) → Except Errno Node
  | node, [] => .ok node
  | .dir entries, c :: path =>
    if c = dot then (Node.dir entries).find path
    else
      match entries.lookup c with
      | some node => node.find path
      | none => .error .ENOENT
  | _, _ :: _ => .error .ENOTDIR

def linkBase (target : CString) (cur : List (List UInt8)) : List (List UInt8) :=
  if target.bytes.head? = some slash then [] else cur

/-- Resolution of components from a directory on, where at most `links` links are followed. -/
def walk (root : Node) (links : Nat) (cur : List (List UInt8))
    : List (List UInt8) → Except Errno (List (List UInt8))
  | [] => .ok cur
  | c :: rest =>
    match root.find cur with
    | .ok (.dir _) =>
      if c = dot then walk root links cur rest
      else if c = dotDot then walk root links cur.dropLast rest
      else
        match root.find (cur ++ [c]), links with
        | .error e, _ => .error e
        | .ok (.link _), 0 => .error .ELOOP
        | .ok (.link target), links + 1 =>
          walk root links (linkBase target cur) (components target.bytes ++ rest)
        | .ok _, links => walk root links (cur ++ [c]) rest
    | .ok _ => .error .ENOTDIR
    | .error e => .error e
termination_by rest => (links, rest.length)

@[simp] theorem components_nil : components [] = [] := by
  rw [components, if_pos rfl]

theorem components_slashes (nonempty : text ≠ []) (body : skipSlashes text = [])
    : components text = [dot] := by
  rw [components, if_neg nonempty]
  split
  · rfl
  · rename_i c rest other
    rw [body] at other
    cases other

theorem components_cons {c : UInt8} (body : skipSlashes text = c :: rest)
    : components text = component (c :: rest) :: components (afterComponent (c :: rest)) := by
  have nonempty : text ≠ [] := by
    rintro rfl
    cases body
  rw [components, if_neg nonempty]
  split
  · rename_i other
    rw [body] at other
    cases other
  · rename_i c' rest' other
    rw [body] at other
    cases other
    rfl

theorem components_mem (text : List UInt8) {name : List UInt8} (member : name ∈ components text)
    : name ≠ [] ∧ slash ∉ name := by
  induction text using components.induct with
  | case1 => simp at member
  | case2 text nonempty body =>
    rw [components_slashes nonempty body, mem_singleton] at member
    rw [member]
    decide
  | case3 text nonempty c rest body ih =>
    rw [components_cons body, mem_cons] at member
    rcases member with rfl | member
    · refine ⟨?_, fun inside => ?_⟩
      · unfold component
        rw [takeWhile_cons_of_pos (by simpa using skipSlashes_head body)]
        exact cons_ne_nil _ _
      · simpa using mem_takeWhile_imp inside
    · exact ih member

def Node.IsDir (root : Node) (path : List (List UInt8)) : Prop :=
  ∃ entries, root.find path = .ok (.dir entries)

theorem Node.find_append (root : Node) (path more : List (List UInt8))
    : root.find (path ++ more) = (root.find path).bind fun node => node.find more := by
  induction path generalizing root with
  | nil =>
    cases root <;> simp [Node.find, Except.bind]
  | cons c path ih =>
    cases root with
    | dir entries =>
      simp only [cons_append, Node.find]
      split_ifs
      · exact ih (.dir entries)
      · cases entries.lookup c with
        | none => rfl
        | some node => exact ih node
    | file => rfl
    | link target => rfl

variable {root node : Node}

/-- Below an entry that is not a directory, there is nothing. -/
theorem Node.find_below (here : root.find path = .ok node) (notDir : ∀ entries, node ≠ .dir entries)
    (c : List UInt8)
    : root.find (path ++ [c]) = .error .ENOTDIR := by
  rw [Node.find_append, here]
  cases node with
  | dir entries => exact absurd rfl (notDir entries)
  | file => rfl
  | link target => rfl

/-- What has an entry is a directory. -/
theorem Node.find_parent {c : List UInt8} (found : root.find (path ++ [c]) = .ok node)
    : root.IsDir path := by
  rw [Node.find_append] at found
  cases here : root.find path with
  | error e =>
    rw [here] at found
    cases found
  | ok parent =>
    rw [here] at found
    cases parent with
    | dir entries => exact ⟨entries, here⟩
    | file => cases found
    | link target => cases found

theorem Node.IsDir.dropLast (dir : root.IsDir path)
    : root.IsDir path.dropLast := by
  rcases path.eq_nil_or_concat' with rfl | ⟨parent, c, rfl⟩
  · exact dir
  · obtain ⟨entries, found⟩ := dir
    rw [dropLast_concat]
    exact Node.find_parent found

section

variable {root : Node} {cur : List (List UInt8)} (links : Nat) (rest : List (List UInt8))

@[simp] theorem walk_nil : walk root links cur [] = .ok cur := by
  rw [walk]

theorem walk_notDir {node : Node} (here : root.find cur = .ok node)
    (notDir : ∀ entries, node ≠ .dir entries) (c : List UInt8)
    : walk root links cur (c :: rest) = .error .ENOTDIR := by
  rw [walk.eq_def]
  rw [here]
  cases node with
  | dir entries => exact absurd rfl (notDir entries)
  | file => rfl
  | link target => rfl

theorem walk_dot (dir : root.IsDir cur)
    : walk root links cur (dot :: rest) = walk root links cur rest := by
  obtain ⟨entries, here⟩ := dir
  rw [walk.eq_def]
  dsimp only
  rw [here]
  rw [if_pos rfl]

theorem walk_dotDot (dir : root.IsDir cur)
    : walk root links cur (dotDot :: rest) = walk root links cur.dropLast rest := by
  obtain ⟨entries, here⟩ := dir
  rw [walk.eq_def]
  dsimp only
  rw [here]
  rw [if_neg (by decide), if_pos rfl]

variable {c : List UInt8} (notDot : c ≠ dot) (notDotDot : c ≠ dotDot)

include notDot notDotDot

theorem walk_missing (dir : root.IsDir cur) {e : Errno} (missing : root.find (cur ++ [c]) = .error e)
    : walk root links cur (c :: rest) = .error e := by
  obtain ⟨entries, here⟩ := dir
  rw [walk.eq_def]
  dsimp only
  rw [here]
  rw [if_neg notDot, if_neg notDotDot, missing]

theorem walk_link (dir : root.IsDir cur) {target : CString}
    (found : root.find (cur ++ [c]) = .ok (.link target))
    : walk root links cur (c :: rest) = match links with
        | 0 => .error .ELOOP
        | links + 1 => walk root links (linkBase target cur) (components target.bytes ++ rest) := by
  obtain ⟨entries, here⟩ := dir
  rw [walk.eq_def]
  dsimp only
  rw [here]
  rw [if_neg notDot, if_neg notDotDot, found]
  cases links <;> rfl

theorem walk_entry (dir : root.IsDir cur) {node : Node} (found : root.find (cur ++ [c]) = .ok node)
    (notLink : ¬ node.IsLink)
    : walk root links cur (c :: rest) = walk root links (cur ++ [c]) rest := by
  obtain ⟨entries, here⟩ := dir
  rw [walk.eq_def]
  dsimp only
  rw [here]
  rw [if_neg notDot, if_neg notDotDot, found]
  cases node with
  | dir entries => cases links <;> rfl
  | file => cases links <;> rfl
  | link target => exact absurd trivial notLink

end

/-- The result is that of the last components. -/
theorem walk_congr {left right : List (List UInt8)}
    (same : ∀ links cur, walk root links cur left = walk root links cur right) (links : Nat)
    (cur before : List (List UInt8))
    : walk root links cur (before ++ left) = walk root links cur (before ++ right) := by
  induction links generalizing cur before with
  | zero =>
    induction before generalizing cur with
    | nil => exact same 0 cur
    | cons c before ih =>
      rw [cons_append, cons_append, walk.eq_def, walk.eq_def root 0 cur]
      dsimp only
      split
      · split_ifs
        · exact ih _
        · exact ih _
        · split
          · rfl
          · rfl
          · rename_i impossible
            cases impossible
          · exact ih _
      · rfl
      · rfl
  | succ links outer =>
    induction before generalizing cur with
    | nil => exact same (links + 1) cur
    | cons c before ih =>
      rw [cons_append, cons_append, walk.eq_def, walk.eq_def root (links + 1) cur]
      dsimp only
      split
      · split_ifs
        · exact ih _
        · exact ih _
        · split
          · rfl
          · rename_i impossible
            cases impossible
          · rename_i fewer next
            cases next
            rw [← append_assoc, ← append_assoc]
            exact outer _ _
          · exact ih _
      · rfl
      · rfl

/-- A component "." before another one changes nothing. -/
theorem walk_dot_before (root : Node) (links : Nat) (cur before after : List (List UInt8))
    (more : after ≠ [])
    : walk root links cur (before ++ dot :: after) = walk root links cur (before ++ after) := by
  refine walk_congr (fun links cur => ?_) links cur before
  obtain ⟨c, rest, rfl⟩ := exists_cons_of_ne_nil more
  cases here : root.find cur with
  | error e => rw [walk.eq_def, walk.eq_def root links cur (c :: rest), here]
  | ok node =>
    cases node with
    | dir entries => exact walk_dot links _ ⟨entries, here⟩
    | file =>
      rw [walk_notDir links _ here (by simp), walk_notDir links _ here (by simp)]
    | link target =>
      rw [walk_notDir links _ here (by simp), walk_notDir links _ here (by simp)]

theorem components_ne_nil {text : List UInt8} (nonempty : text ≠ []) : components text ≠ [] := by
  cases body : skipSlashes text with
  | nil =>
    rw [components_slashes nonempty body]
    exact cons_ne_nil _ _
  | cons c rest =>
    rw [components_cons body]
    exact cons_ne_nil _ _

theorem components_skip {text other : List UInt8} (nonempty : text ≠ []) (also : other ≠ [])
    (same : skipSlashes text = skipSlashes other)
    : components text = components other := by
  cases body : skipSlashes text with
  | nil => rw [components_slashes nonempty body, components_slashes also (same ▸ body)]
  | cons c rest =>
    rw [components_cons body]
    exact (components_cons (same ▸ body)).symm

theorem component_append {first second : List UInt8}
    (boundary : second = [] ∨ second.head? = some slash)
    : component (first ++ second) = component first
      ∧ afterComponent (first ++ second) = afterComponent first ++ second := by
  have ends : second.takeWhile (· ≠ slash) = [] ∧ second.dropWhile (· ≠ slash) = second := by
    rcases boundary with rfl | head
    · exact ⟨rfl, rfl⟩
    · obtain ⟨rest, rfl⟩ := head?_eq_some_iff.mp head
      simp
  unfold component afterComponent
  rw [takeWhile_append, dropWhile_append, ends.1, ends.2]
  constructor
  · split_ifs with whole
    · rw [append_nil]
      exact ((List.takeWhile_prefix _).eq_of_length whole).symm
    · rfl
  · split_ifs with whole
    · rw [isEmpty_iff.mp whole, nil_append]
    · rfl

/-- The components of two parts of a path name. A "." at the end of the first one gets lost. -/
theorem components_append (first second : List UInt8)
    (boundary : second = [] ∨ second.head? = some slash)
    : components (first ++ second) = components first ++ components second
      ∨ ∃ before, components first = before ++ [dot] ∧ components second ≠ []
        ∧ components (first ++ second) = before ++ components second := by
  induction first using components.induct with
  | case1 => exact .inl (by simp)
  | case2 text nonempty body =>
    have skip : skipSlashes (text ++ second) = skipSlashes second := by
      unfold skipSlashes at body ⊢
      rw [dropWhile_append, body]
      rfl
    by_cases more : second = []
    · exact .inl (by simp [more])
    · refine .inr ⟨[], components_slashes nonempty body, components_ne_nil more, ?_⟩
      exact components_skip (by simp [nonempty]) more skip
  | case3 text nonempty c rest body ih =>
    have skip : skipSlashes (text ++ second) = c :: (rest ++ second) := by
      unfold skipSlashes at body ⊢
      rw [dropWhile_append, body]
      rfl
    obtain ⟨same, after⟩ := @component_append (c :: rest) second boundary
    rw [cons_append] at same after
    rw [components_cons body, components_cons skip, same, after]
    rcases ih with split | ⟨before, ends, more, split⟩
    · exact .inl (by rw [split, cons_append])
    · exact .inr ⟨component (c :: rest) :: before, by rw [ends]; rfl, more, by rw [split]; rfl⟩

/-- The text of a link may be put before the rest of a path name. -/
theorem walk_components_append (root : Node) (links : Nat) (cur : List (List UInt8))
    {first second : List UInt8} (boundary : second = [] ∨ second.head? = some slash)
    : walk root links cur (components first ++ components second)
      = walk root links cur (components (first ++ second)) := by
  rcases components_append first second boundary with split | ⟨before, ends, more, split⟩
  · rw [split]
  · rw [ends, split, append_assoc]
    exact walk_dot_before root links cur before _ more

structure Canonical (root : Node) (path : List (List UInt8)) : Prop where
  names : ∀ name ∈ path, ValidName name
  entries : ∀ part, part <+: path → ∃ node, root.find part = .ok node ∧ ¬ node.IsLink

theorem validNames_concat {c : List UInt8} (names : ∀ name ∈ path, ValidName name) (valid : ValidName c)
    : ∀ name ∈ path ++ [c], ValidName name := by
  intro name member
  rcases mem_append.mp member with old | new
  · exact names name old
  · rw [mem_singleton.mp new]
    exact valid

theorem Canonical.nil {root : Node} (dir : root.IsDir []) : Canonical root [] := by
  obtain ⟨entries, found⟩ := dir
  refine ⟨fun name none => by simp at none, fun part before => ?_⟩
  rw [prefix_nil.mp before]
  exact ⟨_, found, id⟩

theorem Canonical.dropLast (canonical : Canonical root path)
    : Canonical root path.dropLast :=
  ⟨fun name member => canonical.names name (mem_of_mem_dropLast member),
    fun part before => canonical.entries part (before.trans path.dropLast_prefix)⟩

theorem Canonical.append {c : List UInt8} (canonical : Canonical root path) (valid : ValidName c)
    (found : root.find (path ++ [c]) = .ok node) (notLink : ¬ node.IsLink)
    : Canonical root (path ++ [c]) := by
  refine ⟨validNames_concat canonical.names valid, fun part before => ?_⟩
  rcases prefix_concat_iff.mp before with rfl | inside
  · exact ⟨node, found, notLink⟩
  · exact canonical.entries part inside

/-- What a path name resolves to is canonical. -/
theorem walk_canonical (top : root.IsDir []) {links : Nat} {cur comps path : List (List UInt8)}
    (start : Canonical root cur) (proper : ∀ c ∈ comps, c ≠ [] ∧ slash ∉ c)
    (run : walk root links cur comps = .ok path)
    : Canonical root path := by
  induction links, cur, comps using walk.induct root with
  | case1 links cur =>
    rw [walk_nil] at run
    cases run
    exact start
  | case2 links cur rest entries here ih =>
    rw [walk_dot links rest ⟨entries, here⟩] at run
    exact ih start (forall_mem_cons.mp proper).2 run
  | case3 links cur rest entries here _ ih =>
    rw [walk_dotDot links rest ⟨entries, here⟩] at run
    exact ih start.dropLast (forall_mem_cons.mp proper).2 run
  | case4 links cur c rest entries here notDot notDotDot e missing =>
    rw [walk_missing links rest notDot notDotDot ⟨entries, here⟩ missing] at run
    cases run
  | case5 cur c rest entries here notDot notDotDot target found =>
    rw [walk_link 0 rest notDot notDotDot ⟨entries, here⟩ found] at run
    cases run
  | case6 cur c rest entries here notDot notDotDot target links found ih =>
    rw [walk_link (links + 1) rest notDot notDotDot ⟨entries, here⟩ found] at run
    refine ih ?_ (fun name member => ?_) run
    · unfold linkBase
      split_ifs
      · exact .nil top
      · exact start
    · rcases mem_append.mp member with inside | later
      · exact components_mem _ inside
      · exact (forall_mem_cons.mp proper).2 name later
  | case7 cur c rest entries here notDot notDotDot node links zero succ found ih =>
    have notLink : ¬ node.IsLink := by
      cases node with
      | dir entries => exact id
      | file => exact id
      | link target =>
        cases links with
        | zero => exact absurd rfl (zero target rfl)
        | succ links => exact absurd rfl (succ target links rfl)
    obtain ⟨⟨nonempty, noSlash⟩, proper⟩ := forall_mem_cons.mp proper
    rw [walk_entry links rest notDot notDotDot ⟨entries, here⟩ found notLink] at run
    exact ih (start.append ⟨nonempty, noSlash, notDot, notDotDot⟩ found notLink) proper run
  | case8 links cur c rest node notDir here =>
    rw [walk_notDir links rest here (fun entries same => notDir entries same)] at run
    cases run
  | case9 links cur c rest e here =>
    obtain ⟨node, found, -⟩ := start.entries cur prefix_rfl
    rw [found] at here
    cases here

end Nglibc.Paths
