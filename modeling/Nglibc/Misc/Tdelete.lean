import Mathlib.Tactic
import Nglibc.Lib.Iteration
import Nglibc.Lib.RedBlackTree

/-! `tdelete` of `misc/tsearch.c`, with the stack of the parents of a node. A slot of a node is the place
of a tree below its frames, so that the frames from a slot to the root are the slots on the stack. None
is an access through a null pointer.
-/

namespace Nglibc.Misc
open Trees

variable {κ : Type}

/-- `nodestack` and `stacksize`; the last parent stands first. -/
structure NodeStack (κ : Type) where
  entries : List (Frame κ)
  stacksize : Nat

def NodeStack.sp (stack : NodeStack κ) : Nat := stack.entries.length

def NodeStack.init : NodeStack κ := ⟨[], 40⟩

def NodeStack.grow (stack : NodeStack κ) : NodeStack κ :=
  if stack.sp = stack.stacksize then ⟨stack.entries, stack.stacksize + 20⟩ else stack

/-- `nodestack[sp++] = …`; none is a write behind the end of the array. -/
def NodeStack.push (stack : NodeStack κ) (entry : Frame κ) : Option (NodeStack κ) :=
  if stack.sp < stack.stacksize then some ⟨entry :: stack.entries, stack.stacksize⟩ else none

/-- What `tdelete` comes to. -/
inductive Deletion (κ : Type)
  /-- A write behind the end of `nodestack`. -/
  | overrun
  | notFound
  /-- The new tree and the key of the parent of the node with the key; the pointer that is returned for
  the root is bogus.
  -/
  | deleted (tree : RbTree κ) (retval : Option κ)

/-- The node at which a descent ends: its colour, key and subtrees, and the stack at it. -/
structure Found (κ : Type) where
  red : Bool
  key : κ
  left : RbTree κ
  right : RbTree κ
  stack : NodeStack κ

def Found.node (found : Found κ) : RbTree κ := .node found.red found.key found.left found.right

def searchDescent (compar : κ → Int) (stack : NodeStack κ) : RbTree κ → Deletion κ ⊕ Found κ
  | .nil => .inl .notFound
  | .node red key left right =>
    if compar key = 0 then .inr ⟨red, key, left, right, stack⟩
    else if compar key < 0 then
      match stack.grow.push ⟨.left, red, key, right⟩ with
      | none => .inl .overrun
      | some stack => searchDescent compar stack left
    else
      match stack.grow.push ⟨.right, red, key, left⟩ with
      | none => .inl .overrun
      | some stack => searchDescent compar stack right

/-- The descent to the smallest key of a tree; the parent of the tree is pushed first. -/
def successorDescent (stack : NodeStack κ) (parent : Frame κ) : RbTree κ → Option (Deletion κ ⊕ Found κ)
  | .nil => none
  | .node red key left right =>
    match stack.grow.push parent with
    | none => some (.inl .overrun)
    | some stack =>
      match left with
      | .nil => some (.inr ⟨red, key, .nil, right, stack⟩)
      | left => successorDescent stack ⟨.left, red, key, right⟩ left

def NodeStack.setKey (stack : NodeStack κ) (level : Nat) (key : κ) : NodeStack κ :=
  ⟨stack.entries.modify (stack.sp - 1 - level) fun f => { f with key := key }, stack.stacksize⟩

/-- The node that is unchained: `root`, or its successor if `root` has two successors, whose key then
overwrites that of `root`.
-/
def unchainedOf (root : Found κ) : Option (Deletion κ ⊕ Found κ) :=
  match root.left, root.right with
  | .nil, _ => some (.inr root)
  | _, .nil => some (.inr root)
  | left, right =>
    match successorDescent root.stack ⟨.right, root.red, root.key, left⟩ right with
    | none => none
    | some (.inl deletion) => some (.inl deletion)
    | some (.inr unchained) =>
      some (.inr { unchained with stack := unchained.stack.setKey root.stack.sp unchained.key })

/-- `R` and the stack of its parents. -/
structure Balancing (κ : Type) where
  r : RbTree κ
  stack : NodeStack κ

/-- A turn behind the test of the colour of `Q`, the brother of `R` below `P`. -/
def blackBrother (retval : Option κ) (r : RbTree κ) (p : Frame κ) (above : NodeStack κ)
    : Option (Deletion κ ⊕ Balancing κ) :=
  match p.sibling with
  | .nil => none
  | .node red key left right =>
    let near := RbTree.child p.side (.node red key left right)
    let far := RbTree.child p.side.other (.node red key left right)
    if near.isRed = false ∧ far.isRed = false then
      some (.inr ⟨.join p.side p.red p.key r (.node true key left right), above⟩)
    else if far.isRed = false then
      match near with
      | .nil => none
      | .node red2 key2 left2 right2 =>
        let q2 : RbTree κ := .node red2 key2 left2 right2
        let newP := RbTree.join p.side false p.key r (q2.child p.side)
        let newQ := RbTree.join p.side red key (q2.child p.side.other) far
        some (.inl (.deleted (plug above.entries (.join p.side p.red key2 newP newQ)) retval))
    else
      let newP := RbTree.join p.side false p.key r near
      some (.inl (.deleted (plug above.entries (.join p.side p.red key newP far.setBlack)) retval))

def balanceTurn (retval : Option κ) (st : Balancing κ) : Option (Deletion κ ⊕ Balancing κ) :=
  match st.stack.entries with
  | [] => some (.inl (.deleted st.r.setBlack retval))
  | p :: above =>
    if st.r.isRed then some (.inl (.deleted (plug (p :: above) st.r.setBlack) retval))
    else
      match p.sibling with
      | .nil => none
      | .node false _ _ _ => blackBrother retval st.r p ⟨above, st.stack.stacksize⟩
      | .node true key left right =>
        -- P is rotated below Q and gets a place on the stack of its own
        let q : RbTree κ := .node true key left right
        let newQ : Frame κ := ⟨p.side, false, key, q.child p.side.other⟩
        let newP : Frame κ := ⟨p.side, true, p.key, q.child p.side⟩
        let rotated : NodeStack κ := ⟨newQ :: above, st.stack.stacksize⟩
        match rotated.push newP with
        | none => some (.inl .overrun)
        | some _ => blackBrother retval st.r newP rotated

def unchain (retval : Option κ) (unchained : Found κ) : Option (Deletion κ) :=
  let r := match unchained.left with
    | .nil => unchained.right
    | left => left
  if unchained.red then some (.deleted (plug unchained.stack.entries r) retval)
  else iterate (balanceTurn retval) (unchained.stack.sp + 2) ⟨r, unchained.stack⟩

def tdelete (key : κ) (t : RbTree κ) (compar : κ → κ → Int) : Option (Deletion κ) :=
  match searchDescent (compar key) .init t with
  | .inl deletion => some deletion
  | .inr root =>
    let retval := root.stack.entries.head?.map Frame.key
    match unchainedOf root with
    | none => none
    | some (.inl deletion) => some deletion
    | some (.inr unchained) => unchain retval unchained

end Nglibc.Misc
