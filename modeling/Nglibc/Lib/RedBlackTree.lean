import Mathlib.Data.List.Basic

/-! Red-black trees, and the places in them as the frames from a subtree up to the root. -/

namespace Nglibc.Trees

inductive Side
  | left
  | right
  deriving DecidableEq, Repr

def Side.other : Side → Side
  | .left => .right
  | .right => .left

inductive RbTree (κ : Type)
  | nil
  | node (red : Bool) (key : κ) (left right : RbTree κ)

/-- What is around a subtree in its parent: the side of the subtree, the colour and the key of the
parent, and the other subtree.
-/
structure Frame (κ : Type) where
  side : Side
  red : Bool
  key : κ
  sibling : RbTree κ

variable {κ : Type} {t l r : RbTree κ} {f : Frame κ} {fs : List (Frame κ)} {c d red : Bool} {n : Nat}
  {k : κ} {side : Side}

namespace RbTree

def isRed : RbTree κ → Bool
  | nil => false
  | node red _ _ _ => red

def setBlack : RbTree κ → RbTree κ
  | nil => nil
  | node _ key l r => node false key l r

def join (side : Side) (red : Bool) (key : κ) (near far : RbTree κ) : RbTree κ :=
  match side with
  | .left => node red key near far
  | .right => node red key far near

def child : Side → RbTree κ → RbTree κ
  | _, nil => nil
  | .left, node _ _ l _ => l
  | .right, node _ _ _ r => r

def at_ : RbTree κ → List Side → RbTree κ
  | t, [] => t
  | t, side :: path => (child side t).at_ path

@[simp] theorem isRed_nil : (nil : RbTree κ).isRed = false := rfl

@[simp] theorem isRed_node {red : Bool} : (node red k l r).isRed = red := rfl

@[simp] theorem isRed_join {side : Side} {red : Bool} : (join side red k l r).isRed = red := by
  cases side <;> rfl

@[simp] theorem child_join_self {side : Side} {red : Bool} : child side (join side red k l r) = l := by
  cases side <;> rfl

@[simp] theorem child_join_other
    : child side.other (join side red k l r) = r := by
  cases side <;> rfl

@[simp] theorem setBlack_join
    : (join side red k l r).setBlack = join side false k l r := by
  cases side <;> rfl

theorem node_eq_join (side : Side)
    : node red k l r
      = join side.other red k (child side.other (node red k l r)) (child side (node red k l r)) := by
  cases side <;> rfl

theorem at_append (path path' : List Side) : t.at_ (path ++ path') = (t.at_ path).at_ path' := by
  induction path generalizing t with
  | nil => rfl
  | cons side path ih => exact ih

end RbTree

def plug : List (Frame κ) → RbTree κ → RbTree κ
  | [], t => t
  | f :: fs, t => plug fs (RbTree.join f.side f.red f.key t f.sibling)

def pathOf (fs : List (Frame κ)) : List Side := (fs.map Frame.side).reverse

theorem pathOf_cons : pathOf (f :: fs) = pathOf fs ++ [f.side] := List.reverse_cons

theorem length_pathOf : (pathOf fs).length = fs.length := by
  rw [pathOf, List.length_reverse, List.length_map]

theorem plug_at (fs : List (Frame κ)) (t : RbTree κ) : (plug fs t).at_ (pathOf fs) = t := by
  induction fs generalizing t with
  | nil => rfl
  | cons f fs ih =>
    rw [pathOf_cons, RbTree.at_append, plug, ih]
    exact RbTree.child_join_self

def siblingPath (path : List Side) : List Side :=
  match path.getLast? with
  | none => []
  | some side => path.dropLast ++ [side.other]

theorem plug_siblingPath (f : Frame κ) (fs : List (Frame κ)) (t : RbTree κ)
    : (plug (f :: fs) t).at_ (siblingPath (pathOf (f :: fs))) = f.sibling := by
  rw [siblingPath, pathOf_cons, List.getLast?_concat, List.dropLast_concat]
  rw [RbTree.at_append, plug, plug_at]
  exact RbTree.child_join_other

/-- A tree of a colour and a black height: no red node has a red child, and every path down has as many
black nodes.
-/
inductive Balanced : RbTree κ → Bool → Nat → Prop
  | nil : Balanced .nil false 0
  | red {k : κ} {l r : RbTree κ} {n : Nat} (left : Balanced l false n) (right : Balanced r false n)
    : Balanced (.node true k l r) true n
  | black {k : κ} {l r : RbTree κ} {c d : Bool} {n : Nat} (left : Balanced l c n) (right : Balanced r d n)
    : Balanced (.node false k l r) false (n + 1)

def RedBlack (t : RbTree κ) : Prop := ∃ n, Balanced t.setBlack false n

structure RedBlackTree (κ : Type) where
  tree : RbTree κ
  valid : RedBlack tree

/-- What may stand in a hole of a red-black tree: a tree of the colour or a black one, of the black
height.
-/
inductive Fits : List (Frame κ) → Bool → Nat → Prop
  | top {c : Bool} {n : Nat} : Fits [] c n
  | root {side : Side} {red : Bool} {k : κ} {t : RbTree κ} {c d : Bool} {n : Nat}
    (sibling : Balanced t d n)
    : Fits [⟨side, red, k, t⟩] c n
  | red {side : Side} {k : κ} {t : RbTree κ} {fs : List (Frame κ)} {n : Nat}
    (sibling : Balanced t false n) (above : Fits fs true n)
    : Fits (⟨side, true, k, t⟩ :: fs) false n
  | black {side : Side} {k : κ} {t : RbTree κ} {fs : List (Frame κ)} {c d : Bool} {n : Nat}
    (sibling : Balanced t d n) (above : Fits fs false (n + 1))
    : Fits (⟨side, false, k, t⟩ :: fs) c n

theorem Balanced.isRed (holds : Balanced t c n) : t.isRed = c := by
  cases holds <;> rfl

theorem Balanced.ofBlack (holds : Balanced t c n) (black : t.isRed = false) : Balanced t false n := by
  rw [holds.isRed] at black
  exact black ▸ holds

theorem Balanced.setBlack (holds : Balanced t c n) : ∃ m, Balanced t.setBlack false m := by
  cases holds with
  | nil => exact ⟨_, .nil⟩
  | red left right => exact ⟨_, .black left right⟩
  | black left right => exact ⟨_, .black left right⟩

theorem Balanced.setBlack_red (holds : Balanced t true n) : Balanced t.setBlack false (n + 1) := by
  cases holds with
  | red left right => exact .black left right

theorem Balanced.child_red (holds : Balanced t true n) (side : Side) : Balanced (t.child side) false n := by
  cases holds with
  | red left right =>
    cases side
    · exact left
    · exact right

theorem Balanced.child_black (holds : Balanced t false (n + 1)) (side : Side)
    : ∃ c, Balanced (t.child side) c n := by
  cases holds with
  | black left right =>
    cases side
    · exact ⟨_, left⟩
    · exact ⟨_, right⟩

theorem Balanced.redBlack (holds : Balanced t c n) : RedBlack t := holds.setBlack

theorem RedBlack.setBlack (holds : RedBlack t) : RedBlack t.setBlack := by
  obtain ⟨n, holds⟩ := holds
  exact holds.redBlack

theorem Fits.ofRed (holds : Fits fs c n) : Fits fs false n := by
  cases holds with
  | top => exact .top
  | root sibling => exact .root sibling
  | red sibling above => exact .red sibling above
  | black sibling above => exact .black sibling above

theorem Balanced.join_red (near : Balanced l false n) (far : Balanced r false n)
    : Balanced (.join side true k l r) true n := by
  cases side
  · exact .red near far
  · exact .red far near

theorem Balanced.join_black (near : Balanced l c n) (far : Balanced r d n)
    : Balanced (.join side false k l r) false (n + 1) := by
  cases side
  · exact .black near far
  · exact .black far near

theorem redBlack_join (near : Balanced l c n) (far : Balanced r d n)
    : RedBlack (.join side red k l r) := by
  refine ⟨n + 1, ?_⟩
  rw [RbTree.setBlack_join]
  exact .join_black near far

/-- A tree that fits into a hole fills it to a red-black tree, by induction on the frames. -/
theorem Fits.redBlack (fits : Fits fs c n) (holds : Balanced t c n) : RedBlack (plug fs t) := by
  induction fits generalizing t with
  | top => exact holds.redBlack
  | root sibling => exact redBlack_join holds sibling
  | red sibling _ ih => exact ih (holds.join_red sibling)
  | black sibling _ ih => exact ih (holds.join_black sibling)

/-- The parent of a hole may get two other black children of the same height. -/
theorem Fits.redBlack_parent {key : κ} {sibling : RbTree κ}
    (fits : Fits (⟨side, red, key, sibling⟩ :: fs) false n) (near : Balanced l false n)
    (far : Balanced r false n)
    : RedBlack (plug fs (.join side red k l r)) := by
  cases fits with
  | root _ => exact redBlack_join near far
  | red _ above => exact above.redBlack (near.join_red far)
  | black _ above => exact above.redBlack (near.join_black far)

theorem Fits.sibling (fits : Fits (f :: fs) c n) : ∃ d, Balanced f.sibling d n := by
  cases fits with
  | root sibling => exact ⟨_, sibling⟩
  | red sibling _ => exact ⟨_, sibling⟩
  | black sibling _ => exact ⟨_, sibling⟩

/-- Both subtrees of a parent miss a black node: so does the parent if it is black, and a red one may
become black.
-/
theorem Fits.parent {key : κ} {sibling : RbTree κ}
    (fits : Fits (⟨side, red, key, sibling⟩ :: fs) false (n + 1)) (near : Balanced l false n)
    (far : Balanced r d n)
    : (red = true ∧ Balanced (RbTree.join side red key l r).setBlack false (n + 1) ∧ Fits fs false (n + 1))
      ∨ (red = false ∧ Balanced (.join side red key l r) false (n + 1) ∧ Fits fs false (n + 2)) := by
  have joined : Balanced (.join side false key l r) false (n + 1) := near.join_black far
  cases fits with
  | root _ =>
    cases red with
    | true => exact .inl ⟨rfl, by rwa [RbTree.setBlack_join], .top⟩
    | false => exact .inr ⟨rfl, joined, .top⟩
  | red _ above => exact .inl ⟨rfl, by rwa [RbTree.setBlack_join], above.ofRed⟩
  | black _ above => exact .inr ⟨rfl, joined, above⟩

variable {near far : RbTree κ}

theorem Fits.rotate {key key2 : κ}
    (fits : Fits (⟨side, red, key, .join side.other true key2 far near⟩ :: fs) c n)
    : Fits (⟨side, true, key, near⟩ :: ⟨side, false, key2, far⟩ :: fs) false n := by
  have children : ∀ {d}, Balanced (.join side.other true key2 far near) d n
      → Balanced far false n ∧ Balanced near false n := by
    intro d holds
    cases side with
    | left =>
      cases holds with
      | red left right => exact ⟨right, left⟩
    | right =>
      cases holds with
      | red left right => exact ⟨left, right⟩
  cases fits with
  | root sibling => exact .red (children sibling).2 (.black (children sibling).1 .top)
  | red sibling _ =>
    have red := sibling.isRed
    rw [RbTree.isRed_join] at red
    cases red
  | black sibling above => exact .red (children sibling).2 (.black (children sibling).1 above)

/-- The frames above a subtree of a red-black tree make a hole that the subtree fits into. -/
theorem Fits.descend (fits : Fits fs c n) (holds : Balanced (.join side red k near far) c n)
    : ∃ d m, Fits (⟨side, red, k, far⟩ :: fs) d m ∧ Balanced near d m := by
  cases side with
  | left =>
    cases holds with
    | red left right => exact ⟨_, _, .red right fits, left⟩
    | black left right => exact ⟨_, _, .black right fits, left⟩
  | right =>
    cases holds with
    | red left right => exact ⟨_, _, .red left fits, right⟩
    | black left right => exact ⟨_, _, .black left fits, right⟩

/-- Below the root its colour does not matter. -/
theorem Fits.descend_root (holds : RedBlack (.join side red k near far))
    : ∃ d m, Fits [⟨side, red, k, far⟩] d m ∧ Balanced near d m := by
  obtain ⟨n, holds⟩ := holds
  cases side with
  | left =>
    cases holds with
    | black left right => exact ⟨_, _, .root right, left⟩
  | right =>
    cases holds with
    | black left right => exact ⟨_, _, .root left, right⟩

/-- The keys do not matter for the balance. -/
theorem Fits.modify_key (fits : Fits fs c n) (i : Nat) (key : κ)
    : Fits (fs.modify i fun f => { f with key := key }) c n := by
  induction fits generalizing i with
  | top =>
    rw [List.modify_nil]
    exact .top
  | root sibling =>
    cases i with
    | zero => exact .root sibling
    | succ i =>
      rw [List.modify_succ_cons, List.modify_nil]
      exact .root sibling
  | red sibling above ih =>
    cases i with
    | zero => exact .red sibling above
    | succ i => exact .red sibling (ih i)
  | black sibling above ih =>
    cases i with
    | zero => exact .black sibling above
    | succ i => exact .black sibling (ih i)

theorem RedBlack.fits (holds : RedBlack (plug fs t)) : fs = [] ∨ ∃ c n, Fits fs c n ∧ Balanced t c n := by
  induction fs generalizing t with
  | nil => exact .inl rfl
  | cons f fs ih =>
    refine .inr ?_
    rcases ih holds with rfl | ⟨c, n, fits, parent⟩
    · exact Fits.descend_root holds
    · exact fits.descend parent

theorem Balanced.eq_nil (holds : Balanced t false 0) : t = .nil := by
  cases holds
  rfl

theorem Balanced.height_nil (holds : Balanced (.nil : RbTree κ) c n) : n = 0 := by
  cases holds
  rfl

end Nglibc.Trees
