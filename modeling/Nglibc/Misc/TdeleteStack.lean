import Nglibc.Misc.Tdelete

/-! When `tdelete` writes behind the end of its stack. The descents grow a full stack; a turn of the loop
that balances the tree pushes without a test, below a red brother.
-/

namespace Nglibc.Misc
open Trees List

variable {κ : Type} {t whole : RbTree κ} {stack : NodeStack κ} {retval : Option κ}

/-- The array has 40 entries or more, in steps of 20, and no step more than needed. -/
structure NodeStack.Grown (stack : NodeStack κ) : Prop where
  unit : 20 ∣ stack.stacksize
  atLeast : 40 ≤ stack.stacksize
  inside : stack.sp ≤ stack.stacksize
  tight : stack.stacksize = 40 ∨ stack.stacksize < stack.sp + 20

theorem NodeStack.init_grown : (NodeStack.init : NodeStack κ).Grown :=
  ⟨⟨2, rfl⟩, le_rfl, Nat.zero_le _, .inl rfl⟩

theorem NodeStack.push_of_room {entry : Frame κ} (room : stack.sp < stack.stacksize)
    : stack.push entry = some ⟨entry :: stack.entries, stack.stacksize⟩ :=
  if_pos room

theorem NodeStack.push_of_full {entry : Frame κ} (full : stack.sp = stack.stacksize)
    : stack.push entry = none :=
  if_neg (Nat.not_lt.mpr full.ge)

/-- A push of the descents stays inside of the array. -/
theorem NodeStack.Grown.push (grown : stack.Grown) (entry : Frame κ)
    : ∃ stack', stack.grow.push entry = some stack' ∧ stack'.entries = entry :: stack.entries
      ∧ stack'.Grown := by
  obtain ⟨unit, atLeast, inside, tight⟩ := grown
  unfold NodeStack.grow
  by_cases full : stack.sp = stack.stacksize
  · rw [if_pos full]
    refine ⟨⟨entry :: stack.entries, stack.stacksize + 20⟩, if_pos ?_, rfl, ?_, ?_, ?_, ?_⟩
    · exact Nat.lt_add_right 19 (Nat.lt_succ_of_le inside)
    · exact Nat.dvd_add_self_right.mpr unit
    · exact Nat.le_add_right_of_le atLeast
    · exact Nat.add_le_add inside (by decide)
    · exact .inr (Nat.add_lt_add_right (Nat.lt_succ_of_le full.ge) 20)
  · rw [if_neg full]
    have room : stack.sp < stack.stacksize := Nat.lt_of_le_of_ne inside full
    refine ⟨⟨entry :: stack.entries, stack.stacksize⟩, if_pos room, rfl, unit, atLeast, room, ?_⟩
    exact tight.imp_right fun below => Nat.lt_succ_of_lt below

theorem NodeStack.Grown.full_iff (grown : stack.Grown)
    : stack.sp = stack.stacksize ↔ 40 ≤ stack.sp ∧ 20 ∣ stack.sp := by
  obtain ⟨unit, atLeast, inside, tight⟩ := grown
  constructor
  · intro full
    exact full ▸ ⟨atLeast, unit⟩
  · rintro ⟨deep, multiple⟩
    omega

def leftmostPath : RbTree κ → List Side
  | .nil => []
  | .node _ _ .nil _ => []
  | .node _ _ left _ => .left :: leftmostPath left

def pathBelow : RbTree κ → List Side
  | .nil => []
  | .node _ _ .nil _ => []
  | .node _ _ _ .nil => []
  | .node _ _ _ right => .right :: leftmostPath right

def unchainedPath (compar : κ → Int) : RbTree κ → Option (List Side)
  | .nil => none
  | .node red key left right =>
    if compar key = 0 then some (pathBelow (.node red key left right))
    else if compar key < 0 then (unchainedPath compar left).map (.left :: ·)
    else (unchainedPath compar right).map (.right :: ·)

def RedBrotherAtFull (t : RbTree κ) (path : List Side) : Prop :=
  40 ≤ path.length ∧ 20 ∣ path.length ∧ (∃ key, t.at_ path = .node false key .nil .nil)
  ∧ (t.at_ (siblingPath path)).isRed = true

/-- The search ends at a node with the key, or there is none; the stack has grown with it. -/
def SearchEnds (compar : κ → Int) (whole t : RbTree κ) (stack : NodeStack κ)
    : Deletion κ ⊕ Found κ → Prop
  | .inl deletion => deletion = .notFound ∧ unchainedPath compar t = none
  | .inr root => root.stack.Grown ∧ plug root.stack.entries root.node = whole
      ∧ (unchainedPath compar t).map (pathOf stack.entries ++ ·)
        = some (pathOf root.stack.entries ++ pathBelow root.node)

theorem SearchEnds.descend {compar : κ → Int} {side : Side} {f : Frame κ} {near : RbTree κ}
    {stack' : NodeStack κ} {result : Deletion κ ⊕ Found κ} (entries : stack'.entries = f :: stack.entries)
    (here : f.side = side) (path : unchainedPath compar t = (unchainedPath compar near).map (side :: ·))
    (ends : SearchEnds compar whole near stack' result)
    : SearchEnds compar whole t stack result := by
  cases result with
  | inl deletion => exact ⟨ends.1, by rw [path, ends.2]; rfl⟩
  | inr root =>
    obtain ⟨grown, same, found⟩ := ends
    refine ⟨grown, same, ?_⟩
    rw [← found, path, entries, pathOf_cons, here, Option.map_map]
    simp only [Function.comp_def, append_assoc, singleton_append]

private theorem searchDescent_ends (compar : κ → Int) (grown : stack.Grown) (same : plug stack.entries t = whole)
    : SearchEnds compar whole t stack (searchDescent compar stack t) := by
  induction t generalizing stack with
  | nil => exact ⟨rfl, rfl⟩
  | node red key left right ihLeft ihRight =>
    unfold searchDescent
    by_cases found : compar key = 0
    · rw [if_pos found]
      refine ⟨grown, same, ?_⟩
      rw [unchainedPath, if_pos found]
      rfl
    rw [if_neg found]
    by_cases less : compar key < 0
    · rw [if_pos less]
      obtain ⟨stack', run, entries, grown'⟩ := grown.push ⟨.left, red, key, right⟩
      rw [run]
      refine SearchEnds.descend entries rfl ?_ (ihLeft grown' (by rw [entries]; exact same))
      rw [unchainedPath, if_neg found, if_pos less]
    · rw [if_neg less]
      obtain ⟨stack', run, entries, grown'⟩ := grown.push ⟨.right, red, key, left⟩
      rw [run]
      refine SearchEnds.descend entries rfl ?_ (ihRight grown' (by rw [entries]; exact same))
      rw [unchainedPath, if_neg found, if_neg less]

/-- The smallest key of a tree that is not empty is found, with all of its parents on the stack. -/
theorem successorDescent_found (grown : stack.Grown) {parent : Frame κ} (some_ : t ≠ .nil)
    (same : plug (parent :: stack.entries) t = whole)
    : ∃ found : Found κ, successorDescent stack parent t = some (.inr found) ∧ found.stack.Grown
      ∧ plug found.stack.entries found.node = whole ∧ found.left = .nil
      ∧ pathOf found.stack.entries = pathOf (parent :: stack.entries) ++ leftmostPath t := by
  induction t generalizing stack parent with
  | nil => exact absurd rfl some_
  | node red key left right ihLeft _ =>
    unfold successorDescent
    obtain ⟨stack', run, entries, grown'⟩ := grown.push parent
    rw [run]
    cases left with
    | nil =>
      refine ⟨⟨red, key, .nil, right, stack'⟩, rfl, grown', ?_, rfl, ?_⟩
      · rw [entries]
        exact same
      · rw [entries]
        exact (append_nil _).symm
    | node red' key' left' right' =>
      have same' : plug (⟨.left, red, key, right⟩ :: stack'.entries) (.node red' key' left' right')
          = whole := by
        rw [entries]
        exact same
      obtain ⟨found, run', grownFound, same', last, path⟩ := ihLeft grown' nofun same'
      refine ⟨found, run', grownFound, same', last, ?_⟩
      rw [path, pathOf_cons, entries, append_assoc]
      rfl

structure Rekeyed (fs fs' : List (Frame κ)) : Prop where
  fits : ∀ {c n}, Fits fs c n → Fits fs' c n
  siblings : fs'.map Frame.sibling = fs.map Frame.sibling

theorem Rekeyed.refl (fs : List (Frame κ)) : Rekeyed fs fs := ⟨fun fits => fits, rfl⟩

theorem rekeyed_modify (fs : List (Frame κ)) (i : Nat) (key : κ)
    : Rekeyed fs (fs.modify i fun f => { f with key := key }) := by
  refine ⟨fun fits => fits.modify_key i key, ?_⟩
  induction fs generalizing i with
  | nil => rw [modify_nil]
  | cons f fs ih =>
    cases i with
    | zero => rfl
    | succ i => rw [modify_succ_cons, map_cons, map_cons, ih]

theorem Rekeyed.length {fs fs' : List (Frame κ)} (rekeyed : Rekeyed fs fs') : fs'.length = fs.length := by
  rw [← length_map (f := Frame.sibling), rekeyed.siblings, length_map]

/-- A node with a free side is unchained, at the end of a path, with its parents on the stack. -/
structure Unchains (whole : RbTree κ) (path : List Side) (unchained : Found κ) (fs : List (Frame κ)) : Prop
    where
  grown : unchained.stack.Grown
  same : plug fs unchained.node = whole
  path : path = pathOf fs
  rekeyed : Rekeyed fs unchained.stack.entries
  free : unchained.left = .nil ∨ unchained.right = .nil

private theorem unchainedOf_unchains {root : Found κ} (grown : root.stack.Grown)
    (same : plug root.stack.entries root.node = whole)
    : ∃ unchained fs, unchainedOf root = some (.inr unchained)
      ∧ Unchains whole (pathOf root.stack.entries ++ pathBelow root.node) unchained fs := by
  obtain ⟨red, key, left, right, stack⟩ := root
  cases left with
  | nil =>
    exact ⟨_, stack.entries, rfl, grown, same, append_nil _, .refl _, .inl rfl⟩
  | node red1 key1 left1 right1 =>
    cases right with
    | nil => exact ⟨_, stack.entries, rfl, grown, same, append_nil _, .refl _, .inr rfl⟩
    | node red2 key2 left2 right2 =>
      obtain ⟨found, run, grown', same', last, path⟩ := @successorDescent_found κ
        (.node red2 key2 left2 right2) _ stack grown ⟨.right, red, key, .node red1 key1 left1 right1⟩
        nofun same
      unfold unchainedOf
      simp only [run]
      refine ⟨_, found.stack.entries, rfl, ⟨?_, same', ?_, rekeyed_modify _ _ _, .inl last⟩⟩
      · obtain ⟨unit, atLeast, inside, tight⟩ := grown'
        have sp : (found.stack.setKey stack.sp found.key).sp = found.stack.sp :=
          (rekeyed_modify _ _ _).length
        exact ⟨unit, atLeast, sp ▸ inside, sp ▸ tight⟩
      · rw [path, pathOf_cons, append_assoc]
        rfl

/-- The hole at `R` misses a black node: `R` fits but for that node, or it is red and fits when it is
black.
-/
def Balancing.Holds (st : Balancing κ) : Prop := ∃ n, Fits st.stack.entries false (n + 1)
    ∧ (Balanced st.r false n ∨ st.r.isRed = true ∧ Balanced st.r.setBlack false (n + 1))

def Rebalances (retval : Option κ) : Deletion κ → Prop
  | .overrun => False
  | .notFound => False
  | .deleted tree retval' => RedBlack tree ∧ retval' = retval

/-- A turn behind the test of the brother ends the loop, or goes on at the parent. -/
theorem blackBrother_advances {r : RbTree κ} {p : Frame κ} {above : NodeStack κ} {n : Nat}
    (fits : Fits (p :: above.entries) false (n + 1)) (holds : Balanced r false n)
    (black : p.sibling.isRed = false)
    : (∃ tree, blackBrother retval r p above = some (.inl (.deleted tree retval)) ∧ RedBlack tree)
      ∨ ∃ r', blackBrother retval r p above = some (.inr ⟨r', above⟩)
        ∧ Balancing.Holds ⟨r', above⟩ ∧ r'.isRed = p.red := by
  obtain ⟨side, red, key, sibling⟩ := p
  obtain ⟨d, balanced⟩ := fits.sibling
  rw [balanced.isRed] at black
  subst black
  cases sibling with
  | nil => cases balanced
  | node red2 key2 left right =>
  have red2Black : red2 = false := balanced.isRed
  subst red2Black
  obtain ⟨c', near⟩ := balanced.child_black side
  obtain ⟨d', far⟩ := balanced.child_black side.other
  have brother : c' = false → d' = false → Balanced (.node true key2 left right) true n := by
    rintro rfl rfl
    cases side
    · exact .red near far
    · exact .red far near
  unfold blackBrother
  simp only
  generalize RbTree.child side (.node false key2 left right) = nearQ at near
  rw [near.isRed, far.isRed]
  by_cases both : c' = false ∧ d' = false
  · -- the brother becomes red, and the parent misses a black node
    rw [if_pos both]
    refine .inr ⟨_, rfl, ?_, RbTree.isRed_join⟩
    rcases fits.parent holds (brother both.1 both.2) with ⟨isRed, repaired, fits'⟩ | ⟨_, holds', fits'⟩
    · exact ⟨n, fits', .inr ⟨by rw [RbTree.isRed_join, isRed], repaired⟩⟩
    · exact ⟨n + 1, fits', .inl holds'⟩
  rw [if_neg both]
  by_cases farBlack : d' = false
  · -- the near child of the brother is red and becomes the top
    rw [if_pos farBlack]
    have nearRed : c' = true := Bool.not_eq_false _ ▸ fun black => both ⟨black, farBlack⟩
    subst nearRed
    cases nearQ with
    | nil => cases near
    | node red3 key3 left3 right3 =>
      refine .inl ⟨_, rfl, fits.redBlack_parent (holds.join_black (near.child_red side)) ?_⟩
      exact (near.child_red side.other).join_black far
  · -- the far child of the brother is red and becomes black
    have farRed : d' = true := Bool.not_eq_false _ ▸ farBlack
    subst farRed
    exact .inl ⟨_, rfl, fits.redBlack_parent (holds.join_black near) far.setBlack_red⟩

def AtFullStack (st : Balancing κ) : Prop := st.r.isRed = false ∧ st.stack.sp = st.stack.stacksize
  ∧ ∃ p ∈ st.stack.entries.head?, p.sibling.isRed = true

def Balancing.Below (st st' : Balancing κ) : Prop :=
  st'.Holds ∧ st'.stack.sp < st'.stack.stacksize ∧ st.r.isRed = false
  ∧ (st'.r.isRed = true ∨ st'.stack.sp < st.stack.sp)

variable {st : Balancing κ}

/-- A turn ends the loop with a red-black tree or goes on at the parent, if it does not push behind a full
stack.
-/
theorem balanceTurn_advances (holds : st.Holds) (inside : st.stack.sp ≤ st.stack.stacksize)
    (safe : ¬ AtFullStack st)
    : (∃ tree, balanceTurn retval st = some (.inl (.deleted tree retval)) ∧ RedBlack tree)
      ∨ ∃ st', balanceTurn retval st = some (.inr st') ∧ st.Below st' := by
  obtain ⟨r, entries, stacksize⟩ := st
  obtain ⟨n, fits, root⟩ := holds
  cases entries with
  | nil =>
    refine .inl ⟨_, rfl, ?_⟩
    rcases root with balanced | ⟨_, balanced⟩
    · exact balanced.redBlack.setBlack
    · exact balanced.redBlack
  | cons p above =>
  rcases root with balanced | ⟨red, repaired⟩
  case inr =>
    refine .inl ⟨_, ?_, fits.redBlack repaired⟩
    unfold balanceTurn
    simp only [if_pos red]
  have black := balanced.isRed
  unfold balanceTurn
  simp only [black, Bool.false_eq_true, if_false]
  obtain ⟨side, red, key, sibling⟩ := p
  obtain ⟨d, brother⟩ := fits.sibling
  cases sibling with
  | nil => cases brother
  | node red2 key2 left right =>
  cases red2 with
  | false =>
    rcases @blackBrother_advances κ retval r _ ⟨above, stacksize⟩ n fits balanced rfl
      with ended | ⟨r', run, holds', _⟩
    · exact .inl ended
    · exact .inr ⟨_, run, holds', inside, black, .inr (Nat.lt_succ_self _)⟩
  | true =>
    have room : ∀ f : Frame κ, NodeStack.sp ⟨f :: above, stacksize⟩ < stacksize := fun _ =>
      Nat.lt_of_le_of_ne inside fun full => safe ⟨black, full, _, rfl, rfl⟩
    simp only
    rw [NodeStack.push_of_room (room _)]
    rw [RbTree.node_eq_join side] at fits
    have nearBlack := (brother.isRed ▸ brother).child_red side
    rcases @blackBrother_advances κ retval r _ ⟨_ :: above, stacksize⟩ n fits.rotate balanced
      nearBlack.isRed with ended | ⟨r', run, holds', redP⟩
    · exact .inl ended
    · exact .inr ⟨_, run, holds', room _, black, .inl redP⟩

private theorem balanceTurn_overruns (full : AtFullStack st)
    : balanceTurn retval st = some (.inl .overrun) := by
  obtain ⟨r, entries, stacksize⟩ := st
  obtain ⟨black, noRoom, p, head, red⟩ := full
  cases entries with
  | nil => cases head
  | cons p' above =>
    cases head
    unfold balanceTurn
    simp only [black, Bool.false_eq_true, if_false]
    cases sibling : p.sibling with
    | nil =>
      rw [sibling] at red
      cases red
    | node red2 key2 left right =>
      rw [sibling] at red
      cases red
      have noRoom : ∀ f : Frame κ, NodeStack.sp ⟨f :: above, stacksize⟩ = stacksize := fun _ => noRoom
      simp only
      rw [NodeStack.push_of_full (noRoom _)]

def Balancing.left (st : Balancing κ) : Nat := if st.r.isRed then 0 else st.stack.sp + 1

private theorem balanceTurn_progresses
    : Progresses (balanceTurn retval)
        (fun st => st.Holds ∧ st.stack.sp ≤ st.stack.stacksize ∧ ¬ AtFullStack st)
        (Rebalances retval) Balancing.left := by
  rintro st ⟨holds, inside, safe⟩
  rcases balanceTurn_advances holds inside safe with ⟨tree, run, valid⟩
    | ⟨st', run, holds', room, black, less⟩
  · exact .inl ⟨_, run, valid, rfl⟩
  · refine .inr ⟨st', run, ⟨holds', room.le, fun full => room.ne full.2.1⟩, ?_⟩
    unfold Balancing.left
    rw [black]
    rcases less with red | above
    · rw [if_pos red]
      exact Nat.succ_pos _
    · split
      · exact Nat.succ_pos _
      · exact Nat.add_lt_add_right above 1

theorem balance_ends (holds : st.Holds) (inside : st.stack.sp ≤ st.stack.stacksize)
    : ∃ deletion, iterate (balanceTurn retval) (st.stack.sp + 2) st = some deletion
      ∧ (AtFullStack st ∧ deletion = .overrun ∨ ¬ AtFullStack st ∧ Rebalances retval deletion) := by
  by_cases full : AtFullStack st
  · refine ⟨.overrun, ?_, .inl ⟨full, rfl⟩⟩
    rw [iterate, balanceTurn_overruns full]
  · have enough : st.left < st.stack.sp + 2 := by
      unfold Balancing.left
      split <;> omega
    obtain ⟨deletion, run, right⟩ := balanceTurn_progresses.iterate _ ⟨holds, inside, full⟩ enough
    exact ⟨deletion, run, .inr ⟨full, right⟩⟩

def Found.rest (unchained : Found κ) : RbTree κ :=
  match unchained.left with
  | .nil => unchained.right
  | left => left

variable {unchained : Found κ} {fs : List (Frame κ)} {path : List Side}

/-- One of two balanced trees is empty: the other one has no black node. -/
theorem Found.rest_balanced {c d : Bool} {n : Nat} (free : unchained.left = .nil ∨ unchained.right = .nil)
    (left : Balanced unchained.left c n) (right : Balanced unchained.right d n)
    : n = 0 ∧ (Balanced unchained.rest c 0 ∨ Balanced unchained.rest d 0) := by
  unfold Found.rest
  rcases free with none | none
  · rw [none] at left
    obtain rfl := left.height_nil
    rw [none]
    exact ⟨rfl, .inr right⟩
  · rw [none] at right
    obtain rfl := right.height_nil
    refine ⟨rfl, ?_⟩
    cases side : unchained.left with
    | nil =>
      rw [none]
      exact .inr right
    | node red key l r =>
      rw [side] at left
      exact .inl left

section

variable (unchains : Unchains whole path unchained fs)
include unchains

/-- Without a black node to lose the tree stays one; else the loop starts with a hole that misses it. -/
theorem Unchains.rest (valid : RedBlack whole)
    : (unchained.red = true → RedBlack (plug unchained.stack.entries unchained.rest))
      ∧ (unchained.red = false → Balancing.Holds ⟨unchained.rest, unchained.stack⟩)
      ∧ (unchained.rest.isRed = false → unchained.rest = .nil) := by
  have start : ∀ {e : Bool}, Fits unchained.stack.entries false 1 → Balanced unchained.rest e 0
      → Balancing.Holds ⟨unchained.rest, unchained.stack⟩ := by
    intro e fits rest
    cases e with
    | false => exact ⟨0, fits, .inl rest⟩
    | true => exact ⟨0, fits, .inr ⟨rest.isRed, rest.setBlack_red⟩⟩
  rw [← unchains.same] at valid
  rcases valid.fits with rfl | ⟨c, n, fits, node⟩
  · have bottom := length_eq_zero_iff.mp unchains.rekeyed.length
    obtain ⟨n, node⟩ := valid
    cases node with
    | black left right =>
      obtain ⟨_, rest | rest⟩ := Found.rest_balanced unchains.free left right
      all_goals
        rw [bottom] at start ⊢
        exact ⟨fun _ => rest.redBlack, fun _ => start .top rest,
          fun black => (rest.ofBlack black).eq_nil⟩
  · replace fits := unchains.rekeyed.fits fits
    obtain ⟨red, key, left, right, stack⟩ := unchained
    cases node with
    | red left right =>
      obtain ⟨rfl, rest | rest⟩ := Found.rest_balanced unchains.free left right
      all_goals
        exact ⟨fun _ => fits.ofRed.redBlack rest, nofun, fun black => (rest.ofBlack black).eq_nil⟩
    | black left right =>
      obtain ⟨rfl, rest | rest⟩ := Found.rest_balanced unchains.free left right
      all_goals
        exact ⟨nofun, fun _ => start fits rest, fun black => (rest.ofBlack black).eq_nil⟩

private theorem Unchains.leaf_iff
    : (∃ key, whole.at_ path = .node false key .nil .nil)
      ↔ unchained.red = false ∧ unchained.rest = .nil := by
  rw [← unchains.same, unchains.path, plug_at]
  obtain ⟨red, key, left, right, stack⟩ := unchained
  unfold Found.node Found.rest
  constructor
  · rintro ⟨key', leaf⟩
    injection leaf with isBlack _ noLeft noRight
    rw [noLeft, noRight]
    exact ⟨isBlack, rfl⟩
  · rintro ⟨isBlack, empty⟩
    cases left with
    | nil =>
      simp only at empty
      exact ⟨key, by rw [isBlack, empty]⟩
    | node => cases empty

private theorem Unchains.brother_iff (below : 0 < unchained.stack.sp)
    : (∃ p ∈ unchained.stack.entries.head?, p.sibling.isRed = true)
      ↔ (whole.at_ (siblingPath path)).isRed = true := by
  have siblings := unchains.rekeyed.siblings
  rw [← unchains.same, unchains.path]
  cases fs with
  | nil =>
    have none := unchains.rekeyed.length
    exact absurd below (by rw [NodeStack.sp, none]; exact Nat.lt_irrefl 0)
  | cons f fs =>
    cases entries : unchained.stack.entries with
    | nil =>
      rw [entries] at siblings
      cases siblings
    | cons p above =>
      rw [entries] at siblings
      rw [plug_siblingPath, ← (List.cons.inj siblings).1]
      constructor
      · rintro ⟨p', here, red⟩
        cases here
        exact red
      · exact fun red => ⟨p, rfl, red⟩

/-- The loop starts with a red brother below a full stack exactly when the unchained node is a black leaf
with such a brother.
-/
theorem Unchains.atFullStack_iff (valid : RedBlack whole) (black : unchained.red = false)
    : AtFullStack ⟨unchained.rest, unchained.stack⟩ ↔ RedBrotherAtFull whole path := by
  have depth : path.length = unchained.stack.sp := by
    rw [unchains.path, length_pathOf]
    exact unchains.rekeyed.length.symm
  obtain ⟨_, _, empty⟩ := unchains.rest valid
  unfold AtFullStack RedBrotherAtFull
  rw [unchains.grown.full_iff, depth, unchains.leaf_iff]
  constructor
  · rintro ⟨restBlack, ⟨deep, multiple⟩, brother⟩
    have below : 0 < unchained.stack.sp := Nat.lt_of_lt_of_le (by decide) deep
    exact ⟨deep, multiple, ⟨black, empty restBlack⟩, (unchains.brother_iff below).mp brother⟩
  · rintro ⟨deep, multiple, ⟨_, none⟩, brother⟩
    have below : 0 < unchained.stack.sp := Nat.lt_of_lt_of_le (by decide) deep
    exact ⟨by rw [none]; rfl, ⟨deep, multiple⟩, (unchains.brother_iff below).mpr brother⟩

private theorem unchain_ends (valid : RedBlack whole)
    : ∃ deletion, unchain retval unchained = some deletion
      ∧ (RedBrotherAtFull whole path ∧ deletion = .overrun
        ∨ ¬ RedBrotherAtFull whole path ∧ Rebalances retval deletion) := by
  obtain ⟨redDone, blackStarts, _⟩ := unchains.rest valid
  unfold unchain
  by_cases red : unchained.red = true
  · simp only [if_pos red]
    refine ⟨_, rfl, .inr ⟨?_, redDone red, rfl⟩⟩
    rintro ⟨_, _, ⟨key, leaf⟩, _⟩
    rw [← unchains.same, unchains.path, plug_at] at leaf
    injection leaf with red'
    rw [red'] at red
    cases red
  · simp only [if_neg red]
    rw [Bool.not_eq_true] at red
    rw [← unchains.atFullStack_iff valid red]
    exact balance_ends (blackStarts red) unchains.grown.inside

end

/-- `tdelete` overruns its stack at a black leaf with a red brother below a full stack; else it ends with a
red-black tree, or there is no such key.
-/
theorem tdelete_ends (key : κ) (valid : RedBlack t) (compar : κ → κ → Int)
    : ∃ deletion, tdelete key t compar = some deletion ∧ match unchainedPath (compar key) t with
        | none => deletion = .notFound
        | some path => RedBrotherAtFull t path ∧ deletion = .overrun ∨ ¬ RedBrotherAtFull t path
              ∧ ∃ tree retval, deletion = .deleted tree retval ∧ RedBlack tree := by
  have search := @searchDescent_ends κ t t _ (compar key) NodeStack.init_grown rfl
  unfold tdelete
  cases ends : searchDescent (compar key) .init t with
  | inl deletion =>
    rw [ends] at search
    rw [search.2]
    exact ⟨deletion, rfl, search.1⟩
  | inr root =>
    rw [ends] at search
    obtain ⟨grown, same, found⟩ := search
    obtain ⟨unchained, fs, run, unchains⟩ := unchainedOf_unchains grown same
    simp only [run]
    cases path : unchainedPath (compar key) t with
    | none =>
      rw [path] at found
      cases found
    | some path' =>
      rw [path, Option.map_some, Option.some.injEq] at found
      rw [← found] at unchains
      obtain ⟨deletion, run', right⟩ := @unchain_ends κ t (root.stack.entries.head?.map Frame.key)
        _ _ _ unchains valid
      refine ⟨deletion, run', right.imp_right fun ⟨notFull, right⟩ => ⟨notFull, ?_⟩⟩
      cases deletion with
      | overrun => exact right.elim
      | notFound => exact right.elim
      | deleted tree retval => exact ⟨tree, retval, rfl, right.1⟩

/-- Every push of `tdelete` is inside of the stack unless the node that is unchained is a black leaf with a
red brother at one of the depths 40, 60, 80 and so on.
-/
theorem tdelete_inside_iff (key : κ) (t : RedBlackTree κ) (compar : κ → κ → Int)
    : (∃ deletion, tdelete key t.tree compar = some deletion ∧ deletion ≠ .overrun)
      ↔ ∀ path, unchainedPath (compar key) t.tree = some path → ¬ RedBrotherAtFull t.tree path := by
  obtain ⟨deletion, run, ends⟩ := tdelete_ends key t.valid compar
  rw [run]
  cases found : unchainedPath (compar key) t.tree with
  | none =>
    rw [found] at ends
    exact ⟨nofun, fun _ => ⟨deletion, rfl, by rw [ends]; exact nofun⟩⟩
  | some path =>
    rw [found] at ends
    rcases ends with ⟨full, overrun⟩ | ⟨notFull, tree, retval, deleted, _⟩
    · constructor
      · rintro ⟨_, same, inside⟩
        cases same
        exact absurd overrun inside
      · exact fun notFull => absurd full (notFull path rfl)
    · refine ⟨fun _ path' same => ?_, fun _ => ⟨deletion, rfl, by rw [deleted]; exact nofun⟩⟩
      cases same
      exact notFull

/-- A search tree with keys from `low` and below `high`. -/
def Ordered : Nat → Nat → RbTree Nat → Prop
  | low, high, .nil => low ≤ high
  | low, high, .node _ key left right => Ordered low key left ∧ Ordered (key + 1) high right

theorem Ordered.setBlack {t : RbTree Nat} {low high : Nat} (ordered : Ordered low high t)
    : Ordered low high t.setBlack := by
  cases t <;> exact ordered

/-- The full tree of black nodes with a height, whose smallest key is `low`. -/
def fullTree : Nat → Nat → RbTree Nat
  | 0, _ => .nil
  | height + 1, low =>
    .node false (low + 2 ^ height - 1) (fullTree height low) (fullTree height (low + 2 ^ height))

def spineSize : Nat → Nat
  | 0 => 5
  | k + 1 => spineSize k + 2 ^ (k / 2 + 2)

/-- A deepest black leaf with a red brother, below `k` and one more nodes of alternating colours, whose
right subtrees are full.
-/
def spine : Nat → RbTree Nat
  | 0 => .node false 1 (.node false 0 .nil .nil)
      (.node true 3 (.node false 2 .nil .nil) (.node false 4 .nil .nil))
  | k + 1 => .node (k % 2 = 0) (spineSize k) (spine k) (fullTree (k / 2 + 2) (spineSize k + 1))

theorem fullTree_balanced (height low : Nat) : Balanced (fullTree height low) false height := by
  induction height generalizing low with
  | zero => exact .nil
  | succ height ih => exact .black (ih _) (ih _)

theorem fullTree_ordered (height low : Nat) : Ordered low (low + 2 ^ height - 1) (fullTree height low) := by
  induction height generalizing low with
  | zero => exact le_rfl
  | succ height ih =>
    have pos : 0 < 2 ^ height := Nat.two_pow_pos height
    have next := ih (low + 2 ^ height)
    rw [show low + 2 ^ height + 2 ^ height - 1 = low + 2 ^ (height + 1) - 1 by omega] at next
    exact ⟨ih low, by rwa [Nat.sub_add_cancel (by omega)]⟩

private theorem spine_balanced (k : Nat) : Balanced (spine k) (k % 2 = 1) (k / 2 + 2) := by
  induction k with
  | zero => exact .black (.black .nil .nil) (.red (.black .nil .nil) (.black .nil .nil))
  | succ k ih =>
    have right := fullTree_balanced (k / 2 + 2) (spineSize k + 1)
    unfold spine
    rcases Nat.mod_two_eq_zero_or_one k with even | odd
    · have height : (k + 1) / 2 = k / 2 := by omega
      have next : (k + 1) % 2 = 1 := by omega
      rw [even] at ih ⊢
      rw [height, next]
      exact .red ih right
    · have height : (k + 1) / 2 = k / 2 + 1 := by omega
      have next : (k + 1) % 2 = 0 := by omega
      rw [odd] at ih ⊢
      rw [height, next]
      exact .black ih right

theorem spine_ordered (k : Nat) : Ordered 0 (spineSize k) (spine k) := by
  induction k with
  | zero => exact ⟨⟨le_rfl, le_rfl⟩, ⟨le_rfl, le_rfl⟩, le_rfl, le_rfl⟩
  | succ k ih =>
    refine ⟨ih, ?_⟩
    have right := fullTree_ordered (k / 2 + 2) (spineSize k + 1)
    have size : spineSize k + 1 + 2 ^ (k / 2 + 2) - 1 = spineSize (k + 1) :=
      Nat.sub_eq_of_eq_add (Nat.add_right_comm _ _ _)
    rwa [size] at right

def deepTree : RedBlackTree Nat where
  tree := (spine 39).setBlack
  valid := (spine_balanced 39).redBlack.setBlack

def byDifference (a b : Nat) : Int := a - b

theorem deepTree_ordered : Ordered 0 (spineSize 39) deepTree.tree := (spine_ordered 39).setBlack

set_option maxRecDepth 4000 in
/-- The smallest key of a deep search tree cannot be deleted inside of the stack. -/
theorem tdelete_overruns : Ordered 0 (spineSize 39) deepTree.tree
    ∧ tdelete 0 deepTree.tree byDifference = some .overrun := by
  refine ⟨deepTree_ordered, ?_⟩
  rfl

end Nglibc.Misc
