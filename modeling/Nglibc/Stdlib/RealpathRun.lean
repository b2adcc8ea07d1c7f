import Nglibc.Stdlib.Realpath

/-! `realpath` resolves names. The loop is followed along the resolution of the components. -/

namespace Nglibc.Canonicalize

open Nglibc.Paths List

theorem growTo_ge {size : Nat} (positive : 0 < size) (need : Nat)
    : need ≤ growTo size need ∧ size ≤ growTo size need := by
  induction size using growTo.induct need with
  | case1 size enough =>
    rw [growTo, if_pos enough]
    omega
  | case2 size short ih =>
    rw [growTo, if_neg short]
    omega

theorem put_ok {size pos count : Nat} (inside : pos + count ≤ size) : put size pos count = .ok () :=
  if_pos inside

theorem backUp_length (dest : List UInt8) : (backUp dest).length ≤ dest.length := by
  unfold backUp
  split_ifs
  · exact (List.rdropWhile_prefix _ _).length_le.trans (List.dropLast_prefix _).length_le
  · exact le_rfl

def Resolving.PointsTo (st : Resolving) (name : CString) (place : Place) (text : List UInt8) : Prop :=
  0 ∉ text ∧ ∃ behind, st.memory name place = text ++ 0 :: behind

section

variable {st : Resolving} {name : CString} {place : Place} {text : List UInt8}

theorem takeWhile_nul {text : List UInt8} (noNul : 0 ∉ text) (behind : List UInt8)
    : (text ++ 0 :: behind).takeWhile (· ≠ 0) = text := by
  have all : ∀ c ∈ text, decide (c ≠ 0) = true := by
    intro c member
    rw [decide_eq_true_iff]
    rintro rfl
    exact noNul member
  rw [takeWhile_append_of_pos all, takeWhile_cons_of_neg (by decide), append_nil]

theorem Resolving.PointsTo.text_eq (points : st.PointsTo name place text)
    : st.text name place = text := by
  obtain ⟨noNul, behind, memory⟩ := points
  unfold Resolving.text
  rw [memory, takeWhile_nul noNul]

/-- The string behind some of its characters. -/
theorem Resolving.PointsTo.advance (points : st.PointsTo name place text) {k : Nat}
    (inside : k ≤ text.length)
    : st.PointsTo name (place.advance k) (text.drop k) := by
  obtain ⟨noNul, behind, memory⟩ := points
  refine ⟨fun member => noNul (mem_of_mem_drop member), behind, ?_⟩
  have same : st.memory name (place.advance k) = (st.memory name place).drop k := by
    unfold Resolving.memory Place.advance
    cases place.inExtra <;> simp
  rw [same, memory, drop_append_of_le_length inside]

private theorem drop_component (text : List UInt8)
    : text.length - (skipSlashes text).length + (component (skipSlashes text)).length ≤ text.length
      ∧ text.drop (text.length - (skipSlashes text).length + (component (skipSlashes text)).length)
        = afterComponent (skipSlashes text) := by
  obtain ⟨front, split⟩ : skipSlashes text <:+ text := dropWhile_suffix _
  have parts : component (skipSlashes text) ++ afterComponent (skipSlashes text)
      = skipSlashes text := takeWhile_append_dropWhile
  have length := congrArg List.length split
  have lengths := congrArg List.length parts
  rw [length_append] at length lengths
  have count : text.length - (skipSlashes text).length + (component (skipSlashes text)).length
      = (front ++ component (skipSlashes text)).length := by
    rw [length_append]
    omega
  have whole : text = (front ++ component (skipSlashes text)) ++ afterComponent (skipSlashes text) := by
    rw [append_assoc, parts, split]
  refine ⟨by omega, ?_⟩
  rw [count]
  exact (congrArg (List.drop _) whole).trans drop_left

/-- Two writes that follow each other, the second one first. -/
theorem overwrite_overwrite (bytes front new : List UInt8) (inside : front.length ≤ bytes.length)
    : overwrite (overwrite bytes front.length new) 0 front
      = front ++ (new ++ bytes.drop (front.length + new.length)) := by
  have length : (bytes.take front.length).length = front.length := length_take_of_le inside
  unfold overwrite
  rw [take_zero, nil_append, Nat.zero_add, append_assoc, drop_left' length]

/-- The new text stands in the buffer, whether or not the old one did. -/
theorem expandLink_ok (points : st.PointsTo name place text) (positive : 0 < st.extra.length)
    (target : CString) (old : Resolving)
    : ∃ extra, expandLink st name place target = .ok extra ∧ 0 < extra.length
      ∧ ({ old with extra := extra } : Resolving).PointsTo name ⟨true, 0⟩ (target.bytes ++ text) := by
  obtain ⟨noNul, behind, memory⟩ := id points
  have same := points.text_eq
  unfold expandLink
  dsimp only
  rw [same]
  have grown := growTo_ge positive (text.length + target.bytes.length + 1)
  generalize growTo st.extra.length (text.length + target.bytes.length + 1) = size at grown
  have moved : ({ st with extra := st.extra ++ List.replicate (size - st.extra.length) 0 }
      : Resolving).memory name place = text ++ 0 :: (behind ++ (if place.inExtra
        then List.replicate (size - st.extra.length) 0 else [])) := by
    unfold Resolving.memory at memory ⊢
    cases inExtra : place.inExtra with
    | false =>
      rw [inExtra] at memory
      simpa using memory
    | true =>
      rw [inExtra, if_pos rfl] at memory
      have bound : place.offset ≤ st.extra.length := by
        by_contra outside
        rw [drop_eq_nil_of_le (by omega)] at memory
        simp at memory
      rw [drop_append_of_le_length bound, memory]
      simp
  rw [moved, put_ok (by omega), put_ok (by omega), append_cons,
    take_left' (by simp), overwrite_overwrite _ _ _ (by simp; omega)]
  generalize List.drop _ (st.extra ++ _) = rest
  refine ⟨_, rfl, by simp, fun member => ?_, rest, ?_⟩
  · exact (mem_append.mp member).elim target.noNul noNul
  · unfold Resolving.memory
    simp

end

section

variable {fs : FileSystem} {path : List (List UInt8)} (valid : ∀ name ∈ path, ValidName name)

include valid

theorem readlink_joined
    : fs.readlink (joined path) = match fs.root.find path with
        | .ok (.link target) => .ok target
        | .ok _ => .error .EINVAL
        | .error e => .error e := by
  have same := components_joined valid [] (.inl rfl)
  rw [append_nil, components_nil, append_nil] at same
  unfold FileSystem.readlink
  cases found : fs.root.find path with
  | error e => simp only [same, found]
  | ok node => cases node <;> simp only [same, found]

theorem fileAccessible_joined
    : fs.fileAccessible (joined path ++ [slash]) = match fs.root.find path with
        | .ok (.dir _) => .ok ()
        | .ok _ => .error .ENOTDIR
        | .error e => .error e := by
  have same := components_joined valid [slash] (.inr rfl)
  rw [components_slashes (cons_ne_nil _ _) (by decide)] at same
  unfold FileSystem.fileAccessible
  cases found : fs.root.find path with
  | error e => simp only [same, Node.find_append, found, Except.bind]
  | ok node => cases node <;> simp only [same, Node.find_append, found, Except.bind, Node.find, if_true]

end

variable {comp : List UInt8} {path : List (List UInt8)}

/-- An entry is missing, or something before it is not a directory. -/
theorem Node.find_error {root : Node} {e : Errno} (failed : root.find path = .error e)
    : e ≠ .EINVAL := by
  induction path generalizing root with
  | nil => cases root <;> cases failed
  | cons c path ih =>
    cases root with
    | dir entries =>
      unfold Node.find at failed
      split_ifs at failed
      · exact ih failed
      · cases found : entries.lookup c with
        | none =>
          rw [found] at failed
          cases failed
          decide
        | some node =>
          rw [found] at failed
          exact ih failed
    | file =>
      cases failed
      decide
    | link target =>
      cases failed
      decide

/-- The loop has resolved the components before `text` to the path `cur`, which is a directory or
will be found out not to be one.
-/
structure Resolving.Reached (fs : FileSystem) (name : CString) (st : Resolving)
    (cur : List (List UInt8)) (text : List UInt8) : Prop where
  points : st.PointsTo name st.start text
  renders : Renders st.dest cur
  canonical : Canonical fs.root cur
  room : st.dest.length < st.rname
  extra : 0 < st.extra.length
  link : 0 < st.link
  dir : fs.root.IsDir cur ∨ needsCheck (components text) = false

def Ended.Agrees (ended : Ended) (result : Except Errno (List (List UInt8))) : Prop :=
  ended.dest.length < ended.rname
  ∧ match result with
    | .ok path => ended.error = none ∧ Renders ended.dest path
    | .error e => ended.error = some e

def Resolving.Ends (fs : FileSystem) (threshold : Nat) (name : CString) (st : Resolving)
    (result : Except Errno (List (List UInt8))) : Prop :=
  ∃ enough ended, (∀ fuel, enough ≤ fuel → realpathLoop fs threshold name fuel st = .ok ended)
    ∧ ended.Agrees result

section

variable {fs : FileSystem} {threshold : Nat} {name : CString} {st st' : Resolving}
  {result : Except Errno (List (List UInt8))}

theorem Resolving.Ends.of_step
    (step : ∀ fuel, realpathLoop fs threshold name (fuel + 1) st
      = realpathLoop fs threshold name fuel st')
    (ends : st'.Ends fs threshold name result)
    : st.Ends fs threshold name result := by
  obtain ⟨enough, ended, runs, agrees⟩ := ends
  refine ⟨enough + 1, ended, fun fuel le => ?_, agrees⟩
  obtain ⟨fuel, rfl⟩ : ∃ less, fuel = less + 1 := ⟨fuel - 1, by omega⟩
  rw [step]
  exact runs fuel (by omega)

theorem Resolving.Ends.of_done (ended : Ended)
    (step : ∀ fuel, realpathLoop fs threshold name (fuel + 1) st = .ok ended)
    (agrees : ended.Agrees result)
    : st.Ends fs threshold name result := by
  refine ⟨1, ended, fun fuel le => ?_, agrees⟩
  obtain ⟨fuel, rfl⟩ : ∃ less, fuel = less + 1 := ⟨fuel - 1, by omega⟩
  exact step fuel

variable {cur : List (List UInt8)} {text : List UInt8}

theorem Resolving.Reached.ends_nil (reached : st.Reached fs name cur text)
    (body : skipSlashes text = []) (links : Nat)
    : st.Ends fs threshold name (walk fs.root links cur (components text)) := by
  have resolved : walk fs.root links cur (components text) = .ok cur := by
    by_cases empty : text = []
    · rw [empty, components_nil, walk_nil]
    · have comps := components_slashes empty body
      have dir := reached.dir.resolve_right (by rw [comps]; decide)
      rw [comps, walk_dot links [] dir, walk_nil]
  refine .of_done ⟨none, st.dest, st.rname⟩ (fun fuel => ?_) ⟨reached.room, ?_⟩
  · rw [realpathLoop, reached.points.text_eq, body]
    rfl
  · rw [resolved]
    exact ⟨rfl, reached.renders⟩

/-- The pointer behind the component at the front. -/
def Resolving.stop (st : Resolving) (text : List UInt8) : Place := st.start.advance
    (text.length - (skipSlashes text).length + (component (skipSlashes text)).length)

theorem Resolving.Reached.stop_points (reached : st.Reached fs name cur text)
    : st.PointsTo name (st.stop text) (afterComponent (skipSlashes text)) := by
  obtain ⟨inside, same⟩ := drop_component text
  rw [← same]
  exact reached.points.advance inside

theorem afterComponent_boundary (text : List UInt8)
    : afterComponent text = [] ∨ (afterComponent text).head? = some slash := by
  unfold afterComponent
  cases rest : text.dropWhile (fun c => decide (c ≠ slash)) with
  | nil => exact .inl rfl
  | cons c rest' =>
    refine .inr (congrArg some ?_)
    have nonempty : text.dropWhile (fun c => decide (c ≠ slash)) ≠ [] := by
      rw [rest]
      exact cons_ne_nil _ _
    have head := head_dropWhile_not _ nonempty
    simp only [rest, head_cons, decide_eq_false_iff_not, not_not] at head
    exact head

/-- A component ".". -/
theorem Resolving.Reached.dot (reached : st.Reached fs name cur text) {c : UInt8}
    {rest : List UInt8} (body : skipSlashes text = c :: rest)
    (same : component (c :: rest) = Paths.dot)
    : (∀ fuel, realpathLoop fs threshold name (fuel + 1) st
        = realpathLoop fs threshold name fuel { st with start := st.stop text })
      ∧ ({ st with start := st.stop text } : Resolving).Reached fs name cur
        (afterComponent (c :: rest))
      ∧ ∀ links, walk fs.root links cur (components text)
        = walk fs.root links cur (components (afterComponent (c :: rest))) := by
  have comps := components_cons body
  rw [same] at comps
  have points := reached.stop_points
  rw [body] at points
  refine ⟨fun fuel => ?_, ?_, fun links => ?_⟩
  · rw [realpathLoop, reached.points.text_eq]
    rw [if_neg (by rw [body, same]; decide), if_pos (by rw [body, same])]
    rfl
  · refine ⟨points, reached.renders, reached.canonical, reached.room, reached.extra, reached.link,
      ?_⟩
    have dir := reached.dir
    rw [comps, needsCheck, if_pos rfl, Bool.or_eq_false_iff] at dir
    exact dir.imp_right And.right
  · rw [comps]
    by_cases empty : components (afterComponent (c :: rest)) = []
    · have dir := reached.dir.resolve_right (by rw [comps, empty]; decide)
      exact walk_dot links _ dir
    · exact walk_dot_before fs.root links cur [] _ empty

/-- A component "..". -/
theorem Resolving.Reached.dotDot (reached : st.Reached fs name cur text) {c : UInt8}
    {rest : List UInt8} (body : skipSlashes text = c :: rest)
    (same : component (c :: rest) = Paths.dotDot)
    : (∀ fuel, realpathLoop fs threshold name (fuel + 1) st = realpathLoop fs threshold name fuel
          { st with dest := backUp st.dest, start := st.stop text })
      ∧ ({ st with dest := backUp st.dest, start := st.stop text } : Resolving).Reached fs name
        cur.dropLast (afterComponent (c :: rest))
      ∧ ∀ links, walk fs.root links cur (components text)
        = walk fs.root links cur.dropLast (components (afterComponent (c :: rest))) := by
  have comps := components_cons body
  rw [same] at comps
  have points := reached.stop_points
  rw [body] at points
  have dir := reached.dir.resolve_right (by rw [comps, needsCheck, if_neg (by decide)]; simp)
  refine ⟨fun fuel => ?_, ?_, fun links => ?_⟩
  · rw [realpathLoop, reached.points.text_eq]
    rw [if_neg (by rw [body, same]; decide), if_neg (by rw [body, same]; decide),
      if_pos (by rw [body, same])]
    rfl
  · have shorter : (backUp st.dest).length ≤ st.dest.length := backUp_length st.dest
    have room := reached.room
    exact ⟨points, reached.renders.backUp reached.canonical.names, reached.canonical.dropLast,
      by dsimp only; omega, reached.extra, reached.link, .inl dir.dropLast⟩
  · rw [comps]
    exact walk_dotDot links _ dir

end

def Resolving.kept (st : Resolving) (dest : List UInt8) (rname : Nat) (stop : Place) : Resolving :=
  { st with dest, rname, start := stop }

def Resolving.linked (st : Resolving) (dest : List UInt8) (rname : Nat) (target : CString)
    (extra : List UInt8) : Resolving :=
  ⟨if target.bytes.head? = some slash then [slash] else backUp dest, rname, extra,
    growTo st.link (target.bytes.length + 2), ⟨true, 0⟩, st.links + 1⟩

section

variable {fs : FileSystem} {name : CString} {st : Resolving} {cur : List (List UInt8)}
  {text : List UInt8} (reached : st.Reached fs name cur text)

include reached

theorem Resolving.Reached.appendComponent (comp : List UInt8)
    : ∃ rname, Canonicalize.appendComponent st.dest st.rname comp = .ok (joined (cur ++ [comp]), rname)
      ∧ (joined (cur ++ [comp])).length + 2 ≤ rname := by
  have room := reached.room
  have grown := growTo_ge (by omega : 0 < st.rname) ((joined cur ++ [slash]).length + comp.length + 2)
  have split : joined (cur ++ [comp]) = joined cur ++ [slash] ++ comp := by
    rw [joined_append, append_cons]
  refine ⟨growTo st.rname ((joined cur ++ [slash]).length + comp.length + 2), ?_, ?_⟩
  · unfold Canonicalize.appendComponent
    rw [reached.renders.endWithSlash reached.canonical.names room]
    dsimp only [bind, Except.bind]
    rw [put_ok (by omega), split]
    rfl
  · rw [split, length_append]
    omega

/-- One iteration with an ordinary component. -/
theorem Resolving.Reached.loop_name (threshold : Nat) (valid : ValidName comp)
    (front : component (skipSlashes text) = comp)
    : ∃ rname, (joined (cur ++ [comp])).length + 2 ≤ rname
      ∧ ∀ fuel, realpathLoop fs threshold name (fuel + 1) st
        = match fs.root.find (cur ++ [comp]) with
          | .error e => .ok ⟨some e, joined (cur ++ [comp]), rname⟩
          | .ok (.link target) =>
            if st.links + 1 > threshold then .ok ⟨some .ELOOP, joined (cur ++ [comp]), rname⟩
            else (expandLink st name (st.stop text) target).bind fun extra =>
              realpathLoop fs threshold name fuel
                (st.linked (joined (cur ++ [comp])) rname target extra)
          | .ok (.dir _) =>
            realpathLoop fs threshold name fuel
              (st.kept (joined (cur ++ [comp])) rname (st.stop text))
          | .ok .file =>
            if needsCheck (components (afterComponent (skipSlashes text))) then
              .ok ⟨some .ENOTDIR, joined (cur ++ [comp]), rname⟩
            else
              realpathLoop fs threshold name fuel
                (st.kept (joined (cur ++ [comp])) rname (st.stop text)) := by
  obtain ⟨rname, appended, room⟩ := reached.appendComponent comp
  have names := validNames_concat reached.canonical.names valid
  have check := suffixRequiresDirCheck_eq _ (afterComponent_boundary (skipSlashes text))
  refine ⟨rname, room, fun fuel => ?_⟩
  rw [realpathLoop, reached.points.text_eq]
  rw [front, if_neg valid.nonempty, if_neg valid.notDot, if_neg valid.notDotDot, appended]
  dsimp only [bind, Except.bind, pure, Except.pure]
  have stop : st.start.advance (text.length - (skipSlashes text).length + comp.length)
      = st.stop text := by
    rw [← front]
    rfl
  rw [readlink_joined names, stop, reached.stop_points.text_eq, check, put_ok room,
    fileAccessible_joined names]
  cases found : fs.root.find (cur ++ [comp]) with
  | error e =>
    have notInvalid : e ≠ .EINVAL := Node.find_error found
    dsimp only
    rw [if_neg notInvalid, ite_self]
  | ok node =>
    cases node with
    | link target =>
      have grown := growTo_ge reached.link (target.bytes.length + 2)
      dsimp only
      rw [put_ok (by omega), put_ok (by omega)]
      congr 1
      unfold Resolving.linked
      cases expandLink st name (st.stop text) target with
      | error e => rfl
      | ok extra =>
        split_ifs <;> rfl
    | dir entries =>
      dsimp only
      rw [if_pos rfl, ite_self]
      rfl
    | file =>
      rfl

/-- An entry that cannot be reached stops the resolution. -/
theorem Resolving.Reached.walk_error (valid : ValidName comp) {e : Errno}
    (missing : fs.root.find (cur ++ [comp]) = .error e) (links : Nat) (rest : List (List UInt8))
    : walk fs.root links cur (comp :: rest) = .error e := by
  obtain ⟨node, here, -⟩ := reached.canonical.entries cur (prefix_rfl)
  by_cases dir : fs.root.IsDir cur
  · exact walk_missing links rest valid.notDot valid.notDotDot dir missing
  · have notDir : ∀ entries, node ≠ .dir entries := by
      rintro entries rfl
      exact dir ⟨entries, here⟩
    rw [Node.find_below here notDir] at missing
    cases missing
    exact walk_notDir links rest here notDir comp

theorem Resolving.Reached.kept (valid : ValidName comp) {node : Node}
    (found : fs.root.find (cur ++ [comp]) = .ok node) (notLink : ¬ node.IsLink)
    (checked : fs.root.IsDir (cur ++ [comp])
      ∨ needsCheck (components (afterComponent (skipSlashes text))) = false)
    {rname : Nat} (room : (joined (cur ++ [comp])).length + 2 ≤ rname)
    : (st.kept (joined (cur ++ [comp])) rname (st.stop text)).Reached fs name (cur ++ [comp])
        (afterComponent (skipSlashes text)) where
  points := reached.stop_points
  renders := .inr ⟨by simp, rfl⟩
  canonical := reached.canonical.append valid found notLink
  room := by
    unfold Resolving.kept
    dsimp only
    omega
  extra := reached.extra
  link := reached.link
  dir := checked

theorem Resolving.Reached.linked (valid : ValidName comp) {target : CString}
    (found : fs.root.find (cur ++ [comp]) = .ok (.link target)) {extra : List UInt8} {rname : Nat}
    (room : (joined (cur ++ [comp])).length + 2 ≤ rname) (positive : 0 < extra.length)
    (points : (st.linked (joined (cur ++ [comp])) rname target extra).PointsTo name ⟨true, 0⟩
      (target.bytes ++ afterComponent (skipSlashes text)))
    : (st.linked (joined (cur ++ [comp])) rname target extra).Reached fs name (linkBase target cur)
        (target.bytes ++ afterComponent (skipSlashes text)) := by
  have grown := growTo_ge reached.link (target.bytes.length + 2)
  have names := validNames_concat reached.canonical.names valid
  have back : Renders (backUp (joined (cur ++ [comp]))) (cur ++ [comp]).dropLast :=
    Renders.backUp names (.inr ⟨by simp, rfl⟩)
  rw [dropLast_concat] at back
  have shorter := backUp_length (joined (cur ++ [comp]))
  have dir := Node.find_parent found
  have link : 0 < growTo st.link (target.bytes.length + 2) := by omega
  unfold Resolving.linked at points ⊢
  unfold linkBase
  split_ifs at points ⊢ with absolute
  · exact ⟨points, .inl rfl, .nil fs.top, by simp only [length_singleton]; omega, positive,
      link, .inl fs.top⟩
  · exact ⟨points, back, reached.canonical, by dsimp only; omega, positive, link, .inl dir⟩

end

/-- The loop resolves the rest of the name. The links that may still be followed become fewer, or
the rest becomes shorter.
-/
theorem Resolving.Reached.ends {fs : FileSystem} {threshold : Nat} {name : CString} {st : Resolving}
    {cur : List (List UInt8)} {text : List UInt8} (reached : st.Reached fs name cur text)
    {left : Nat} (budget : st.links + left = threshold)
    : st.Ends fs threshold name (walk fs.root left cur (components text)) := by
  cases body : skipSlashes text with
  | nil => exact reached.ends_nil body left
  | cons c rest =>
    have shorter := afterComponent_length body
    by_cases isDot : component (c :: rest) = Paths.dot
    · obtain ⟨step, next, same⟩ := reached.dot body isDot
      rw [same]
      exact .of_step step (next.ends budget)
    by_cases isDotDot : component (c :: rest) = Paths.dotDot
    · obtain ⟨step, next, same⟩ := reached.dotDot body isDotDot
      rw [same]
      exact .of_step step (next.ends budget)
    have comps := components_cons body
    have member : component (c :: rest) ∈ components text := by
      rw [comps]
      exact mem_cons_self
    have proper := components_mem text member
    have valid : ValidName (component (c :: rest)) := ⟨proper.1, proper.2, isDot, isDotDot⟩
    obtain ⟨rname, room, step⟩ := reached.loop_name threshold valid (by rw [body])
    rw [comps]
    cases found : fs.root.find (cur ++ [component (c :: rest)]) with
    | error e =>
      simp only [found] at step
      rw [reached.walk_error valid found]
      exact .of_done _ step ⟨by dsimp only; omega, rfl⟩
    | ok node =>
      have dir := Node.find_parent found
      cases node with
      | link target =>
        simp only [found] at step
        rw [walk_link left _ isDot isDotDot dir found]
        cases left with
        | zero =>
          simp only [if_pos (show st.links + 1 > threshold by omega)] at step
          exact .of_done _ step ⟨by dsimp only; omega, rfl⟩
        | succ left =>
          obtain ⟨extra, expanded, positive, points⟩ := expandLink_ok reached.stop_points
            reached.extra target (st.linked (joined (cur ++ [component (c :: rest)])) rname
              target [])
          have next := reached.linked valid found room positive points
          simp only [if_neg (show ¬ st.links + 1 > threshold by omega), expanded] at step
          rw [body] at next
          dsimp only
          rw [walk_components_append _ _ _ (afterComponent_boundary _)]
          exact .of_step step (next.ends (by unfold Resolving.linked; dsimp only; omega))
      | dir entries =>
        simp only [found] at step
        have next := reached.kept valid found id (.inl ⟨entries, found⟩) room
        rw [body] at next
        rw [walk_entry left _ isDot isDotDot dir found id]
        exact .of_step step (next.ends budget)
      | file =>
        simp only [found, body] at step
        rw [walk_entry left _ isDot isDotDot dir found id]
        by_cases check : needsCheck (components (afterComponent (c :: rest))) = true
        · obtain ⟨d, more, later⟩ : ∃ d more, components (afterComponent (c :: rest)) = d :: more := by
            cases later : components (afterComponent (c :: rest)) with
            | nil =>
              rw [later] at check
              cases check
            | cons d more => exact ⟨d, more, rfl⟩
          simp only [if_pos check] at step
          rw [later, walk_notDir left more found (by simp)]
          exact .of_done _ step ⟨by dsimp only; omega, rfl⟩
        · have next := reached.kept valid found id
            (.inr (by rw [body]; exact Bool.eq_false_of_not_eq_true check)) room
          simp only [if_neg check] at step
          rw [body] at next
          exact .of_step step (next.ends budget)
termination_by (left, text.length)

/-- The resolution of a name from the working directory. -/
def FileSystem.resolve (fs : FileSystem) (threshold : Nat) (name : CString)
    : Except Errno (List (List UInt8)) :=
  if name.bytes = [] then .error .ENOENT
  else
    walk fs.root threshold (if name.bytes.head? = some slash then [] else fs.cwd)
      (components name.bytes)

theorem FileSystem.resolve_canonical {fs : FileSystem} {threshold : Nat} {name : CString}
    (resolved : fs.resolve threshold name = .ok path)
    : Canonical fs.root path := by
  unfold FileSystem.resolve at resolved
  split_ifs at resolved
  · exact walk_canonical fs.top (.nil fs.top) (fun c => components_mem name.bytes) resolved
  · exact walk_canonical fs.top fs.cwdCanonical (fun c => components_mem name.bytes) resolved

/-- The state before the first component. -/
theorem startRealpath_reached (fs : FileSystem) (name : CString)
    : ∃ dest rname, startRealpath fs name = .ok (dest, rname)
      ∧ (⟨dest, rname, List.replicate scratchSize 0, scratchSize, ⟨false, 0⟩, 0⟩ : Resolving).Reached
        fs name (if name.bytes.head? = some slash then [] else fs.cwd) name.bytes := by
  have memory : ∀ dest rname, (⟨dest, rname, List.replicate scratchSize 0, scratchSize, ⟨false, 0⟩, 0⟩
      : Resolving).PointsTo name ⟨false, 0⟩ name.bytes :=
    fun dest rname => ⟨name.noNul, [], rfl⟩
  unfold startRealpath
  split_ifs with absolute
  · refine ⟨[slash], scratchSize, rfl, memory _ _, .inl rfl, .nil fs.top, ?_, ?_, ?_, .inl fs.top⟩
    · decide
    · rw [length_replicate]
      decide
    · decide
  · have grown := growTo_ge (show 0 < scratchSize by decide) (fs.getcwd.length + 1)
    refine ⟨fs.getcwd, _, rfl, memory _ _, renders_pathText fs.cwd, fs.cwdCanonical, ?_, ?_, ?_,
      .inl fs.cwdDir⟩
    · dsimp only
      omega
    · rw [length_replicate]
      decide
    · exact Nat.zero_lt_succ _

def returnPath (pathMax : Nat) (resolved : Bool) (path : List (List UInt8)) : RealpathResult :=
  if ¬ resolved then ⟨.ok (pathText path), none⟩
  else if (pathText path).length < pathMax then ⟨.ok (pathText path), some (pathText path)⟩
  else ⟨.error .ENAMETOOLONG, none⟩

theorem finishRealpath_ok (pathMax : Nat) (resolved : Bool) {ended : Ended}
    (names : ∀ n ∈ path, ValidName n) (agrees : ended.Agrees (.ok path))
    : finishRealpath pathMax resolved ended = .ok (returnPath pathMax resolved path) := by
  obtain ⟨room, fine, renders⟩ := agrees
  have stripped := renders.stripped names
  have inside : (pathText path).length + 1 ≤ ended.rname := by
    rw [← stripped]
    split_ifs
    · rw [length_dropLast]
      omega
    · exact room
  unfold finishRealpath returnPath
  simp only [fine, true_and, stripped, put_ok inside]
  split_ifs <;> first | rfl | omega

theorem finishRealpath_error (pathMax : Nat) (resolved : Bool) {ended : Ended} {e : Errno}
    (agrees : ended.Agrees (.error e))
    : ∃ result, finishRealpath pathMax resolved ended = .ok result ∧ result.returned = .error e := by
  obtain ⟨room, failed⟩ := agrees
  have inside : ended.dest.length + 1 ≤ ended.rname := room
  unfold finishRealpath
  simp only [failed, reduceCtorEq, false_and, if_false, put_ok inside]
  split_ifs
  · exact ⟨_, rfl, rfl⟩
  · exact ⟨_, rfl, rfl⟩

/-- How `realpath` ends, given enough fuel. -/
theorem realpath_ends (fs : FileSystem) (threshold pathMax : Nat) (name : CString) (resolved : Bool)
    : ∃ enough result, (∀ fuel, enough ≤ fuel →
        realpath fs threshold pathMax fuel name resolved = .ok result)
      ∧ match fs.resolve threshold name with
        | .ok path => result = returnPath pathMax resolved path
        | .error e => result.returned = .error e := by
  by_cases empty : name.bytes = []
  · refine ⟨0, ⟨.error .ENOENT, none⟩, fun fuel _ => ?_, ?_⟩
    · rw [realpath, if_pos empty]
    · rw [FileSystem.resolve, if_pos empty]
  · obtain ⟨dest, rname, started, reached⟩ := startRealpath_reached fs name
    obtain ⟨enough, ended, runs, agrees⟩ := reached.ends (Nat.zero_add threshold)
    have run : ∀ fuel, enough ≤ fuel → realpath fs threshold pathMax fuel name resolved
        = finishRealpath pathMax resolved ended := by
      intro fuel le
      rw [realpath, if_neg empty, started]
      dsimp only [bind, Except.bind]
      rw [runs fuel le]
    have same : fs.resolve threshold name
        = walk fs.root threshold (if name.bytes.head? = some slash then [] else fs.cwd)
          (components name.bytes) := by
      rw [FileSystem.resolve, if_neg empty]
    rw [← same] at agrees
    cases done : fs.resolve threshold name with
    | ok path =>
      rw [done] at agrees
      have names := (FileSystem.resolve_canonical done).names
      refine ⟨enough, _, fun fuel le => ?_, rfl⟩
      rw [run fuel le, finishRealpath_ok pathMax resolved names agrees]
    | error e =>
      rw [done] at agrees
      obtain ⟨result, finished, failed⟩ := finishRealpath_error pathMax resolved agrees
      refine ⟨enough, result, fun fuel le => ?_, failed⟩
      rw [run fuel le, finished]

/-- Without an overrun of a buffer, `realpath` ends with the canonical path that the name resolves
to, or it fails as the resolution does. Where a caller has a buffer, the path must fit in it.
-/
theorem realpath_resolves (fs : FileSystem) (threshold pathMax : Nat) (name : CString)
    (resolved : Bool)
    : ∃ enough result, (∀ fuel, enough ≤ fuel →
        realpath fs threshold pathMax fuel name resolved = .ok result)
      ∧ match fs.resolve threshold name with
        | .ok path => Canonical fs.root path ∧ result = returnPath pathMax resolved path
        | .error e => result.returned = .error e := by
  obtain ⟨enough, result, runs, agrees⟩ := realpath_ends fs threshold pathMax name resolved
  refine ⟨enough, result, runs, ?_⟩
  cases done : fs.resolve threshold name with
  | ok path =>
    rw [done] at agrees
    exact ⟨FileSystem.resolve_canonical done, agrees⟩
  | error e =>
    rw [done] at agrees
    exact agrees

def longName : List UInt8 := List.replicate 255 97

theorem longName_valid : ValidName longName := by
  constructor <;> decide +kernel

def nested : Nat → Node
  | 0 => .dir []
  | n + 1 => .dir [(longName, nested n)]

theorem nested_find (k n : Nat)
    : (nested (n + k)).find (List.replicate k longName) = .ok (nested n) := by
  induction k with
  | zero => cases n <;> rfl
  | succ k ih =>
    rw [← Nat.add_assoc, replicate_succ, nested, Node.find, if_neg longName_valid.notDot]
    simpa using ih

theorem nested_dir (k n : Nat) : (nested (n + k)).IsDir (List.replicate k longName) := by
  unfold Node.IsDir
  rw [nested_find]
  cases n with
  | zero => exact ⟨_, rfl⟩
  | succ n => exact ⟨_, rfl⟩

private theorem nested_walk (links m k : Nat)
    : walk (nested (m + k)) links (List.replicate k longName) (List.replicate m longName)
      = .ok (List.replicate (m + k) longName) := by
  induction m generalizing k with
  | zero => rw [replicate_zero, walk_nil, Nat.zero_add]
  | succ m ih =>
    have more : List.replicate k longName ++ [longName] = List.replicate (k + 1) longName :=
      replicate_succ'.symm
    have shift : m + 1 + k = m + (k + 1) := by omega
    have dir := nested_dir k (m + 1)
    obtain ⟨entries, found⟩ := nested_dir (k + 1) m
    rw [shift] at dir ⊢
    rw [replicate_succ, walk_entry links _ longName_valid.notDot longName_valid.notDotDot dir
      (by rw [more]; exact found) id, more]
    exact ih (k + 1)

def deep : FileSystem where
  root := nested 16
  top := nested_dir 0 16
  cwd := []
  cwdDir := nested_dir 0 16
  cwdCanonical := .nil (nested_dir 0 16)

def deepName : CString := ⟨joined (List.replicate 16 longName), by decide +kernel⟩

private theorem deep_resolve : deep.resolve 40 deepName = .ok (List.replicate 16 longName) := by
  have valid : ∀ n ∈ List.replicate 16 longName, ValidName n := by
    intro n member
    rw [eq_of_mem_replicate member]
    exact longName_valid
  have comps := components_joined valid [] (.inl rfl)
  rw [components_nil, append_nil] at comps
  have absolute : (joined (List.replicate 16 longName)).head? = some slash := rfl
  have nonempty : joined (List.replicate 16 longName) ≠ [] := by
    intro empty
    rw [empty] at absolute
    cases absolute
  unfold FileSystem.resolve deepName
  rw [comps]
  exact nested_walk 40 16 0

/-- The innermost directory can be reached, but its path does not fit in a buffer of `PATH_MAX`
bytes.
-/
theorem realpath_deep_tooLong
    : deep.resolve 40 deepName = .ok (List.replicate 16 longName)
      ∧ ∃ enough, ∀ fuel, enough ≤ fuel →
        realpath deep 40 4096 fuel deepName true = .ok ⟨.error .ENAMETOOLONG, none⟩ := by
  obtain ⟨enough, result, runs, agrees⟩ := realpath_ends deep 40 4096 deepName true
  rw [deep_resolve] at agrees
  have length : (pathText (List.replicate 16 longName)).length = 4096 := by decide +kernel
  refine ⟨deep_resolve, enough, fun fuel le => ?_⟩
  rw [runs fuel le, agrees, returnPath, if_neg (by decide), if_neg (by rw [length]; decide)]

end Nglibc.Canonicalize
