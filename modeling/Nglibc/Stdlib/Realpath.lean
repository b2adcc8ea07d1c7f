import Mathlib.Data.List.DropRight
import Nglibc.Lib.PathResolution

/-! `realpath` of `stdlib/canonicalize.c`, where memory can be allocated. Every write to a scratch
buffer is checked.
-/

namespace Nglibc.Canonicalize

open Nglibc.Paths List

def pathText (path : List (List UInt8)) : List UInt8 :=
  if path = [] then [slash] else path.flatMap (slash :: ·)

structure FileSystem where
  root : Node
  top : root.IsDir []
  cwd : List (List UInt8)
  cwdDir : root.IsDir cwd
  cwdCanonical : Canonical root cwd

namespace FileSystem

variable (fs : FileSystem)

def getcwd : List UInt8 := pathText fs.cwd

/-- `readlink`, for a name without links before its last component. -/
def readlink (name : List UInt8) : Except Errno CString :=
  match fs.root.find (components name) with
  | .ok (.link target) => .ok target
  | .ok _ => .error .EINVAL
  | .error e => .error e

/-- `file_accessible`, for a name without links. -/
def fileAccessible (name : List UInt8) : Except Errno Unit :=
  match fs.root.find (components name) with
  | .ok _ => .ok ()
  | .error e => .error e

end FileSystem

/-- What must not happen: a write outside of a buffer, or a loop without end. -/
inductive Stop where
  | overrun
  | endless
deriving DecidableEq

/-- A write of `count` bytes at a position of a buffer. -/
def put (size pos count : Nat) : Except Stop Unit :=
  if pos + count ≤ size then .ok () else .error .overrun

/-- The size of a buffer after `scratch_buffer_grow` or `scratch_buffer_grow_preserve` have made it
large enough.
-/
def growTo (size need : Nat) : Nat :=
  if need ≤ size ∨ size = 0 then size else growTo (2 * size) need
termination_by need - size

def overwrite (bytes : List UInt8) (pos : Nat) (new : List UInt8) : List UInt8 :=
  bytes.take pos ++ new ++ bytes.drop (pos + new.length)

/-- A pointer into the name or into the buffer `extra`. -/
structure Place where
  inExtra : Bool
  offset : Nat

def Place.advance (place : Place) (count : Nat) : Place :=
  { place with offset := place.offset + count }

/-- The variables of the loop: the bytes of `rname` before `dest`, the size of `rname`, the bytes of
`extra`, the size of `link`, `start` and `num_links`.
-/
structure Resolving where
  dest : List UInt8
  rname : Nat
  extra : List UInt8
  link : Nat
  start : Place
  links : Nat

def Resolving.memory (st : Resolving) (name : CString) (place : Place) : List UInt8 :=
  if place.inExtra then st.extra.drop place.offset else (name.bytes ++ [0]).drop place.offset

def Resolving.text (st : Resolving) (name : CString) (place : Place) : List UInt8 :=
  (st.memory name place).takeWhile (· ≠ 0)

/-- Back up to the previous component, except at the root. -/
def backUp (dest : List UInt8) : List UInt8 :=
  if dest.length > 1 then dest.dropLast.rdropWhile (· ≠ slash) else dest

def suffixRequiresDirCheck (suffix : List UInt8) : Bool :=
  if suffix.head? = some slash then
    match _body : skipSlashes suffix with
    | [] => true
    | c :: rest =>
      if c ≠ 46 then false
      else if rest = [] then true
      else if rest.head? = some 46 ∧ (rest.tail = [] ∨ rest.tail.head? = some slash) then true
      else suffixRequiresDirCheck rest
  else false
termination_by suffix.length
decreasing_by
  have shorter : (c :: rest).length ≤ suffix.length := by
    rw [← _body]
    exact (dropWhile_suffix _).length_le
  rw [length_cons] at shorter
  omega

def endWithSlash (dest : List UInt8) (rname : Nat) : Except Stop (List UInt8) :=
  if dest.getLast? = some slash then .ok dest
  else do
    put rname dest.length 1
    return dest ++ [slash]

def appendComponent (dest : List UInt8) (rname : Nat) (comp : List UInt8)
    : Except Stop (List UInt8 × Nat) := do
  let dest ← endWithSlash dest rname
  let rname := growTo rname (dest.length + comp.length + 2)
  put rname dest.length (comp.length + 1)
  return (dest ++ comp, rname)

/-- The target of a link is put before the rest of the name, in the buffer `extra`, which may hold
the rest already.
-/
def expandLink (st : Resolving) (name : CString) (stop : Place) (target : CString)
    : Except Stop (List UInt8) := do
  let len := (st.text name stop).length
  let n := target.bytes.length
  let size := growTo st.extra.length (len + n + 1)
  let st := { st with extra := st.extra ++ List.replicate (size - st.extra.length) 0 }
  put size n (len + 1)
  let extra := overwrite st.extra n ((st.memory name stop).take (len + 1))
  put size 0 n
  return overwrite extra 0 target.bytes

structure Ended where
  error : Option Errno
  dest : List UInt8
  rname : Nat

def realpathLoop (fs : FileSystem) (threshold : Nat) (name : CString)
    : Nat → Resolving → Except Stop Ended
  | 0, _ => .error .endless
  | fuel + 1, st =>
    let text := st.text name st.start
    let body := skipSlashes text
    let comp := component body
    let stop := st.start.advance (text.length - body.length + comp.length)
    if comp = [] then .ok ⟨none, st.dest, st.rname⟩
    else if comp = dot then realpathLoop fs threshold name fuel { st with start := stop }
    else if comp = dotDot then
      realpathLoop fs threshold name fuel { st with dest := backUp st.dest, start := stop }
    else do
      let (dest, rname) ← appendComponent st.dest st.rname comp
      match fs.readlink dest with
      | .ok target =>
        let link := growTo st.link (target.bytes.length + 2)
        if st.links + 1 > threshold then return ⟨some .ELOOP, dest, rname⟩
        else
          put link target.bytes.length 1
          let extra ← expandLink st name stop target
          if target.bytes.head? = some slash then
            put rname 0 1
            realpathLoop fs threshold name fuel
              ⟨[slash], rname, extra, link, ⟨true, 0⟩, st.links + 1⟩
          else
            realpathLoop fs threshold name fuel
              ⟨backUp dest, rname, extra, link, ⟨true, 0⟩, st.links + 1⟩
      | .error e =>
        if suffixRequiresDirCheck (st.text name stop) then
          -- `dir_check`
          put rname dest.length 2
          match fs.fileAccessible (dest ++ [slash]) with
          | .ok _ =>
            realpathLoop fs threshold name fuel { st with dest, rname, start := stop }
          | .error e => return ⟨some e, dest, rname⟩
        else if e = .EINVAL then
          realpathLoop fs threshold name fuel { st with dest, rname, start := stop }
        else return ⟨some e, dest, rname⟩

/-- What is returned, and what is stored in `resolved`. -/
structure RealpathResult where
  returned : Except Errno (List UInt8)
  resolved : Option (List UInt8)

/-- The end of `realpath_stk`, for a caller with a buffer or without one. -/
def finishRealpath (pathMax : Nat) (resolved : Bool) (ended : Ended) : Except Stop RealpathResult := do
  let dest :=
    if ended.error = none ∧ ended.dest.length > 1 ∧ ended.dest.getLast? = some slash then
      ended.dest.dropLast
    else ended.dest
  put ended.rname dest.length 1
  match ended.error with
  | none =>
    if ¬ resolved then return ⟨.ok dest, none⟩
    else if dest.length + 1 ≤ pathMax then return ⟨.ok dest, some dest⟩
    else return ⟨.error .ENAMETOOLONG, none⟩
  | some e =>
    if resolved ∧ e = .ENOENT ∧ dest.length + 1 ≤ pathMax then return ⟨.error e, some dest⟩
    else return ⟨.error e, none⟩

/-- `sizeof` the space in `struct scratch_buffer`. -/
def scratchSize : Nat := 1024

/-- The result before the first component, and the size of its buffer. -/
def startRealpath (fs : FileSystem) (name : CString) : Except Stop (List UInt8 × Nat) :=
  if name.bytes.head? = some slash then do
    put scratchSize 0 1
    return ([slash], scratchSize)
  else .ok (fs.getcwd, growTo scratchSize (fs.getcwd.length + 1))

/-- `realpath_stk`, with new scratch buffers. -/
def realpath (fs : FileSystem) (threshold pathMax fuel : Nat) (name : CString) (resolved : Bool)
    : Except Stop RealpathResult :=
  if name.bytes = [] then .ok ⟨.error .ENOENT, none⟩
  else do
    let (dest, rname) ← startRealpath fs name
    let ended ← realpathLoop fs threshold name fuel
      ⟨dest, rname, List.replicate scratchSize 0, scratchSize, ⟨false, 0⟩, 0⟩
    finishRealpath pathMax resolved ended

/-! The text that `realpath` builds, and what it tells about the components. -/

def joined (path : List (List UInt8)) : List UInt8 := path.flatMap (slash :: ·)

theorem joined_append (path : List (List UInt8)) (c : List UInt8)
    : joined (path ++ [c]) = joined path ++ slash :: c := by
  simp [joined]

def Renders (dest : List UInt8) (path : List (List UInt8)) : Prop :=
  dest = joined path ++ [slash] ∨ path ≠ [] ∧ dest = joined path

theorem renders_pathText (path : List (List UInt8)) : Renders (pathText path) path := by
  unfold pathText
  split_ifs with empty
  · rw [empty]
    exact .inl rfl
  · exact .inr ⟨empty, rfl⟩

theorem rdropWhile_component (front : List UInt8) {comp : List UInt8} (noSlash : slash ∉ comp)
    : (front ++ [slash] ++ comp).rdropWhile (· ≠ slash) = front ++ [slash] := by
  induction comp using List.reverseRecOn with
  | nil => rw [append_nil, rdropWhile_concat_neg _ _ _ (by simp)]
  | append_singleton comp c ih =>
    rw [mem_append, not_or, mem_singleton] at noSlash
    rw [← append_assoc, rdropWhile_concat_pos _ _ _ (by simpa using Ne.symm noSlash.2)]
    exact ih noSlash.1

section

variable {path : List (List UInt8)} (valid : ∀ name ∈ path, ValidName name) {dest : List UInt8}

include valid

theorem joined_getLast (nonempty : path ≠ []) : (joined path).getLast? ≠ some slash := by
  rcases path.eq_nil_or_concat' with rfl | ⟨before, c, rfl⟩
  · exact absurd rfl nonempty
  · have name := valid c (by simp)
    obtain ⟨front, last, rfl⟩ := c.eq_nil_or_concat'.resolve_left name.nonempty
    rw [joined_append, ← cons_append, ← append_assoc, getLast?_concat]
    intro same
    apply name.noSlash
    rw [← Option.some.inj same]
    simp

theorem Renders.endWithSlash (renders : Renders dest path) {rname : Nat}
    (room : dest.length < rname)
    : Canonicalize.endWithSlash dest rname = .ok (joined path ++ [slash]) := by
  unfold Canonicalize.endWithSlash
  rcases renders with rfl | ⟨nonempty, rfl⟩
  · rw [if_pos getLast?_concat]
  · rw [if_neg (joined_getLast valid nonempty), put, if_pos (by omega)]
    rfl

theorem Renders.backUp (renders : Renders dest path)
    : Renders (Canonicalize.backUp dest) path.dropLast := by
  rcases path.eq_nil_or_concat' with rfl | ⟨before, c, rfl⟩
  · obtain rfl : dest = [slash] := renders.resolve_right fun wrong => wrong.1 rfl
    exact .inl rfl
  · have name := valid c (by simp)
    obtain ⟨front, last, rfl⟩ := c.eq_nil_or_concat'.resolve_left name.nonempty
    have noSlash := name.noSlash
    rw [mem_append, not_or] at noSlash
    refine .inl ?_
    rw [dropLast_concat]
    unfold Canonicalize.backUp
    rcases renders with rfl | ⟨-, rfl⟩
    · rw [if_pos (by simp [joined_append]; omega), dropLast_concat, joined_append,
        append_cons]
      exact rdropWhile_component _ name.noSlash
    · rw [joined_append, append_cons, if_pos (by simp; omega), ← append_assoc,
        dropLast_concat]
      exact rdropWhile_component _ noSlash.1

theorem Renders.stripped (renders : Renders dest path)
    : (if dest.length > 1 ∧ dest.getLast? = some slash then dest.dropLast else dest)
      = pathText path := by
  unfold pathText
  rcases renders with rfl | ⟨nonempty, rfl⟩
  · split_ifs with strip empty empty
    · rw [empty] at strip
      simp [joined] at strip
    · rw [dropLast_concat]
      rfl
    · rw [empty]
      rfl
    · refine absurd ⟨?_, getLast?_concat⟩ strip
      obtain ⟨c, rest, rfl⟩ := exists_cons_of_ne_nil empty
      simp [joined]
  · rw [if_neg (fun strip => joined_getLast valid nonempty strip.2), if_neg nonempty]
    rfl

end

theorem joined_boundary (path : List (List UInt8))
    : joined path = [] ∨ (joined path).head? = some slash := by
  cases path with
  | nil => exact .inl rfl
  | cons c path => exact .inr rfl

theorem components_name {c : List UInt8} (valid : ValidName c) : components (slash :: c) = [c] := by
  obtain ⟨head, rest, rfl⟩ := exists_cons_of_ne_nil valid.nonempty
  have noSlash := valid.noSlash
  have free : ∀ a ∈ head :: rest, decide (a ≠ slash) = true := by
    intro a member
    rw [decide_eq_true_iff]
    rintro rfl
    exact noSlash member
  have first := of_decide_eq_true (free head (by simp))
  have skip : skipSlashes (slash :: head :: rest) = head :: rest := by
    simp [skipSlashes, first]
  rw [components_cons skip, component, afterComponent, takeWhile_eq_self_iff.mpr free,
    dropWhile_eq_nil_iff.mpr free, components_nil]

theorem components_joined {path : List (List UInt8)} (valid : ∀ name ∈ path, ValidName name)
    (more : List UInt8) (boundary : more = [] ∨ more.head? = some slash)
    : components (joined path ++ more) = path ++ components more := by
  induction path with
  | nil => rfl
  | cons c path ih =>
    obtain ⟨name, valid⟩ := forall_mem_cons.mp valid
    have split : joined (c :: path) ++ more = (slash :: c) ++ (joined path ++ more) := by
      simp [joined]
    have next : joined path ++ more = [] ∨ (joined path ++ more).head? = some slash := by
      rcases joined_boundary path with empty | head
      · rw [empty]
        exact boundary
      · right
        rw [head?_append, head]
        rfl
    rw [split]
    rcases components_append (slash :: c) (joined path ++ more) next with same | ⟨before, ends, -⟩
    · rw [same, ih valid, components_name name]
      rfl
    · rw [components_name name] at ends
      have last := congrArg List.getLast? ends
      rw [getLast?_concat] at last
      exact absurd (Option.some.inj last) name.notDot

/-- The components need a directory, and no other one before finds out. -/
def needsCheck : List (List UInt8) → Bool
  | [] => false
  | c :: rest => if c = dot then rest.isEmpty || needsCheck rest else c = dotDot

theorem component_cons {c : UInt8} (noSlash : c ≠ slash) (rest : List UInt8)
    : component (c :: rest) = c :: component rest
      ∧ afterComponent (c :: rest) = afterComponent rest := by
  unfold component afterComponent
  rw [takeWhile_cons_of_pos (by simpa using noSlash),
    dropWhile_cons_of_pos (by simpa using noSlash)]
  exact ⟨rfl, rfl⟩

theorem component_boundary {text : List UInt8} (boundary : text = [] ∨ text.head? = some slash)
    : component text = [] ∧ afterComponent text = text := by
  have split := @component_append [] text boundary
  exact split

theorem component_eq_nil {text : List UInt8} (none : component text = [])
    : text = [] ∨ text.head? = some slash := by
  cases text with
  | nil => exact .inl rfl
  | cons c rest =>
    refine .inr (congrArg some ?_)
    by_contra other
    rw [(component_cons other rest).1] at none
    cases none

private theorem suffixRequiresDirCheck_cons {suffix rest : List UInt8} {c : UInt8}
    (head : suffix.head? = some slash) (body : skipSlashes suffix = c :: rest)
    : suffixRequiresDirCheck suffix = if c ≠ 46 then false
        else if rest = [] then true
        else if rest.head? = some 46 ∧ (rest.tail = [] ∨ rest.tail.head? = some slash) then true
        else suffixRequiresDirCheck rest := by
  rw [suffixRequiresDirCheck, if_pos head]
  split
  · rename_i other
    rw [body] at other
    cases other
  · rename_i c' rest' other
    rw [body] at other
    cases other
    rfl

theorem suffixRequiresDirCheck_no {suffix : List UInt8} (head : suffix.head? ≠ some slash)
    : suffixRequiresDirCheck suffix = false := by
  rw [suffixRequiresDirCheck, if_neg head]

/-- The scan decides by the components: only `.` and `..` ask for a check. -/
theorem suffixRequiresDirCheck_eq (suffix : List UInt8)
    (boundary : suffix = [] ∨ suffix.head? = some slash)
    : suffixRequiresDirCheck suffix = needsCheck (components suffix) := by
  have notSlash : (46 : UInt8) ≠ slash := by decide
  induction suffix using suffixRequiresDirCheck.induct with
  | case1 suffix head body =>
    have nonempty : suffix ≠ [] := by
      rintro rfl
      cases head
    rw [components_slashes nonempty body, suffixRequiresDirCheck, if_pos head]
    split
    · rfl
    · rename_i other
      rw [body] at other
      cases other
  | case2 suffix head c rest body other =>
    have split := component_cons (skipSlashes_head body) rest
    rw [suffixRequiresDirCheck_cons head body, if_pos other, components_cons body, needsCheck,
      split.1, if_neg (by simp [dot, other])]
    simp [dotDot, other]
  | case3 suffix head c isDot body =>
    obtain rfl := not_not.mp isDot
    have split := component_cons notSlash []
    rw [suffixRequiresDirCheck_cons head body, components_cons body, split.2,
      show afterComponent [] = [] from rfl, components_nil]
    rfl
  | case4 suffix head c rest body isDot more twice =>
    obtain rfl := not_not.mp isDot
    obtain ⟨tail, rfl⟩ := head?_eq_some_iff.mp twice.1
    have split := component_cons notSlash (46 :: tail)
    have next := component_cons notSlash tail
    have ends : tail = [] ∨ tail.head? = some slash := twice.2
    rw [suffixRequiresDirCheck_cons head body, if_pos twice,
      components_cons body, split.1, next.1, (component_boundary ends).1]
    rfl
  | case5 suffix head c rest body isDot more notTwice ih =>
    obtain rfl := not_not.mp isDot
    have split := component_cons notSlash rest
    rw [suffixRequiresDirCheck_cons head body, if_neg more, if_neg notTwice,
      components_cons body, split.1, split.2]
    by_cases ends : rest.head? = some slash
    · -- The component is ".", and another one follows.
      rw [(component_boundary (.inr ends)).1, (component_boundary (.inr ends)).2, needsCheck,
        if_pos (show [46] = dot from rfl), ih (.inr ends)]
      simp [components_ne_nil more]
    · rw [suffixRequiresDirCheck_no ends]
      obtain ⟨d, tail, rfl⟩ := exists_cons_of_ne_nil more
      have noSlash : d ≠ slash := fun same => ends (by rw [same]; rfl)
      rw [(component_cons noSlash tail).1, needsCheck]
      refine (decide_eq_false fun same => notTwice ?_).symm
      simp only [dotDot, List.cons.injEq, true_and] at same
      exact ⟨congrArg some same.1, component_eq_nil same.2⟩
  | case6 suffix head =>
    obtain rfl := boundary.resolve_right head
    rw [suffixRequiresDirCheck_no head, components_nil]
    rfl

end Nglibc.Canonicalize
