import Nglibc.Resolv.NsNamePton

/-! The text of a name: what `___ns_name_ntop` writes is read back by `___ns_name_pton`. -/

namespace Nglibc.Resolv

open Memory List

variable {src : Memory UInt8} {fuel : Nat} {labels : List Label}

def byteText (c : UInt8) : List UInt8 :=
  if special c.toNat then [UInt8.ofNat '\\'.toNat, c]
  else if ¬ printable c.toNat then
    [UInt8.ofNat '\\'.toNat, UInt8.ofNat ('0'.toNat + c.toNat / 100),
      UInt8.ofNat ('0'.toNat + c.toNat % 100 / 10), UInt8.ofNat ('0'.toNat + c.toNat % 10)]
  else [c]

def Label.text (l : Label) : List UInt8 := l.1.flatMap byteText

def moreText (labels : List Label) : List UInt8 :=
  labels.flatMap fun l => UInt8.ofNat '.'.toNat :: l.text

def nameText : List Label → List UInt8
  | [] => [UInt8.ofNat '.'.toNat]
  | l :: rest => l.text ++ moreText rest

/-! ns_name_ntop -/

theorem byteText_length (c : UInt8) : 1 ≤ (byteText c).length ∧ (byteText c).length ≤ 4 := by
  unfold byteText
  split
  · exact ⟨by simp, by simp⟩
  · split
    · exact ⟨by simp, by simp⟩
    · exact ⟨by simp, by simp⟩

theorem flatMap_byteText_length (bytes : List UInt8)
    : bytes.length ≤ (bytes.flatMap byteText).length
      ∧ (bytes.flatMap byteText).length ≤ 4 * bytes.length := by
  induction bytes with
  | nil => exact ⟨le_rfl, le_rfl⟩
  | cons c rest ih =>
    have length := byteText_length c
    rw [flatMap_cons, length_append, length_cons]
    omega

theorem ntopLabel_text {dstsiz l cp : Nat} {out : List UInt8}
    (room : out.length + ((src.slice cp l).flatMap byteText).length < dstsiz)
    : ntopLabel src dstsiz l cp out = .ok (out ++ (src.slice cp l).flatMap byteText) := by
  induction l generalizing cp out with
  | zero => rw [ntopLabel, slice_zero, flatMap_nil, append_nil]
  | succ l ih =>
    rw [slice_succ, flatMap_cons, length_append] at room
    have step : ntopLabel src dstsiz (l + 1) cp out
        = ntopLabel src dstsiz l (cp + 1) (out ++ byteText (src cp)) := by
      simp only [ntopLabel]
      unfold byteText at room ⊢
      split at room <;> rename_i quoted
      · rw [if_pos quoted, if_pos quoted, if_neg (by rw [length_cons] at room; omega)]
      · rw [if_neg quoted, if_neg quoted]
        split at room <;> rename_i escaped
        · rw [if_pos escaped, if_pos escaped,
            if_neg (by simp only [length_cons, length_nil] at room; omega)]
        · rw [if_neg escaped, if_neg escaped, if_neg (by rw [length_singleton] at room; omega)]
    rw [step, ih (by rw [length_append]; omega), slice_succ, flatMap_cons,
      append_assoc]

theorem Label.text_length (l : Label) : 1 ≤ l.text.length ∧ l.text.length ≤ 4 * l.1.length := by
  have length := flatMap_byteText_length l.1
  have positive := l.2.1
  exact ⟨by rw [Label.text]; omega, length.2⟩

/-- The outer loop behind the first label. -/
theorem ntopLoop_text {dstsiz cp : Nat} {out : List UInt8} (name : HoldsName src cp labels)
    (started : out ≠ []) (room : out.length + (moreText labels).length < dstsiz)
    (enough : labels.length < fuel)
    : ntopLoop src dstsiz fuel cp out
      = some (.ok ((out ++ moreText labels).length + 1, out ++ moreText labels)) := by
  induction labels generalizing cp out fuel with
  | nil =>
    obtain _ | fuel := fuel
    · omega
    · have zero : (src cp).toNat = 0 := toNat_eq_zero.mpr name
      have rest : out ++ moreText [] = out := append_nil out
      have put : putChar dstsiz out '\x00' = .ok (out ++ [UInt8.ofNat '\x00'.toNat]) :=
        if_neg (by omega)
      simp only [ntopLoop, zero]
      rw [if_pos trivial, if_neg started, rest]
      simp only [bind, Except.bind, put, length_append, length_singleton]
  | cons l labels ih =>
    obtain _ | fuel := fuel
    · omega
    · obtain ⟨first, bytes, tail⟩ := name
      have range := l.2
      have joined : out ++ UInt8.ofNat '.'.toNat :: l.text ++ moreText labels
          = out ++ moreText (l :: labels) := by
        rw [moreText, moreText, flatMap_cons, append_assoc]
      rw [← length_append, ← joined, length_append, length_append, length_cons] at room
      rw [length_cons] at enough
      have put : putChar dstsiz out '.' = .ok (out ++ [UInt8.ofNat '.'.toNat]) := if_neg (by omega)
      have dotted : (out ++ [UInt8.ofNat '.'.toNat]).length = out.length + 1 := by
        rw [length_append, length_singleton]
      have written : ntopLabel src dstsiz l.1.length (cp + 1) (out ++ [UInt8.ofNat '.'.toNat])
          = .ok (out ++ UInt8.ofNat '.'.toNat :: l.text) := by
        rw [ntopLabel_text (by rw [bytes, ← Label.text, dotted]; omega), bytes, append_assoc]
        rfl
      simp only [ntopLoop, first]
      rw [if_neg (by omega), if_neg (by omega), if_pos started]
      simp only [bind, Except.bind, put, written]
      rw [ih tail (by simp) (by rw [length_append, length_cons]; omega) (by omega), joined]

/-- `___ns_name_ntop` of a name whose text fits. -/
theorem nsNameNtop_fits {dstsiz : Nat} (name : HoldsName src 0 labels)
    (room : (nameText labels).length < dstsiz) (enough : labels.length < fuel)
    : nsNameNtop fuel src dstsiz = some (.ok ((nameText labels).length + 1, nameText labels)) := by
  obtain _ | fuel := fuel
  · omega
  · cases labels with
    | nil =>
      have zero : (src 0).toNat = 0 := toNat_eq_zero.mpr name
      have limit : 1 < dstsiz := room
      have root : putChar dstsiz [] '.' = .ok (nameText []) := if_neg (by rw [length_nil]; omega)
      have put : putChar dstsiz (nameText []) '\x00' = .ok (nameText [] ++ [UInt8.ofNat '\x00'.toNat]) :=
        if_neg (Nat.not_le.mpr room)
      simp only [nsNameNtop, ntopLoop, zero]
      simp only [bind, Except.bind, root, put]
      rfl
    | cons l labels =>
      obtain ⟨first, bytes, tail⟩ := name
      have range := l.2
      have length := l.text_length
      rw [nameText, length_append] at room
      rw [length_cons] at enough
      have written : ntopLabel src dstsiz l.1.length (0 + 1) [] = .ok l.text := by
        rw [ntopLabel_text (by rw [bytes, ← Label.text, length_nil]; omega), bytes]
        rfl
      simp only [nsNameNtop, ntopLoop, first]
      rw [if_neg (by omega), if_neg (by omega), if_neg (not_not.mpr rfl)]
      simp only [bind, Except.bind, written]
      exact ntopLoop_text tail (ne_nil_of_length_pos length.1) room (by omega)

theorem moreText_length_le : (moreText labels).length ≤ 4 * (wire labels).length := by
  induction labels with
  | nil => exact Nat.zero_le _
  | cons l labels ih =>
    have length := l.text_length
    rw [moreText, flatMap_cons, wire_cons, length_append, length_append, length_label_wire,
      length_cons]
    rw [moreText] at ih
    omega

/-- `___ns_name_ntop` of a valid name. -/
theorem nsNameNtop_text (name : HoldsName src 0 labels) (short : (wire labels).length ≤ maxcdname)
    (enough : 256 ≤ fuel)
    : nsNameNtop fuel src nsMaxdname
      = some (.ok ((nameText labels).length + 1, nameText labels)) := by
  have limit : maxcdname = 255 := rfl
  have buffer : nsMaxdname = 1025 := rfl
  have size := @length_wire_ge labels
  refine nsNameNtop_fits name ?_ (by omega)
  cases labels with
  | nil => decide
  | cons l labels =>
    have length := l.text_length
    have more := @moreText_length_le labels
    rw [wire_cons, length_append, length_label_wire] at short
    rw [nameText, length_append]
    omega

/-! ns_name_pton -/

def Pton.put (p : Pton) (bytes : List UInt8) : Pton :=
  { p with dst := p.dst.store p.bp bytes, bp := p.bp + bytes.length }

variable {p : Pton}

theorem Pton.putByte_put {c : UInt8} (room : p.bp < maxcdname)
    : p.putByte maxcdname c = .ok (p.put [c]) := by
  rw [Pton.putByte, if_neg (not_le.mpr room)]
  rfl

theorem isDigit_digit {d : Nat} (small : d < 10) : isDigit (UInt8.ofNat ('0'.toNat + d)) = true := by
  have value : (UInt8.ofNat ('0'.toNat + d)).toNat = '0'.toNat + d := by
    rw [UInt8.toNat_ofNat', Nat.mod_eq_of_lt]
    have zero : '0'.toNat = 48 := rfl
    omega
  have zero : '0'.toNat = 48 := rfl
  have nine : '9'.toNat = 57 := rfl
  rw [isDigit, value, decide_eq_true_eq]
  omega

theorem special_cases : ∀ n < 256, special n = true → ¬ ('0'.toNat ≤ n ∧ n ≤ '9'.toNat) := by
  decide +kernel

theorem special_dot : ∀ n < 256, special n = false → n ≠ '\\'.toNat ∧ n ≠ '.'.toNat := by
  decide +kernel

theorem toNat_digit {d : Nat} (small : d < 10)
    : (UInt8.ofNat ('0'.toNat + d)).toNat - '0'.toNat = d := by
  have zero : '0'.toNat = 48 := rfl
  rw [UInt8.toNat_ofNat', zero]
  omega

variable {rest : List UInt8}

/-- A byte behind a backslash that is no digit stands for itself. -/
theorem ptonLoop_quoted {c : UInt8} (room : p.bp < maxcdname) (noDigit : isDigit c = false)
    : ptonLoop maxcdname (c :: rest) true p = ptonLoop maxcdname rest false (p.put [c]) := by
  conv_lhs => unfold ptonLoop
  simp only [noDigit]
  rw [if_neg Bool.false_ne_true, Pton.putByte_put room]
  rfl

/-- Three digits behind a backslash stand for the byte with that value. -/
theorem ptonLoop_digits {c : UInt8} (room : p.bp < maxcdname)
    : ptonLoop maxcdname
        (UInt8.ofNat ('0'.toNat + c.toNat / 100) :: UInt8.ofNat ('0'.toNat + c.toNat % 100 / 10)
          :: UInt8.ofNat ('0'.toNat + c.toNat % 10) :: rest) true p
      = ptonLoop maxcdname rest false (p.put [c]) := by
  have small : c.toNat < 256 := c.toNat_lt
  have value : c.toNat / 100 * 100 + c.toNat % 100 / 10 * 10 + c.toNat % 10 = c.toNat := by omega
  rw [ptonLoop, if_pos (isDigit_digit (by omega))]
  simp only [isDigit_digit (show c.toNat % 100 / 10 < 10 by omega),
    isDigit_digit (show c.toNat % 10 < 10 by omega), toNat_digit (show c.toNat / 100 < 10 by omega),
    toNat_digit (show c.toNat % 100 / 10 < 10 by omega),
    toNat_digit (show c.toNat % 10 < 10 by omega), value]
  rw [if_neg (by simp), if_neg (by omega), UInt8.ofNat_toNat, Pton.putByte_put room]
  rfl

private theorem ptonLoop_byteText {c : UInt8} (room : p.bp < maxcdname)
    : ptonLoop maxcdname (byteText c ++ rest) false p
      = ptonLoop maxcdname rest false (p.put [c]) := by
  have small : c.toNat < 256 := c.toNat_lt
  have backslash : ∀ text, ptonLoop maxcdname (UInt8.ofNat '\\'.toNat :: text) false p
      = ptonLoop maxcdname text true p := by
    intro text
    rw [ptonLoop, if_pos (by decide)]
  unfold byteText
  split
  · rename_i quoted
    exact ptonLoop_quoted room (decide_eq_false (special_cases _ small quoted))
  · rename_i plain
    split
    · exact ptonLoop_digits room
    · have other := special_dot _ small (Bool.not_eq_true _ ▸ plain)
      rw [cons_append, nil_append, ptonLoop, if_neg other.1, if_neg other.2,
        Pton.putByte_put room]
      rfl

theorem Pton.put_put (p : Pton) (bytes more : List UInt8)
    : (p.put bytes).put more = p.put (bytes ++ more) := by
  simp only [Pton.put, store_store_append, length_append, Nat.add_assoc]

theorem ptonLoop_bytes {bytes rest : List UInt8} (room : p.bp + bytes.length ≤ maxcdname)
    : ptonLoop maxcdname (bytes.flatMap byteText ++ rest) false p
      = ptonLoop maxcdname rest false (p.put bytes) := by
  induction bytes generalizing p with
  | nil => simp [Pton.put]
  | cons c bytes ih =>
    rw [length_cons] at room
    rw [flatMap_cons, append_assoc, ptonLoop_byteText (by omega),
      ih (by simp only [Pton.put, length_singleton]; omega), Pton.put_put]
    rfl

theorem Pton.putLength_label {l : Label} (fresh : p.bp = p.label + 1)
    (room : p.bp + l.1.length ≤ maxcdname)
    : (p.put l.1).putLength maxcdname
      = .ok (l.1.length, ⟨p.dst.store p.label l.wire, p.label, p.label + (l.1.length + 1)⟩) := by
  have range := l.2
  have size : p.bp + l.1.length - p.label - 1 = l.1.length := by omega
  have stored : (p.dst.store p.bp l.1).store p.label [UInt8.ofNat l.1.length]
      = p.dst.store p.label l.wire := by
    rw [Label.wire, fresh]
    exact store_cons.symm
  simp only [Pton.putLength, Pton.put, size]
  rw [if_neg (not_not.mpr (land_label _ range.2)), if_neg (by omega), stored]
  simp only [Except.ok.injEq, Prod.mk.injEq, Pton.mk.injEq, true_and]
  omega

/-- The end of the text behind the last label. -/
theorem Pton.finish_label {dst : Memory UInt8} {label bp n result : Nat} (nonempty : n ≠ 0)
    (room : bp < maxcdname)
    : Pton.finish maxcdname result n ⟨dst, label, bp⟩ = .ok (result, dst.store bp [0]) := by
  have put : Pton.putByte maxcdname ⟨dst, label, bp⟩ 0 = .ok (Pton.put ⟨dst, label, bp⟩ [0]) :=
    Pton.putByte_put room
  rw [Pton.finish, if_pos nonempty, put]
  exact if_neg (not_lt.mpr (Nat.succ_le_of_lt room))

theorem Label.text_head (l : Label) : ∃ c rest, l.text = c :: rest ∧ c.toNat ≠ '.'.toNat := by
  obtain ⟨bytes, positive, short⟩ := l
  cases bytes with
  | nil => exact absurd positive (lt_irrefl 0)
  | cons c bytes =>
    have head : ∃ first more, byteText c = first :: more ∧ first.toNat ≠ '.'.toNat := by
      unfold byteText
      split
      · exact ⟨_, _, rfl, by decide⟩
      · rename_i plain
        split
        · exact ⟨_, _, rfl, by decide⟩
        · exact ⟨c, [], rfl, (special_dot _ c.toNat_lt (Bool.not_eq_true _ ▸ plain)).2⟩
    obtain ⟨first, more, text, noDot⟩ := head
    refine ⟨first, more ++ bytes.flatMap byteText, ?_, noDot⟩
    simp only [Label.text, flatMap_cons, text, cons_append]

/-- The text of a name that is not the root, from the start of a label on. -/
theorem ptonLoop_labels {l : Label} {labels : List Label} (fresh : p.bp = p.label + 1)
    (room : p.label + (wire (l :: labels)).length ≤ maxcdname)
    : ptonLoop maxcdname (l.text ++ moreText labels) false p
      = .ok (0, p.dst.store p.label (wire (l :: labels))) := by
  induction labels generalizing p l with
  | nil =>
    have range := l.2
    rw [wire_cons, length_append, length_label_wire, wire_nil, length_singleton] at room
    rw [Label.text, ptonLoop_bytes (by omega), moreText, flatMap_nil, ptonLoop,
      if_neg Bool.false_ne_true, Pton.putLength_label fresh (by omega)]
    have finished := @Pton.finish_label (p.dst.store p.label l.wire) p.label
      (p.label + (l.1.length + 1)) l.1.length 0 (by omega) (by omega)
    have joined := @store_store_append _ p.dst p.label l.wire [0]
    rw [length_label_wire] at joined
    simp only [bind, Except.bind, finished]
    rw [joined, wire_cons, wire_nil]
  | cons next labels ih =>
    have range := l.2
    obtain ⟨c, rest, text, noDot⟩ := next.text_head
    rw [wire_cons, length_append, length_label_wire] at room
    have more : moreText (next :: labels)
        = UInt8.ofNat '.'.toNat :: (next.text ++ moreText labels) := by
      rfl
    have rest_ := @ih ⟨p.dst.store p.label l.wire, p.label + (l.1.length + 1),
      p.label + (l.1.length + 1) + 1⟩ next rfl (by simp only; omega)
    have joined := @store_store_append _ p.dst p.label l.wire (wire (next :: labels))
    rw [length_label_wire] at joined
    rw [text, cons_append] at rest_ more
    rw [Label.text, ptonLoop_bytes (by omega), more, ptonLoop, if_neg (by decide),
      if_pos (by decide), Pton.putLength_label fresh (by omega)]
    simp only [bind, Except.bind]
    rw [if_neg (not_or.mpr ⟨by omega, noDot⟩), rest_, joined, wire_cons l]

theorem nsNamePton_text (short : (wire labels).length ≤ maxcdname) (dst : Memory UInt8)
    : ∃ r, nsNamePton (nameText labels) dst maxcdname = .ok r ∧ HoldsName r.2 0 labels := by
  cases labels with
  | nil =>
    have run : nsNamePton (nameText []) dst maxcdname = .ok (1, dst.store 0 [0]) := by
      have length : Pton.putLength maxcdname ⟨dst, 0, 1⟩ = .ok (0, ⟨dst.store 0 [0], 0, 1⟩) := by
        simp only [Pton.putLength]
        rfl
      rw [nsNamePton, nameText, ptonLoop, if_neg (by decide), if_pos (by decide), length]
      rfl
    have root : HoldsName (dst.store 0 [0]) 0 [] := by
      rw [HoldsName, store_singleton, if_pos rfl]
    exact ⟨_, run, root⟩
  | cons l labels =>
    have run : nsNamePton (nameText (l :: labels)) dst maxcdname
        = .ok (0, dst.store 0 (wire (l :: labels))) :=
      ptonLoop_labels rfl (by simpa using short)
    have name : HoldsName (dst.store 0 (wire (l :: labels))) 0 (l :: labels) :=
      holdsName_iff.mpr slice_store_self
    exact ⟨_, run, name⟩

theorem toNat_digit_ne_zero {d : Nat} (small : d < 10) : UInt8.ofNat ('0'.toNat + d) ≠ 0 := by
  have zero : '0'.toNat = 48 := rfl
  rw [Ne, ← toNat_eq_zero, UInt8.toNat_ofNat', zero]
  omega

private theorem zero_notMem_byteText (c : UInt8) : 0 ∉ byteText c := by
  have small : c.toNat < 256 := c.toNat_lt
  unfold byteText
  split
  · rename_i quoted
    have nonzero : c ≠ 0 := by
      rintro rfl
      exact absurd quoted (by decide)
    simp [nonzero.symm]
  · split
    · have hundreds := toNat_digit_ne_zero (show c.toNat / 100 < 10 by omega)
      have tens := toNat_digit_ne_zero (show c.toNat % 100 / 10 < 10 by omega)
      have ones := toNat_digit_ne_zero (show c.toNat % 10 < 10 by omega)
      simp only [mem_cons, not_mem_nil, or_false, not_or]
      exact ⟨by decide, hundreds.symm, tens.symm, ones.symm⟩
    · rename_i visible
      have nonzero : c ≠ 0 := by
        rintro rfl
        exact visible (by decide)
      simp [nonzero.symm]

theorem zero_notMem_nameText (labels : List Label) : 0 ∉ nameText labels := by
  have label : ∀ l : Label, 0 ∉ l.text := by
    intro l member
    obtain ⟨c, _, inside⟩ := mem_flatMap.mp member
    exact zero_notMem_byteText c inside
  have more : 0 ∉ moreText labels.tail := by
    intro member
    obtain ⟨l, _, inside⟩ := mem_flatMap.mp member
    rcases mem_cons.mp inside with dot | inside
    · exact absurd dot (by decide)
    · exact label l inside
  cases labels with
  | nil => decide
  | cons l labels => exact fun member => (mem_append.mp member).elim (label l) more

/-- The text of a valid name is a string that reads back as the same name, and what
`___ns_name_pton` accepts is a valid name, whose text reads back in the same way.
-/
theorem nsName_text_roundTrip (enough : 256 ≤ fuel)
    : (∀ {src : Memory UInt8} {labels : List Label},
        HoldsName src 0 labels → (wire labels).length ≤ maxcdname
        → ∃ text, nsNameNtop fuel src nsMaxdname = some (.ok (text.length + 1, text)) ∧ 0 ∉ text
          ∧ ∀ dst, ∃ r, nsNamePton text dst maxcdname = .ok r ∧ HoldsName r.2 0 labels)
      ∧ ∀ {text : List UInt8} {dst : Memory UInt8} {r : Nat × Memory UInt8},
        nsNamePton text dst maxcdname = .ok r
        → ∃ labels, HoldsName r.2 0 labels ∧ (wire labels).length ≤ maxcdname
          ∧ ∃ again, nsNameNtop fuel r.2 nsMaxdname = some (.ok (again.length + 1, again))
          ∧ 0 ∉ again
          ∧ ∀ dst, ∃ r, nsNamePton again dst maxcdname = .ok r ∧ HoldsName r.2 0 labels := by
  have forth : ∀ {src : Memory UInt8} {labels : List Label},
      HoldsName src 0 labels → (wire labels).length ≤ maxcdname
      → ∃ text, nsNameNtop fuel src nsMaxdname = some (.ok (text.length + 1, text)) ∧ 0 ∉ text
        ∧ ∀ dst, ∃ r, nsNamePton text dst maxcdname = .ok r ∧ HoldsName r.2 0 labels :=
    fun {_ labels} name short =>
      ⟨nameText labels, nsNameNtop_text name short enough, zero_notMem_nameText labels,
        nsNamePton_text short⟩
  refine ⟨forth, ?_⟩
  intro text dst r run
  obtain ⟨labels, name, short⟩ := nsNamePton_name run
  exact ⟨labels, name, short, forth name short⟩

/-- The name of the labels "a." and 200 reads back from its text. -/
theorem nsName_text_roundTrip_quoted
    : ∃ text, nsNameNtop 256 (store (fun _ => 0) 0 [2, 97, 46, 1, 200, 0]) nsMaxdname
        = some (.ok (text.length + 1, text))
      ∧ 0 ∉ text
      ∧ ∀ dst, ∃ r, nsNamePton text dst maxcdname = .ok r
        ∧ HoldsName r.2 0 [⟨[97, 46], by decide⟩, ⟨[200], by decide⟩] :=
  (nsName_text_roundTrip le_rfl).1 ⟨rfl, rfl, rfl, rfl, rfl⟩ (by decide)

end Nglibc.Resolv
